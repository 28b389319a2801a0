import ExactAlgebra.Proofs.Collection
import ExactAlgebra.Proofs.ExpansionValue
import ExactAlgebra.Proofs.FlatFractions
import Mathlib

/-! Common denominators. The terms of the expanded form are split at the line; the denominator is the
product of the highest powers of all bases below the lines, and it has the value of the numerator over the
expression wherever that is defined. -/
namespace ExactAlgebra.Expr
open Engine

variable {ρ : String → ℚ} {context : Context} {e n d r t : Expr} {v w : ℚ}

theorem PlainFactor.powRat_neg_one {scheme : Scheme} {f : Expr} (plain : PlainFactor scheme f) :
    f.powRat (-1) = .ok (f.withPower (f.power * -1)) := by
  have enough : f.factors.length + 5 ≤ workLimit f f := enough_work_pow
  obtain ⟨n, limit⟩ : ∃ n, workLimit f f = n + 2 := ⟨workLimit f f - 2, by omega⟩
  rw [powRat, limit]
  exact plain.powRatWithin_eq rfl (by norm_num) (by norm_num) n

theorem isBelow_iff {scheme : Scheme} {f : Expr} (plain : PlainFactor scheme f) :
    f.isBelow = true ↔ f.power < 0 := by
  obtain ⟨name, p, rfl, -⟩ | ⟨terms, p, rfl, -⟩ := plain.cases <;> exact decide_eq_true_iff

/-- What is below the line and no product is a power of one base. -/
theorem plainFactor_unit_of_isBelow {scheme : Scheme} (formed : t.WellFormed) (built : BuiltBy scheme t)
    (single : t.isProduct = false) (below : t.isBelow = true) :
    PlainFactor scheme t.unit ∧ t.unit.power < 0 := by
  have number : t.isNumber = false := by
    cases t with
    | number c =>
      have low : (1 : ℚ) < 0 := decide_eq_true_iff.mp below
      exact absurd low (by norm_num)
    | _ => rfl
  obtain ⟨formedUnit, proper⟩ := formed.isFactor_unit number single
  have plain : PlainFactor scheme t.unit := ⟨formedUnit, proper, built.unit⟩
  refine ⟨plain, (isBelow_iff plain).mp ?_⟩
  cases t <;> exact below

/-- Numerator and denominator of a term; what is below the line is turned around. -/
theorem splitFraction_product {scheme : Scheme} {c : ℚ} {factors : List Expr}
    (plain : ∀ f ∈ factors, PlainFactor scheme f) (returned : splitFraction (product c factors) = .ok (n, d)) :
    mulAll (number c) (factors.filter (!·.isBelow)) = .ok n ∧
      mulAll one ((factors.filter (·.isBelow)).map fun f => f.withPower (f.power * -1)) = .ok d := by
  obtain ⟨above, multiplied, returned⟩ := Outcome.bind_ok returned
  obtain ⟨below, raised, returned⟩ := Outcome.bind_ok returned
  obtain ⟨denominator, times, returned⟩ := Outcome.bind_ok returned
  cases returned
  refine ⟨multiplied, ?_⟩
  rw [← Outcome.eq_map_of_mapM raised fun f member g power => ?_]
  · exact times
  · exact Except.ok.inj (power.symm.trans (plain f (List.mem_filter.mp member).1).powRat_neg_one)

theorem HasValue.factors (has : HasValue ρ v e) (nonzero : v ≠ 0) :
    ∀ f ∈ e.factors, HasValue ρ (eval ρ f) f ∧ eval ρ f ≠ 0 := by
  intro f member
  have plain := plainFactor_factors has.rational.formed has.rational.built f member
  refine ⟨⟨⟨plain.formed, plain.built⟩, (Defined.keptByProducts ρ).factors has.defined f member, rfl⟩, fun zero => ?_⟩
  have value := (Kind.lawful_ofScheme .rational).value_factors ρ e has.rational.formed
  refine nonzero (has.value.symm.trans (value.trans (mul_eq_zero_of_right _ ?_)))
  exact List.prod_eq_zero (List.mem_map.mpr ⟨f, member, zero⟩)

/-- A factor below the line does not vanish, and turned around it has the reciprocal value. -/
theorem HasValue.turned {f : Expr} (plain : PlainFactor .rational f) (defined : Defined ρ f)
    (below : f.power < 0) :
    eval ρ f ≠ 0 ∧ HasValue ρ (eval ρ f)⁻¹ (f.withPower (f.power * -1)) := by
  have nonzero : eval ρ f ≠ 0 := by
    rw [plain.eval_eq]
    exact zpow_ne_zero _ (stem_ne_zero plain defined below)
  have has : HasValue ρ (eval ρ f) f := ⟨⟨plain.formed, plain.built⟩, defined, rfl⟩
  have turned := has.powRat (p := -1) rfl (by norm_num) (fun _ => nonzero) plain.powRat_neg_one
  rw [show (-1 : ℚ).num = -1 from rfl, zpow_neg_one] at turned
  exact ⟨nonzero, turned⟩

/-- A term of one factor is below the line or above it. -/
theorem splitFraction_single (single : t.isProduct = false) (returned : splitFraction t = .ok (n, d)) :
    (t.isBelow = true ∧ n = number t.coeff ∧ t.unit.powRat (-1) = .ok d) ∨
      (t.isBelow = false ∧ n = t ∧ d = one) := by
  unfold splitFraction at returned
  split at returned
  · cases single
  cases below : t.isBelow with
  | false =>
    rw [below] at returned
    cases returned
    exact .inr ⟨rfl, rfl, rfl⟩
  | true =>
    rw [below, if_pos rfl] at returned
    obtain ⟨power, raised, returned⟩ := Outcome.bind_ok returned
    cases returned
    exact .inl ⟨rfl, rfl, raised⟩

theorem HasValue.splitFraction_product {c : ℚ} {factors : List Expr} (has : HasValue ρ v (product c factors))
    (returned : splitFraction (product c factors) = .ok (n, d)) :
    ∃ w, w ≠ 0 ∧ HasValue ρ (v * w) n ∧ HasValue ρ w d := by
  obtain ⟨⟨formed, built⟩, defined, rfl⟩ := has
  have plain : ∀ f ∈ factors, PlainFactor .rational f := fun f member =>
    plainFactor_factors formed built f ((sortFactors_perm factors).mem_iff.mpr member)
  have definedEach : ∀ f ∈ factors, Defined ρ f := (Defined.keptByProducts ρ).each defined
  obtain ⟨above, below⟩ := Expr.splitFraction_product plain returned
  have turned : ∀ f ∈ factors.filter (·.isBelow),
      eval ρ f ≠ 0 ∧ HasValue ρ (eval ρ f)⁻¹ (f.withPower (f.power * -1)) := by
    intro f member
    obtain ⟨inside, low⟩ := List.mem_filter.mp member
    exact HasValue.turned (plain f inside) (definedEach f inside) ((isBelow_iff (plain f inside)).mp low)
  have numerator := (hasValue_number (ρ := ρ) c).mulAll (fun f member => by
    have inside := (List.mem_filter.mp member).1
    exact ⟨⟨(plain f inside).formed, (plain f inside).built⟩, definedEach f inside, rfl⟩) above
  have denominator := (hasValue_number (ρ := ρ) 1).mulAll (fun g member => by
    obtain ⟨f, inside, rfl⟩ := List.mem_map.mp member
    obtain ⟨rational, definedTurned, -⟩ := (turned f inside).2
    exact ⟨rational, definedTurned, rfl⟩) below
  have values : ((factors.filter (·.isBelow)).map fun f => f.withPower (f.power * -1)).map (eval ρ) =
      ((factors.filter (·.isBelow)).map (eval ρ)).map (·⁻¹) := by
    rw [List.map_map, List.map_map]
    exact List.map_congr_left fun f member => (turned f member).2.value
  have nonzero : ((factors.filter (·.isBelow)).map (eval ρ)).prod ≠ 0 :=
    List.prod_ne_zero fun zero => by
      obtain ⟨f, member, value⟩ := List.mem_map.mp zero
      exact (turned f member).1 value
  rw [values, one_mul, ← List.prod_inv] at denominator
  refine ⟨_, inv_ne_zero nonzero, ?_, denominator⟩
  have whole : ((factors.filter (·.isBelow)).map (eval ρ)).prod *
      ((factors.filter fun f => !f.isBelow).map (eval ρ)).prod = (factors.map (eval ρ)).prod := by
    simpa using List.prod_map_filter_mul_prod_map_filter_not (·.isBelow = true) (eval ρ) factors
  have value : eval ρ (product c factors) * ((factors.filter (·.isBelow)).map (eval ρ)).prod⁻¹ =
      c * ((factors.filter fun f => !f.isBelow).map (eval ρ)).prod := by
    rw [eval, evalProduct_eq, ← whole]
    field_simp
  rwa [value]

/-- A term is its numerator over its denominator. -/
theorem HasValue.splitFraction (has : HasValue ρ v t) (returned : t.splitFraction = .ok (n, d)) :
    ∃ w, w ≠ 0 ∧ HasValue ρ (v * w) n ∧ HasValue ρ w d := by
  cases product : t.isProduct with
  | true =>
    cases t with
    | product c factors => exact has.splitFraction_product returned
    | _ => cases product
  | false =>
    rcases splitFraction_single product returned with ⟨below, rfl, raised⟩ | ⟨-, rfl, rfl⟩
    · obtain ⟨plain, low⟩ := plainFactor_unit_of_isBelow has.rational.formed has.rational.built product below
      obtain ⟨nonzero, turned⟩ := HasValue.turned plain (has.defined.withCoeff 1) low
      cases plain.powRat_neg_one.symm.trans raised
      refine ⟨_, inv_ne_zero nonzero, ?_, turned⟩
      rw [← has.value, eval_eq_coeff_mul, mul_assoc, mul_inv_cancel₀ nonzero, mul_one]
      exact hasValue_number _
    · exact ⟨1, one_ne_zero, by rwa [mul_one], hasValue_number 1⟩

/-- A numerator and a denominator whose quotient has the value of a term. -/
def Splits (ρ : String → ℚ) (t : Expr) (part : Expr × Expr) : Prop :=
  ∃ w, w ≠ 0 ∧ HasValue ρ (eval ρ t * w) part.1 ∧ HasValue ρ w part.2

theorem HasValue.spreadTerms (has : HasValue ρ v e) :
    (∀ t ∈ e.spreadTerms, HasValue ρ (eval ρ t) t) ∧ (e.spreadTerms.map (eval ρ)).sum = v := by
  have perm := spreadTerms_perm e
  refine ⟨fun t member => ?_, ?_⟩
  · have summand := perm.mem_iff.mp member
    exact ⟨⟨has.rational.formed.summand summand,
      forall_summands BuiltBy.withCoeff BuiltBy.terms has.rational.built t summand⟩,
      forall_summands Defined.withCoeff (Defined.keptByAddition ρ).terms has.defined t summand, rfl⟩
  · rw [(perm.map (eval ρ)).sum_eq, (addsUp_eval ρ).summands, has.value]

theorem Splits.nonzero {part : Expr × Expr} (splits : Splits ρ t part) : eval ρ part.2 ≠ 0 := by
  obtain ⟨w, nonzero, -, below⟩ := splits
  rwa [below.value]

theorem Splits.quotient {part : Expr × Expr} (splits : Splits ρ t part) :
    eval ρ part.1 / eval ρ part.2 = eval ρ t := by
  obtain ⟨w, nonzero, above, below⟩ := splits
  rw [above.value, below.value, mul_div_cancel_right₀ _ nonzero]

theorem sum_quotients {terms : List Expr} {parts : List (Expr × Expr)}
    (splits : List.Forall₂ (Splits ρ) terms parts) :
    (parts.map fun part => eval ρ part.1 / eval ρ part.2).sum = (terms.map (eval ρ)).sum := by
  induction splits with
  | nil => rfl
  | cons first _ ih => rw [List.map_cons, List.map_cons, List.sum_cons, List.sum_cons, first.quotient, ih]

/-- What stands over the common denominator has the value of the expression. -/
theorem returns_together_value (rational : IsRationalFunction e) (defined : Defined ρ e) :
    Returns context e.together fun parts =>
      ∃ w, w ≠ 0 ∧ HasValue ρ w parts.2 ∧ HasValue ρ (eval ρ e * w) parts.1 := by
  unfold together
  refine Meets.bind _ (returns_expand_value rational defined) fun expanded has => ?_
  obtain ⟨terms, total⟩ := has.spreadTerms
  have split : Returns context ((expanded.spreadTerms.map id).mapM fun t => liftM t.splitFraction)
      (List.Forall₂ (Splits ρ) expanded.spreadTerms) :=
    Meets.mapM_forall₂ fun t member => Returns.lift fun part returned => (terms t member).splitFraction returned
  rw [List.map_id] at split
  refine Meets.bind _ split fun parts splits => ?_
  have each : ∀ part ∈ parts, ∃ t, Splits ρ t part := fun part member =>
    ((exists_of_forall₂ splits).1 part member).imp fun _ holds => holds.2
  have sum : (parts.map fun part => eval ρ part.1 / eval ρ part.2).sum = eval ρ e := by
    rw [← total, sum_quotients splits]
  dsimp only
  split
  · exact Meets.throw trivial
  have factors : ∀ f ∈ parts.flatMap (fun part => part.2.factors), HasValue ρ (eval ρ f) f ∧ eval ρ f ≠ 0 := by
    intro f member
    obtain ⟨part, inside, factor⟩ := List.mem_flatMap.mp member
    obtain ⟨t, w, nonzero, -, below⟩ := each part inside
    exact below.factors nonzero f factor
  have common : ∀ f ∈ (((parts.flatMap fun part => part.2.factors).foldl raiseCommon []).map (·.2)),
      HasValue ρ (eval ρ f) f ∧ eval ρ f ≠ 0 := by
    intro f member
    obtain ⟨entry, inside, rfl⟩ := List.mem_map.mp member
    exact factors entry.2 ((mem_foldl_raiseCommon inside).resolve_right List.not_mem_nil)
  refine Meets.bind (fun D => ∃ w, w ≠ 0 ∧ HasValue ρ w D) (Returns.lift fun D multiplied => ?_) ?_
  · refine ⟨_, ?_, (hasValue_number 1).mulAll (fun f member => (common f member).1) multiplied⟩
    refine mul_ne_zero one_ne_zero (List.prod_ne_zero fun zero => ?_)
    obtain ⟨f, member, value⟩ := List.mem_map.mp zero
    exact (common f member).2 value
  rintro D ⟨w, nonzero, below⟩
  refine Meets.bind (HasValue ρ (eval ρ e * w)) ?_ fun N above => Meets.pure ⟨w, nonzero, below, above⟩
  rw [← sum, ← zero_add (parts.map _).sum]
  refine Meets.foldlM_sum (fun total => HasValue ρ (total * w)) _
    (by rw [zero_mul]; exact hasValue_number 0) ?_
  intro total value has part member
  obtain ⟨t, splits⟩ := each part member
  have quotient := splits.quotient
  obtain ⟨u, proper, top, bottom⟩ := splits
  refine Meets.bind _ (Meets.anyway _) fun _ _ => ?_
  refine Meets.bind _ (Returns.lift fun q divided => below.div bottom proper divided) fun q quotients => ?_
  refine Meets.bind _ (Returns.lift fun s multiplied => top.mul quotients multiplied) fun s scaled => ?_
  refine Meets.bind _ (returns_expand_value scaled.rational scaled.defined) fun x expands =>
    Returns.lift fun r added => ?_
  have value : total * w + eval ρ s = (total + eval ρ part.1 / eval ρ part.2) * w := by
    rw [scaled.value, quotient]
    field_simp
  exact value ▸ has.add expands added

theorem mem_insert_iff {key : String} {f : Expr} {table : List (String × Expr)} (distinct : (table.map (·.1)).Nodup)
    {entry : String × Expr} :
    entry ∈ Table.insert key f table ↔ entry = (key, f) ∨ (entry ∈ table ∧ entry.1 ≠ key) := by
  induction table with
  | nil => simp [Table.insert]
  | cons first rest ih =>
    obtain ⟨k, g⟩ := first
    obtain ⟨fresh, others⟩ := List.nodup_cons.mp distinct
    rw [Table.insert]
    split
    next same =>
      obtain rfl : k = key := by simpa using same
      have other : ∀ e ∈ rest, e.1 ≠ k := fun e inside same => fresh (List.mem_map.mpr ⟨e, inside, same⟩)
      simp only [List.mem_cons]
      constructor
      · rintro (rfl | later)
        · exact .inl rfl
        · exact .inr ⟨.inr later, other _ later⟩
      · rintro (rfl | ⟨rfl | later, apart⟩)
        · exact .inl rfl
        · exact absurd rfl apart
        · exact .inr later
    next different =>
      have apart : k ≠ key := by simpa using different
      rw [List.mem_cons, ih others, List.mem_cons]
      constructor
      · rintro (rfl | rfl | ⟨later, other⟩)
        · exact .inr ⟨.inl rfl, apart⟩
        · exact .inl rfl
        · exact .inr ⟨.inr later, other⟩
      · rintro (rfl | ⟨rfl | later, other⟩)
        · exact .inr (.inl rfl)
        · exact .inl rfl
        · exact .inr (.inr ⟨later, other⟩)

theorem nodup_insert {key : String} {f : Expr} {table : List (String × Expr)} (distinct : (table.map (·.1)).Nodup) :
    ((Table.insert key f table).map (·.1)).Nodup := by
  induction table with
  | nil => simp [Table.insert]
  | cons first rest ih =>
    obtain ⟨k, g⟩ := first
    obtain ⟨fresh, others⟩ := List.nodup_cons.mp distinct
    rw [Table.insert]
    split
    · exact distinct
    next different =>
      refine List.nodup_cons.mpr ⟨fun member => ?_, ih others⟩
      obtain ⟨entry, inside, same⟩ := List.mem_map.mp member
      rcases (mem_insert_iff others).mp inside with rfl | ⟨later, -⟩
      · exact different (by simpa using same.symm)
      · exact fresh (List.mem_map.mpr ⟨entry, later, same⟩)

structure Highest (seen : List Expr) (common : List (String × Expr)) : Prop where
  keyed : ∀ entry ∈ common, entry.1 = entry.2.baseKey
  distinct : (common.map (·.1)).Nodup
  covers : ∀ f ∈ seen, ∃ entry ∈ common, entry.1 = f.baseKey ∧ f.power ≤ entry.2.power

theorem Highest.raise {seen : List Expr} {common : List (String × Expr)} (highest : Highest seen common) (f : Expr) :
    Highest (seen ++ [f]) (raiseCommon common f) := by
  -- An entry takes the place of the one with its key, which was lower.
  have inserted (lower : ∀ entry ∈ common, entry.1 = f.baseKey → entry.2.power ≤ f.power) :
      Highest (seen ++ [f]) (Table.insert f.baseKey f common) := by
    have members {entry : String × Expr} : entry ∈ Table.insert f.baseKey f common ↔
        entry = (f.baseKey, f) ∨ (entry ∈ common ∧ entry.1 ≠ f.baseKey) := mem_insert_iff highest.distinct
    refine ⟨fun entry member => ?_, nodup_insert highest.distinct, fun g member => ?_⟩
    · rcases members.mp member with rfl | ⟨old, -⟩
      · rfl
      · exact highest.keyed entry old
    · rcases List.mem_append.mp member with old | new
      · obtain ⟨entry, inside, same, above⟩ := highest.covers g old
        by_cases here : entry.1 = f.baseKey
        · exact ⟨_, members.mpr (.inl rfl), here.symm.trans same, above.trans (lower entry inside here)⟩
        · exact ⟨entry, members.mpr (.inr ⟨inside, here⟩), same, above⟩
      · obtain rfl := List.mem_singleton.mp new
        exact ⟨_, members.mpr (.inl rfl), rfl, le_rfl⟩
  unfold raiseCommon
  dsimp only
  split
  next current found =>
    obtain ⟨before, after, shape, -⟩ := List.lookup_eq_some_iff.mp found
    have stored : (f.baseKey, current) ∈ common := shape ▸ by simp
    have only : ∀ entry ∈ common, entry.1 = f.baseKey → entry.2 = current := fun entry member same =>
      congrArg Prod.snd (List.inj_on_of_nodup_map highest.distinct member stored same)
    split
    next higher => exact inserted fun entry member same => (only entry member same) ▸ higher.le
    next lower =>
      refine ⟨highest.keyed, highest.distinct, fun g member => ?_⟩
      rcases List.mem_append.mp member with old | new
      · exact highest.covers g old
      · obtain rfl := List.mem_singleton.mp new
        exact ⟨_, stored, rfl, not_lt.mp lower⟩
  next absent =>
    refine inserted fun entry member same => ?_
    have other := List.lookup_eq_none_iff.mp absent entry member
    rw [same] at other
    simp at other

theorem highest_foldl (factors : List Expr) : Highest factors (factors.foldl raiseCommon []) := by
  have loop (seen factors : List Expr) {common : List (String × Expr)} (highest : Highest seen common) :
      Highest (seen ++ factors) (factors.foldl raiseCommon common) := by
    induction factors generalizing seen common with
    | nil => simpa using highest
    | cons f rest ih => simpa using ih (seen ++ [f]) (highest.raise f)
  exact loop [] factors ⟨by simp, by simp, by simp⟩

/-- A factor below the line, turned around. -/
theorem FlatTerm.turned {f : Expr} (flat : FlatTerm f) (plain : PlainFactor .rational f) (below : f.power < 0) :
    PlainFactor .polynomial (f.withPower (f.power * -1)) := by
  have whole : (f.power * -1).den = 1 := (mul_num plain.powers rfl).2
  have turned := plain.withPower whole (by linarith)
  refine ⟨turned.formed, turned.proper, (flat.withPower whole).polynomial turned.proper ?_⟩
  rw [power_withPower plain]
  linarith

/-- A factor above the line. -/
theorem FlatTerm.isPolynomial_of_isBelow {f : Expr} (flat : FlatTerm f) (plain : PlainFactor .rational f)
    (above : f.isBelow = false) : IsPolynomial f := by
  refine ⟨plain.formed, flat.polynomial plain.proper (lt_of_le_of_ne ?_ plain.power_ne_zero.symm)⟩
  rw [← not_lt, ← isBelow_iff plain, above]
  exact Bool.false_ne_true

theorem FlatTerm.splitFraction_product {c : ℚ} {factors : List Expr} (flat : FlatTerm (Expr.product c factors))
    (formed : (Expr.product c factors).WellFormed)
    (returned : Expr.splitFraction (Expr.product c factors) = .ok (n, d)) :
    IsPolynomial n ∧ IsPolynomial d ∧ d.coeff = 1 := by
  have plain : ∀ f ∈ factors, PlainFactor .rational f := fun f member =>
    plainFactor_factors formed flat.rational f ((sortFactors_perm factors).mem_iff.mpr member)
  have flatEach : ∀ f ∈ factors, FlatTerm f := FlatTerm.keptByProducts.each flat
  obtain ⟨numerator, denominator⟩ := Expr.splitFraction_product plain returned
  set turned := (factors.filter (·.isBelow)).map fun f => f.withPower (f.power * -1)
  have low : ∀ g ∈ turned, ∃ f ∈ factors, f.power < 0 ∧ g = f.withPower (f.power * -1) := by
    intro g member
    obtain ⟨f, below, rfl⟩ := List.mem_map.mp member
    obtain ⟨inside, low⟩ := List.mem_filter.mp below
    exact ⟨f, inside, (isBelow_iff (plain f inside)).mp low, rfl⟩
  have plainTurned : ∀ g ∈ turned, PlainFactor .polynomial g := by
    intro g member
    obtain ⟨f, inside, below, rfl⟩ := low g member
    exact (flatEach f inside).turned (plain f inside) below
  have keyedTurned : ∀ g ∈ turned, g.hasBaseKey = true := by
    intro g member
    obtain ⟨f, inside, -, rfl⟩ := low g member
    rw [hasBaseKey_withPower]
    exact formed.2.1.keyed f inside
  have distinctTurned : (turned.map baseKey).Nodup := by
    have keys : (baseKey ∘ fun f : Expr => f.withPower (f.power * -1)) = baseKey :=
      funext fun f => baseKey_withPower f _
    rw [List.map_map, keys]
    exact formed.2.1.distinct.sublist (List.filter_sublist.map _)
  obtain ⟨r, multiplied, poly, unit, -⟩ := mulAll_powers plainTurned keyedTurned distinctTurned
  cases multiplied.symm.trans denominator
  have above : ∀ f ∈ factors.filter (!·.isBelow), IsPolynomial f := by
    intro f member
    obtain ⟨inside, high⟩ := List.mem_filter.mp member
    exact (flatEach f inside).isPolynomial_of_isBelow (plain f inside) (by simpa using high)
  have number : IsPolynomial (Expr.number c) := ⟨trivial, .number c⟩
  exact ⟨(denote_mulAll number above numerator).1, poly, unit⟩

/-- A term is split into polynomials. -/
theorem FlatTerm.splitFraction (flat : FlatTerm t) (formed : t.WellFormed) (returned : t.splitFraction = .ok (n, d)) :
    IsPolynomial n ∧ IsPolynomial d ∧ d.coeff = 1 := by
  cases product : t.isProduct with
  | true =>
    cases t with
    | product c factors => exact flat.splitFraction_product formed returned
    | _ => cases product
  | false =>
    rcases splitFraction_single product returned with ⟨below, rfl, raised⟩ | ⟨high, rfl, rfl⟩
    · obtain ⟨plain, low⟩ := plainFactor_unit_of_isBelow formed flat.rational product below
      cases plain.powRat_neg_one.symm.trans raised
      have turned := FlatTerm.turned (flat.withCoeff 1) plain low
      exact ⟨⟨trivial, .number _⟩, ⟨turned.formed, turned.built⟩, turned.proper.unit⟩
    · refine ⟨?_, ⟨trivial, .number 1⟩, rfl⟩
      cases number : n.isNumber with
      | true =>
        cases n with
        | number c => exact ⟨trivial, .number c⟩
        | _ => cases number
      | false =>
        obtain ⟨formedUnit, proper⟩ := formed.isFactor_unit number product
        have plain : PlainFactor .rational n.unit := ⟨formedUnit, proper, flat.rational.unit⟩
        have poly := FlatTerm.isPolynomial_of_isBelow (flat.withCoeff 1) plain (by cases n <;> exact high)
        have built := poly.built.withCoeff n.coeff
        rw [withCoeff_withCoeff, withCoeff_coeff] at built
        exact ⟨formed, built⟩

/-- The common denominator is a polynomial with all the factors it was made of, none of them at a lower power. -/
theorem mulAll_highest {factors : List Expr} (plain : ∀ f ∈ factors, PlainFactor .polynomial f)
    (keyed : ∀ f ∈ factors, f.hasBaseKey = true) :
    ∃ D, mulAll one ((factors.foldl raiseCommon []).map (·.2)) = .ok D ∧ IsPolynomial D ∧
      (∀ g ∈ D.factors, g.hasBaseKey = true) ∧
      ∀ f ∈ factors, ∃ g ∈ D.factors, g.baseKey = f.baseKey ∧ f.power ≤ g.power := by
  have highest := highest_foldl factors
  have source : ∀ entry ∈ factors.foldl raiseCommon [], entry.2 ∈ factors := fun entry member =>
    (mem_foldl_raiseCommon member).resolve_right List.not_mem_nil
  obtain ⟨D, multiplied, poly, -, perm⟩ := mulAll_table highest.keyed highest.distinct
    (fun entry member => plain entry.2 (source entry member)) fun entry member => keyed entry.2 (source entry member)
  refine ⟨D, multiplied, poly, fun g member => ?_, fun f member => ?_⟩
  · obtain ⟨entry, stored, rfl⟩ := List.mem_map.mp (perm.mem_iff.mp member)
    exact keyed entry.2 (source entry stored)
  · obtain ⟨entry, stored, same, above⟩ := highest.covers f member
    have key : entry.2.baseKey = f.baseKey := (highest.keyed entry stored).symm.trans same
    exact ⟨entry.2, perm.mem_iff.mpr (List.mem_map_of_mem stored), key, above⟩

/-- Where no fractions are nested, polynomials stand above and below the line. -/
theorem returns_together_polynomial (rational : IsRationalFunction e) (unnested : Unnested e) :
    Returns context e.together fun parts => IsPolynomial parts.1 ∧ IsPolynomial parts.2 := by
  unfold together
  refine Meets.bind _ (returns_expand_flat rational unnested) fun expanded flat => ?_
  have fractions : ∀ t ∈ expanded.spreadTerms, Returns context (liftM t.splitFraction) fun part =>
      IsPolynomial part.1 ∧ IsPolynomial part.2 ∧ part.2.coeff = 1 := by
    intro t member
    obtain ⟨formed, flatTerm⟩ := flat.summands t ((spreadTerms_perm expanded).mem_iff.mp member)
    exact Returns.lift fun part returned => flatTerm.splitFraction formed returned
  refine Meets.bind _ (Meets.mapM fractions) fun parts ⟨split, _⟩ => ?_
  have each : ∀ part ∈ parts, IsPolynomial part.1 ∧ IsPolynomial part.2 ∧ part.2.coeff = 1 := by
    intro part member
    obtain ⟨t, -, holds⟩ := split part member
    exact holds
  dsimp only
  split
  · exact Meets.throw trivial
  next legible =>
  have keyed : ∀ f ∈ parts.flatMap fun part => part.2.factors, f.hasBaseKey = true := by
    intro f member
    by_contra keyless
    exact legible (List.any_eq_true.mpr ⟨f, member, by simpa using keyless⟩)
  have plain : ∀ f ∈ parts.flatMap fun part => part.2.factors, PlainFactor .polynomial f := by
    intro f member
    obtain ⟨part, inside, factor⟩ := List.mem_flatMap.mp member
    exact plainFactor_factors (each part inside).2.1.formed (each part inside).2.1.built f factor
  obtain ⟨_, multiplied, polyD, keyedD, matched⟩ := mulAll_highest plain keyed
  refine Meets.bind _ (Meets.of_ok multiplied) ?_
  rintro D rfl
  refine Meets.bind IsPolynomial ?_ fun N poly => Meets.pure ⟨poly, polyD⟩
  refine Meets.foldlM (show IsPolynomial (number 0) from ⟨trivial, .number 0⟩) fun total poly part inside => ?_
  obtain ⟨polyN, polyBelow, unit⟩ := each part inside
  refine Meets.bind _ (Meets.anyway _) fun _ _ => ?_
  refine Meets.bind IsPolynomial (Returns.lift fun q divided => ?_) fun q polyQ => ?_
  · have among {f : Expr} (factor : f ∈ part.2.factors) : f ∈ parts.flatMap fun part => part.2.factors :=
      List.mem_flatMap.mpr ⟨part, inside, factor⟩
    have legible : ∀ f ∈ D.factors ++ part.2.factors, f.hasBaseKey = true := fun f member =>
      (List.mem_append.mp member).elim (keyedD f) fun below => keyed f (among below)
    obtain ⟨s, same, leaves⟩ := div_matched polyD polyBelow unit legible fun f below => matched f (among below)
    cases same.symm.trans divided
    exact leaves.poly
  refine Meets.bind IsPolynomial (Returns.lift fun s multiplied => (denote_mul polyN polyQ multiplied).1) fun s polyS => ?_
  refine Meets.bind IsPolynomial ?_ fun x polyX => Returns.lift fun r added => (denote_add poly polyX added).1
  exact ((meets_expand polyS).accept fun _ _ => trivial).imp fun x represents => represents.expanded.isPolynomial

/-- A rational function is brought over a common denominator: at every point where it is defined, so are
numerator and denominator, the denominator is not zero, and the quotient has the value of the function. If
no fractions are nested, numerator and denominator are polynomials. -/
theorem together_combines (rational : IsRationalFunction e) (context : Context) :
    Returns context e.together fun parts =>
      (∀ ρ, Defined ρ e → Defined ρ parts.1 ∧ Defined ρ parts.2 ∧ eval ρ parts.2 ≠ 0 ∧
        eval ρ e * eval ρ parts.2 = eval ρ parts.1) ∧
      (Unnested e → IsPolynomial parts.1 ∧ IsPolynomial parts.2) := by
  refine Returns.of_run fun looks parts later run => ⟨fun ρ defined => ?_, fun unnested => ?_⟩
  · obtain ⟨w, nonzero, below, above⟩ := (returns_together_value rational defined).returned run
    refine ⟨above.defined, below.defined, ?_, ?_⟩
    · rwa [below.value]
    · rw [below.value, above.value]
  · exact (returns_together_polynomial rational unnested).returned run

/-- The reciprocal of `x+1`, where `x` is two. -/
theorem together_reciprocal_of_succ :
    IsRationalFunction (sum 1 [bare "x", number 1] (-1)) ∧
      Returns ⟨Session.initial.scope, callWithin maxCallDepth⟩ (sum 1 [bare "x", number 1] (-1)).together
        fun parts => eval (fun _ => 2) parts.2 = 3 * eval (fun _ => 2) parts.1 ∧
          IsPolynomial parts.1 ∧ IsPolynomial parts.2 := by
  have terms : ∀ t ∈ [bare "x", number 1], BuiltBy .polynomial t := by
    intro t member
    rcases List.mem_cons.mp member with rfl | later
    · exact .symbol (by decide) ⟨rfl, one_pos⟩
    · obtain rfl := List.mem_singleton.mp later
      exact .number 1
  have rational : IsRationalFunction (sum 1 [bare "x", number 1] (-1)) :=
    ⟨wellFormed_succ_x.withPower rfl (by norm_num),
      .sum (fun t member => (terms t member).rational) (fun _ _ => trivial) rfl⟩
  have unnested : Unnested (sum 1 [bare "x", number 1] (-1)) := by
    refine .sum (fun t member => ?_) fun _ => terms
    rcases List.mem_cons.mp member with rfl | later
    · exact .symbol 1 "x" 1
    · obtain rfl := List.mem_singleton.mp later
      exact .number 1
  have defined : Defined (fun _ => 2) (sum 1 [bare "x", number 1] (-1)) := by
    refine .sum (fun t member => ?_) fun _ => by norm_num [evalSum, eval, bare]
    rcases List.mem_cons.mp member with rfl | later
    · exact .symbol fun negative => absurd negative (by decide)
    · obtain rfl := List.mem_singleton.mp later
      exact .number 1
  have value : eval (fun _ => 2) (sum 1 [bare "x", number 1] (-1)) = 1 / 3 := by
    norm_num [eval, evalSum, bare]
  refine ⟨rational, ?_⟩
  generalize (⟨Session.initial.scope, callWithin maxCallDepth⟩ : Context) = context
  refine (together_combines rational context).imp fun parts combined => ?_
  obtain ⟨-, -, -, quotient⟩ := combined.1 _ defined
  refine ⟨?_, combined.2 unnested⟩
  rw [← quotient, value]
  ring

end ExactAlgebra.Expr
