import ExactAlgebra.Proofs.AdditionOrder
import ExactAlgebra.Proofs.Recomputation
import Mathlib

/-! What is written is computed again. The phrase of an expression, computed from its numbers and names
on, gives an expression that is written alike: products come back with the same factors and sums with the
same weights. -/
namespace ExactAlgebra

namespace Expr
open Reader

variable {scheme : Scheme}

/-- The base of a factor is computed to the base of another that is written alike. -/
structure Recomputes (scheme : Scheme) (f g : Expr) : Prop where
  similar : Similar f g
  plain : PlainFactor scheme g
  base : Computed f.depict.base (g.withPower 1)

/-- A whole power of the base is computed to that power. -/
theorem Recomputes.powered {f g : Expr} (recomputes : Recomputes scheme f g) {p : Rat} (whole : p.den = 1)
    (positive : 0 < p) (short : (powered f.depict.base p).Short) :
    Computed (powered f.depict.base p) (g.withPower p) := by
  unfold Reader.powered at short ⊢
  split at short
  next one =>
    rw [if_pos one, one]
    exact recomputes.base
  next other =>
    rw [if_neg other]
    have count : ((p.num.toNat : Nat) : Rat) = p := by
      have nonneg : 0 ≤ p.num := Rat.num_nonneg.mpr positive.le
      rw [← Int.cast_natCast, Int.toNat_of_nonneg nonneg, Rat.coe_int_num_of_den_eq_one whole]
    have exponent := compute_number short.2
    rw [count] at exponent
    have base := recomputes.plain.withPower scheme.one one_ne_zero
    have work : (g.withPower 1).factors.length + 5 ≤ workLimit (g.withPower 1) (number p) := enough_work_pow
    obtain ⟨n, limit⟩ : ∃ n, workLimit (g.withPower 1) (number p) = n + 3 :=
      ⟨workLimit (g.withPower 1) (number p) - 3, by omega⟩
    refine (compute_binary recomputes.base exponent).trans ?_
    change pow (g.withPower 1) (number p) = _
    rw [pow, limit, powWithin, base.powRatWithin_eq whole positive.ne' other, withPower_withPower,
      power_withPower recomputes.plain, one_mul]

def fraction (e : Expr) : Fraction := .merge (e.factors.map fun f => .power f.depict.base f.power)

/-- Factors in a row are computed to factors that are written alike, each on its side of the line. -/
theorem merge_recomputes {fs gs : List Expr} (recomputes : List.Forall₂ (Recomputes scheme) fs gs)
    (closed : ∀ q, scheme.powers q → scheme.powers (q * -1))
    (short : ∀ f ∈ fs, (∀ a ∈ (Fraction.power f.depict.base f.power).above, a.Short) ∧
      ∀ a ∈ (Fraction.power f.depict.base f.power).below, a.Short) :
    ∃ above below, List.Forall₂ Computed
        (Fraction.merge (fs.map fun f => .power f.depict.base f.power)).above above ∧
      List.Forall₂ Computed
        (Fraction.merge (fs.map fun f => .power f.depict.base f.power)).below below ∧
      (∀ g ∈ below, PlainFactor scheme g) ∧ (above ++ below.map inverted).Perm gs := by
  induction recomputes with
  | nil => exact ⟨[], [], .nil, .nil, by simp, .refl _⟩
  | @cons f g fs gs first _ ih =>
    obtain ⟨above, below, computedAbove, computedBelow, plain, order⟩ :=
      ih fun h later => short h (List.mem_cons_of_mem _ later)
    obtain ⟨shortAbove, shortBelow⟩ := short f List.mem_cons_self
    have plainG := first.plain
    have power : f.power = g.power := first.similar.power
    have whole : f.power.den = 1 := power ▸ scheme.whole _ plainG.powers
    unfold Fraction.power at shortAbove shortBelow
    by_cases negative : f.power < 0
    · rw [if_pos negative] at shortBelow
      have opposite : PlainFactor scheme (g.withPower (-f.power)) := by
        rw [power, ← mul_neg_one]
        exact plainG.withPower (closed _ plainG.powers) (mul_ne_zero plainG.power_ne_zero (by decide))
      have computed := first.powered (by rw [Rat.neg_den, whole]) (neg_pos.mpr negative)
        (shortBelow _ List.mem_cons_self)
      have back : (g.withPower (-f.power)).inverted = g := by
        rw [inverted, withPower_withPower, power_withPower plainG, neg_mul_neg, mul_one, power,
          withPower_power]
      refine ⟨above, g.withPower (-f.power) :: below, ?_, ?_, ?_, ?_⟩
      · simpa [Fraction.merge, Fraction.power, negative] using computedAbove
      · simpa [Fraction.merge, Fraction.power, negative] using ⟨computed, computedBelow⟩
      · simpa using ⟨opposite, plain⟩
      · rw [List.map_cons, back]
        exact List.perm_middle.trans (order.cons g)
    · rw [if_neg negative] at shortAbove
      have positive : 0 < f.power := lt_of_le_of_ne (not_lt.mp negative)
        (power ▸ plainG.power_ne_zero.symm)
      have computed := first.powered whole positive (shortAbove _ List.mem_cons_self)
      rw [power, withPower_power, ← power] at computed
      refine ⟨g :: above, below, ?_, ?_, plain, order.cons g⟩
      · simpa [Fraction.merge, Fraction.power, negative] using ⟨computed, computedAbove⟩
      · simpa [Fraction.merge, Fraction.power, negative] using computedBelow

def phrase (e : Expr) (c : Rat) : Phrase := total (e.depict.terms.map fun item => (item.1 * c, item.2))

/-- The phrase is computed to an expression that is written like `e`. -/
def Restores (scheme : Scheme) (a : Phrase) (e : Expr) : Prop :=
  ∃ r, Computed a r ∧ Similar e r ∧ r.WellFormed ∧ BuiltBy scheme r

variable {e : Expr}

theorem depict_flat (built : BuiltBy scheme e) (flat : e.isPlainSum = false) :
    e.depict.terms = [(1, e.fraction)] := by
  cases built with
  | number => rfl
  | symbol => simp [depict, fraction, factors, Fraction.merge, power, unit, withCoeff]
  | @sum c terms p =>
    have other : p ≠ 1 := by simpa [isPlainSum] using flat
    simp [depict_sum, other, fraction, factors, Fraction.merge, power, unit, withCoeff]
  | product => rw [depict_product, fraction, factors]

theorem phrase_flat (built : BuiltBy scheme e) (flat : e.isPlainSum = false) (c : Rat) :
    e.phrase c = e.fraction.phrase c := by
  rw [phrase, depict_flat built flat, List.map_singleton, total, List.foldl_nil, one_mul]

/-- A base that is computed to one written alike gives a factor that is written alike. -/
theorem Restores.recomputes {f : Expr} (plain : PlainFactor scheme f)
    (restores : Restores scheme f.depict.base f.stem) : ∃ g, Recomputes scheme f g := by
  obtain ⟨b, computed, similar, formed, built⟩ := restores
  have shape : f.stem.withPower f.power = f ∧ f.stem.coeff = 1 ∧ f.stem.power = 1 ∧
      f.stem.isNumber = false ∧ f.stem.isProduct = false := by
    obtain ⟨name, q, rfl, _⟩ | ⟨terms, q, rfl, _⟩ := plain.cases
    · exact ⟨rfl, rfl, rfl, rfl, rfl⟩
    · exact ⟨rfl, rfl, rfl, rfl, rfl⟩
  obtain ⟨whole, coeff, power, number, product⟩ := shape
  have plainB : PlainFactor scheme b :=
    ⟨formed, ⟨similar.coeff ▸ coeff, similar.isNumber ▸ number, similar.isProduct ▸ product⟩, built⟩
  have self : b.withPower 1 = b := by
    rw [similar.power] at power
    have same := withPower_power b
    rwa [power] at same
  refine ⟨b.withPower f.power, ?_, plainB.withPower plain.powers plain.power_ne_zero, ?_⟩
  · have raised := similar.withPower f.power
    rwa [whole] at raised
  · rw [withPower_withPower, self]
    exact computed

/-- The factors of what can be written out have keys of their own. -/
theorem separate_factors (formed : e.WellFormed) (built : BuiltBy scheme e) (flat : e.isPlainSum = false)
    (legible : e.face.isLegible = true) : Separate scheme e.factors := by
  refine ⟨plainFactor_factors formed built, ?_, ?_⟩
  · intro f member
    cases built with
    | number => cases member
    | symbol =>
      obtain rfl := List.mem_singleton.mp member
      rfl
    | @sum c terms p =>
      obtain rfl := List.mem_singleton.mp member
      have other : p ≠ 1 := by simpa [isPlainSum] using flat
      have both : (sum c terms p).face.isLegible =
          ((sum c terms p).face.hasKey && Rational.isWritable p) := by
        rw [face]
        simp only [other, if_false]
        rfl
      rw [both, Bool.and_eq_true] at legible
      exact legible.1
    | product => exact formed.2.1.keyed f ((sortFactors_perm _).mem_iff.mp member)
  · cases built with
    | number => exact List.nodup_nil
    | symbol | sum => exact List.nodup_singleton _
    | product => exact ((sortFactors_perm _).map baseKey).nodup_iff.mpr formed.2.1.distinct

theorem Recomputes.separate {fs gs : List Expr} (recomputes : List.Forall₂ (Recomputes scheme) fs gs)
    (separate : Separate scheme fs) : Separate scheme gs := by
  have keys : gs.map baseKey = fs.map baseKey ∧ gs.map hasBaseKey = fs.map hasBaseKey ∧
      ∀ g ∈ gs, PlainFactor scheme g := by
    clear separate
    induction recomputes with
    | nil => exact ⟨rfl, rfl, by simp⟩
    | @cons f g fs gs first _ ih =>
      obtain ⟨keys, keyed, plain⟩ := ih
      simp only [List.map_cons, keys, keyed, List.mem_cons, forall_eq_or_imp, baseKey, hasBaseKey,
        first.similar.face]
      exact ⟨trivial, trivial, first.plain, plain⟩
  obtain ⟨keys, keyed, plain⟩ := keys
  refine ⟨plain, fun g member => ?_, keys ▸ separate.distinct⟩
  have found : g.hasBaseKey ∈ fs.map hasBaseKey := keyed ▸ List.mem_map_of_mem member
  obtain ⟨f, inside, same⟩ := List.mem_map.mp found
  rw [← same]
  exact separate.keyed f inside

/-- An expression is written like the product of factors that are written like its own. -/
theorem similar_ofFactors (formed : e.WellFormed) (built : BuiltBy scheme e) {after : List Expr}
    (similars : Similars e.factors after) {c : Rat} (nonzero : c ≠ 0) :
    Similar (e.withCoeff c) (ofFactors after c) := by
  have single (f : Expr) (only : e.factors = [f]) (same : f.withCoeff c = e.withCoeff c) :
      Similar (e.withCoeff c) (ofFactors after c) := by
    rw [only] at similars
    obtain ⟨g, rfl⟩ := List.length_eq_one_iff.mp similars.length_eq.symm
    rw [ofFactors, if_neg nonzero, ← same]
    exact similars.single.withCoeff c
  cases built with
  | number =>
    obtain rfl := List.length_eq_zero_iff.mp similars.length_eq.symm
    rw [ofFactors_nil nonzero]
    exact .refl _
  | symbol => exact single _ rfl rfl
  | sum => exact single _ rfl rfl
  | @product d factors =>
    have stored : Similars factors after := .perm_left (sortFactors_perm factors).symm similars
    rw [ofFactors_several (stored.length_eq ▸ formed.2.1.several) nonzero]
    exact stored.product formed.2.1.distinct c

theorem compute_zero : Computed ((Fraction.mk [] []).phrase 0) zero := by
  have shape : (Fraction.mk [] []).phrase 0 = .number 0 := by
    simp [Fraction.phrase, Fraction.quotient, Fraction.signed, Fraction.numerator, Fraction.denominator,
      Rational.abs, chain]
  have readable : (toString 0).length ≤ Rational.maxLiteralDigits := by decide
  rw [Computed, shape, compute_number readable]
  rfl

/-- What is no plain sum is computed again from the bases of its factors. -/
theorem restores_flat (closed : ∀ q, scheme.powers q → scheme.powers (q * -1)) (formed : e.WellFormed)
    (built : BuiltBy scheme e) (flat : e.isPlainSum = false) (legible : e.face.isLegible = true)
    (bases : ∀ f ∈ e.factors, f.depict.base.Short → Restores scheme f.depict.base f.stem) {c : Rat}
    (proper : e.isNumber = true ∨ c ≠ 0) (short : (e.phrase c).Short) :
    Restores scheme (e.phrase c) (e.withCoeff c) := by
  rw [phrase_flat built flat] at short ⊢
  by_cases zero : c = 0
  · cases e with
    | number k =>
      rw [zero]
      exact ⟨_, compute_zero, .refl _, trivial, .number 0⟩
    | _ => exact absurd zero (proper.resolve_left (by simp [isNumber]))
  · obtain ⟨shortAbove, shortBelow⟩ := Fraction.all_phrase.mp short
    have sides : ∀ f ∈ e.factors, (∀ a ∈ (Fraction.power f.depict.base f.power).above, a.Short) ∧
        ∀ a ∈ (Fraction.power f.depict.base f.power).below, a.Short := by
      intro f member
      refine ⟨fun a inside => shortAbove a ?_, fun a inside => shortBelow a ?_⟩
      · exact List.mem_append_right _ (List.mem_flatMap.mpr ⟨_, List.mem_map_of_mem member, inside⟩)
      · have below : a ∈ e.fraction.below :=
          List.mem_flatMap.mpr ⟨_, List.mem_map_of_mem member, inside⟩
        unfold Fraction.denominator
        split
        · exact List.mem_cons_of_mem _ below
        · exact below
    have separate := separate_factors formed built flat legible
    have each : ∀ f ∈ e.factors, ∃ g, Recomputes scheme f g := by
      intro f member
      have base : f.depict.base.Short := by
        have powered (p : Rat) (short : (powered f.depict.base p).Short) : f.depict.base.Short := by
          unfold Reader.powered at short
          split at short
          · exact short
          · exact short.1
        obtain ⟨above, below⟩ := sides f member
        unfold Fraction.power at above below
        split at above
        next negative =>
          rw [if_pos negative] at below
          exact powered _ (below _ List.mem_cons_self)
        next => exact powered _ (above _ List.mem_cons_self)
      exact (bases f member base).recomputes (separate.plain f member)
    choose! g recomputed using each
    have recomputes : List.Forall₂ (Recomputes scheme) e.factors (e.factors.map g) :=
      List.forall₂_map_right_iff.mpr (List.forall₂_same.mpr recomputed)
    obtain ⟨above, below, computedAbove, computedBelow, plain, order⟩ :=
      merge_recomputes recomputes closed sides
    have again := Recomputes.separate recomputes separate
    obtain ⟨after, computed, perm⟩ := Fraction.gives_phrase closed computedAbove computedBelow
      (again.perm order.symm) plain zero short
    have similars : Similars e.factors after :=
      ⟨_, recomputes.imp fun _ _ both => both.similar, (perm.trans order).symm⟩
    have separateAfter := again.perm (perm.trans order).symm
    exact ⟨_, computed, similar_ofFactors formed built similars zero, separateAfter.wellFormed c,
      separateAfter.built c⟩

/-- A later item of a sum: a term that is added, or whose opposite is taken away. -/
def Adds (item : Rat × Fraction) (r : Expr) : Prop :=
  if item.1 < 0 then ∃ opposite, Computed (item.2.phrase (-item.1)) opposite ∧ r = opposite.neg
  else Computed (item.2.phrase item.1) r

/-- Terms in a row are added up from the left. -/
theorem compute_total {c : Rat} {first : Fraction} {rest : List (Rat × Fraction)} {r : Expr}
    {rs : List Expr} (leads : Computed (first.phrase c) r) (adds : List.Forall₂ Adds rest rs) :
    ∃ t : Bracketing, (total ((c, first) :: rest)).compute = t.total ∧ t.leaves = r :: rs := by
  have general {sum : Phrase} {s : Bracketing} (start : sum.compute = s.total) :
      ∃ t : Bracketing, (rest.foldl (fun sum item =>
        if item.1 < 0 then Phrase.binary .minus sum (item.2.phrase (-item.1))
        else .binary .plus sum (item.2.phrase item.1)) sum).compute = t.total ∧ t.leaves = s.leaves ++ rs := by
    induction adds generalizing sum s with
    | nil => exact ⟨s, start, by simp⟩
    | @cons item r rest rs added _ ih =>
      obtain ⟨d, term⟩ := item
      have next : (if d < 0 then Phrase.binary .minus sum (term.phrase (-d))
          else .binary .plus sum (term.phrase d)).compute = (s.node (.leaf r)).total := by
        unfold Adds at added
        dsimp only at added
        rw [Bracketing.total, ← start]
        split at added
        next negative =>
          obtain ⟨opposite, computed, rfl⟩ := added
          rw [if_pos negative, Phrase.compute, computed]
          rfl
        next other =>
          rw [if_neg other, Phrase.compute, added]
          rfl
      obtain ⟨t, total, leaves⟩ := ih next
      exact ⟨t, total, by rw [leaves, Bracketing.leaves, Bracketing.leaves, List.append_assoc,
        List.singleton_append]⟩
  exact @general (first.phrase c) (.leaf r) leads

end Expr

/-- Whole powers, and terms of sums that are not zero. -/
def Scheme.reduced : Scheme := { Scheme.rational with shares c := c ≠ 0 }

theorem Scheme.reduced_admitsSums : Scheme.reduced.AdmitsSums := fun _ nonzero => nonzero

namespace Expr
open Reader

theorem reduced_closed {p : Rat} (whole : p.den = 1) (q : Rat) (power : Scheme.reduced.powers q) :
    Scheme.reduced.powers (q * p) := (mul_num power whole).2

theorem BuiltBy.shares {scheme : Scheme} {c : Rat} {terms : List Expr} {p : Rat}
    (built : BuiltBy scheme (Expr.sum c terms p)) : ∀ t ∈ terms, scheme.shares t.coeff := by
  cases built with
  | sum _ shares => exact shares

variable {e : Expr} {c : Rat} {terms : List Expr}

theorem isReduced_plain (formed : (sum c terms 1).WellFormed) (built : BuiltBy .reduced (sum c terms 1)) :
    IsReduced (sum c terms 1) := by
  refine ⟨formed, fun _ t member => ?_⟩
  rw [summands_plain] at member
  obtain ⟨u, inside, rfl⟩ := List.mem_map.mp member
  rw [(allWellFormed_iff.mp formed.2.2.2 u inside).coeff_withCoeff]
  exact mul_ne_zero (built.shares u inside) formed.1

theorem isKeyed_plain (formed : (sum c terms 1).WellFormed) : IsKeyed (sum c terms 1) := by
  intro t member
  rw [summands_plain] at member
  obtain ⟨u, inside, rfl⟩ := List.mem_map.mp member
  rw [hasTermKey_withCoeff]
  exact formed.2.2.1.keyed u inside

theorem weights_plain (formed : (sum c terms 1).WellFormed) :
    weights (sum c terms 1) = (terms.map fun t => Finsupp.single t.termKey (t.coeff * c)).sum := by
  rw [weights, summands_plain, List.map_map]
  refine congrArg List.sum (List.map_congr_left fun t member => ?_)
  rw [Function.comp_apply, termKey_withCoeff, (allWellFormed_iff.mp formed.2.2.2 t member).coeff_withCoeff]

theorem Similar.termKey {a b : Expr} (similar : Similar a b) : a.termKey = b.termKey := by
  rw [← termRank_key, ← termRank_key, similar.termRank]

/-- What is written like a term under a nonzero coefficient has that weight alone. -/
theorem reduced_of_similar {t r : Expr} {d : Rat} (formed : t.WellFormed) (flat : t.isPlainSum = false)
    (keyed : t.hasTermKey = true) (nonzero : d ≠ 0) (similar : Similar (t.withCoeff d) r)
    (formedR : r.WellFormed) :
    IsReduced r ∧ IsKeyed r ∧ weights r = Finsupp.single t.termKey d := by
  have coeff : r.coeff = d := similar.coeff ▸ formed.coeff_withCoeff d
  have single : r.summands = [r] := summands_flat (by rw [← similar.isPlainSum, isPlainSum_withCoeff, flat])
  refine ⟨isReduced_of_summands formedR single (coeff ▸ nonzero), ?_, ?_⟩
  · intro u member
    rw [single] at member
    obtain rfl := List.mem_singleton.mp member
    rw [hasTermKey, ← similar.termRank, ← hasTermKey, hasTermKey_withCoeff, keyed]
  · rw [weights, single, List.map_singleton, List.sum_singleton, coeff, ← similar.termKey,
      termKey_withCoeff]

/-- The phrase of a plain sum has one item for each of its terms. -/
theorem phrase_plain {scheme : Scheme} (formed : (sum c terms 1).WellFormed)
    (built : BuiltBy scheme (sum c terms 1)) (d : Rat) :
    (sum c terms 1).phrase d = total ((sortTerms terms).map fun t => (t.coeff * d, t.fraction)) := by
  rw [phrase, depict_sum, if_pos rfl, spreadItems, List.map_flatMap, List.map_eq_flatMap]
  refine congrArg total (List.flatMap_congr fun t member => ?_)
  have inside := (sortTerms_perm terms).mem_iff.mp member
  simp [depict_flat (built.terms t inside) (formed.2.2.1.flat t inside)]

/-- What a term contributes when the sum is computed again. -/
structure Contributes (c : Rat) (t r : Expr) : Prop where
  similar : Similar (t.withCoeff (t.coeff * c)) r
  formed : r.WellFormed
  built : BuiltBy .reduced r

/-- Contributions have the weights of the terms. -/
theorem Contributes.weights {ts rs : List Expr} (contributes : List.Forall₂ (Contributes c) ts rs)
    (terms : ∀ t ∈ ts, t.WellFormed ∧ t.isPlainSum = false ∧ t.hasTermKey = true)
    (nonzero : ∀ t ∈ ts, t.coeff * c ≠ 0) :
    (∀ r ∈ rs, IsReduced r ∧ IsKeyed r ∧ BuiltBy .reduced r) ∧
      (rs.map Expr.weights).sum = (ts.map fun t => Finsupp.single t.termKey (t.coeff * c)).sum := by
  induction contributes with
  | nil => simp
  | @cons t r ts rs first _ ih =>
    obtain ⟨each, sum⟩ := ih (fun u later => terms u (List.mem_cons_of_mem _ later))
      fun u later => nonzero u (List.mem_cons_of_mem _ later)
    obtain ⟨formed, flat, keyed⟩ := terms t List.mem_cons_self
    obtain ⟨reduced, keyedR, weight⟩ := reduced_of_similar formed flat keyed
      (nonzero t List.mem_cons_self) first.similar first.formed
    simp only [List.map_cons, List.sum_cons, weight, sum, List.mem_cons, forall_eq_or_imp]
    exact ⟨⟨⟨reduced, keyedR, first.built⟩, each⟩, trivial⟩

/-- A term is computed again where it is added as where its opposite is taken away. -/
theorem exists_adds {t : Expr} {d : Rat} (formed : t.WellFormed)
    (restores : ∀ k, k ≠ 0 → (t.fraction.phrase k).Short →
      Restores .reduced (t.fraction.phrase k) (t.withCoeff k))
    (nonzero : d ≠ 0) (short : (t.fraction.phrase d).Short) :
    ∃ r, Adds (d, t.fraction) r ∧ Similar (t.withCoeff d) r ∧ r.WellFormed ∧ BuiltBy .reduced r := by
  unfold Adds
  dsimp only
  split
  · obtain ⟨r, computed, similar, formedR, built⟩ := restores (-d) (neg_ne_zero.mpr nonzero)
      (Fraction.all_phrase_neg.mpr short)
    have coeff : -r.coeff = d := by
      rw [← similar.coeff, formed.coeff_withCoeff, neg_neg]
    refine ⟨r.neg, ⟨r, computed, rfl⟩, ?_, formedR.neg, built.neg⟩
    rw [neg, coeff, ← withCoeff_withCoeff t (-d) d]
    exact similar.withCoeff d
  · exact restores d nonzero short

/-- A plain sum is computed again from its terms. -/
theorem restores_plain (formed : (sum c terms 1).WellFormed) (built : BuiltBy .reduced (sum c terms 1))
    (each : ∀ t ∈ terms, ∀ d, d ≠ 0 → (t.phrase d).Short → Restores .reduced (t.phrase d) (t.withCoeff d))
    (short : ((sum c terms 1).phrase c).Short) :
    Restores .reduced ((sum c terms 1).phrase c) (sum c terms 1) := by
  obtain ⟨scaled, _, normal, all⟩ := id formed
  have perm := sortTerms_perm terms
  have formedT := allWellFormed_iff.mp all
  have nonzero : ∀ t ∈ terms, t.coeff * c ≠ 0 := fun t member => mul_ne_zero (built.shares t member) scaled
  have restores : ∀ t ∈ terms, ∀ k, k ≠ 0 → (t.fraction.phrase k).Short →
      Restores .reduced (t.fraction.phrase k) (t.withCoeff k) := by
    intro t member k
    rw [← phrase_flat (built.terms t member) (normal.flat t member)]
    exact each t member k
  have items := phrase_plain formed built c
  rw [items] at short ⊢
  obtain ⟨first, rest, shape⟩ : ∃ first rest, sortTerms terms = first :: rest := by
    have several := normal.several
    rw [← perm.length_eq] at several
    exact List.exists_cons_of_length_pos (by omega)
  rw [shape, List.map_cons] at short ⊢
  have shorts : ∀ t ∈ first :: rest, (t.fraction.phrase (t.coeff * c)).Short := by
    intro t member
    exact (all_total (List.cons_ne_nil _ _)).mp short (t.coeff * c, t.fraction)
      (List.mem_map_of_mem (f := fun t => (t.coeff * c, t.fraction)) member)
  have inside : ∀ t ∈ first :: rest, t ∈ terms := fun t member => perm.mem_iff.mp (shape ▸ member)
  obtain ⟨lead, computed, similar, formedLead, builtLead⟩ :=
    restores first (inside first List.mem_cons_self) _ (nonzero first (inside first List.mem_cons_self))
      (shorts first List.mem_cons_self)
  have later : ∀ t ∈ rest, ∃ r, Adds (t.coeff * c, t.fraction) r ∧ Contributes c t r := by
    intro t member
    have there := inside t (List.mem_cons_of_mem _ member)
    obtain ⟨r, adds, similar, formedR, builtR⟩ := exists_adds (formedT t there) (restores t there)
      (nonzero t there) (shorts t (List.mem_cons_of_mem _ member))
    exact ⟨r, adds, similar, formedR, builtR⟩
  choose! g added using later
  have adds : List.Forall₂ Adds (rest.map fun t => (t.coeff * c, t.fraction)) (rest.map g) :=
    List.forall₂_map_left_iff.mpr (List.forall₂_map_right_iff.mpr
      (List.forall₂_same.mpr fun t member => (added t member).1))
  have contributes : List.Forall₂ (Contributes c) (first :: rest) (lead :: rest.map g) :=
    .cons ⟨similar, formedLead, builtLead⟩ (List.forall₂_map_right_iff.mpr
      (List.forall₂_same.mpr fun t member => (added t member).2))
  obtain ⟨leaves, weights⟩ := Contributes.weights contributes
    (fun t member => ⟨formedT t (inside t member), normal.flat t (inside t member),
      normal.keyed t (inside t member)⟩) fun t member => nonzero t (inside t member)
  obtain ⟨t, total, same⟩ := compute_total computed adds
  rw [← same] at leaves weights
  have reduced : ∀ e ∈ t.leaves, IsReduced e := fun e member => (leaves e member).1
  obtain ⟨r, returned, keyed⟩ := Bracketing.total_keyed reduced fun e member => (leaves e member).2.1
  obtain ⟨reducedR, weightsR⟩ := Bracketing.weights_total reduced returned
  refine ⟨r, total.trans returned, ?_, reducedR.formed, Bracketing.total_kept
    (BuiltBy.keptByAddition Scheme.reduced_admitsSums) reduced (fun e member => (leaves e member).2.2)
    returned⟩
  refine similar_of_weights (isReduced_plain formed built) reducedR (isKeyed_plain formed) keyed ?_
  rw [weightsR, weights, weights_plain formed, ← shape, (perm.map _).sum_eq]

/-- Everything that is written is computed again, and so is the base of every power. -/
theorem BuiltBy.restored (built : BuiltBy .reduced e) (formed : e.WellFormed) :
    (e.face.isLegible = true → ∀ c, e.isNumber = true ∨ c ≠ 0 → (e.phrase c).Short →
      Restores .reduced (e.phrase c) (e.withCoeff c)) ∧
    (e.isNumber = false → e.isProduct = false → e.depict.base.Short →
      Restores .reduced e.depict.base e.stem) := by
  have closed := reduced_closed (p := -1) rfl
  induction built with
  | number k =>
    refine ⟨fun legible c proper short => ?_, fun number => by simp [isNumber] at number⟩
    exact restores_flat closed formed (.number k) rfl legible (by simp [factors]) proper short
  | @symbol k name p named power =>
    have base : Restores .reduced (.name name) (Expr.symbol k name p).stem :=
      ⟨bare name, rfl, .refl _, formed.stem (isVariableName_eq named).1, .symbol named rfl⟩
    refine ⟨fun legible c proper short => ?_, fun _ _ _ => base⟩
    refine restores_flat closed formed (.symbol named power) rfl legible (fun f member _ => ?_) proper short
    obtain rfl := List.mem_singleton.mp member
    exact base
  | @sum k terms p each shares power ih =>
    have all := allWellFormed_iff.mp formed.2.2.2
    have plain {c : Rat} (nonzero : c ≠ 0) (short : ((Expr.sum c terms 1).phrase c).Short) :
        Restores .reduced ((Expr.sum c terms 1).phrase c) (Expr.sum c terms 1) := by
      refine restores_plain ⟨nonzero, one_ne_zero, formed.2.2⟩ (.sum each shares rfl) (fun t member d other => ?_)
        short
      have legible := isLegible_of_hasTermKey (formed.2.2.1.keyed t member)
      exact (ih t member (all t member)).1 legible d (.inr other)
    have inside : (Expr.sum 1 terms 1).phrase 1 = total (spreadItems terms) := by
      simp [phrase, depict_sum]
    have base (short : (Phrase.group (total (spreadItems terms))).Short) :
        Restores .reduced (.group (total (spreadItems terms))) (Expr.sum 1 terms 1) := by
      have restored := plain one_ne_zero (inside ▸ short)
      rwa [inside] at restored
    rw [depict_sum]
    refine ⟨fun legible c proper short => ?_, fun _ _ => base⟩
    have nonzero : c ≠ 0 := proper.resolve_left (by simp [isNumber])
    by_cases one : p = 1
    · subst one
      exact plain nonzero short
    · refine restores_flat closed formed (.sum each shares power) (by simp [isPlainSum, one]) legible
        (fun f member => ?_) proper short
      obtain rfl := List.mem_singleton.mp member
      simp only [Expr.unit, Expr.withCoeff, depict_sum]
      exact base
  | @product k factors each ih =>
    refine ⟨fun legible c proper short => ?_, fun _ product => by simp [isProduct] at product⟩
    refine restores_flat closed formed (.product each) rfl legible (fun f member => ?_) proper short
    have inside := (sortFactors_perm factors).mem_iff.mp member
    have factor := formed.2.1.proper f inside
    exact (ih f inside (allWellFormed_iff.mp formed.2.2 f inside)).2 factor.notNumber factor.notProduct

end Expr

end ExactAlgebra
