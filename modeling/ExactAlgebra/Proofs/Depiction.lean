import ExactAlgebra.Proofs.Evaluation
import ExactAlgebra.Proofs.Fraction
import ExactAlgebra.Proofs.Ranking
import Mathlib

/-! Expressions as phrases. The canonical text of an expression is the text of a phrase with the same
value; since written arithmetic is unambiguous, equal keys mean equal values. -/
namespace ExactAlgebra

namespace Reader.Fraction

/-- A power of a base, above the line unless the power is negative. -/
def power (base : Phrase) (p : Rat) : Fraction :=
  if p < 0 then ⟨[], [powered base (-p)]⟩ else ⟨[powered base p], []⟩

/-- Fractions multiplied, in order on either side of the line. -/
def merge (fractions : List Fraction) : Fraction :=
  ⟨fractions.flatMap above, fractions.flatMap below⟩

end Reader.Fraction

namespace Expr
open Reader

/-- What the phrase of an expression contributes to the phrases around it: its terms with the
coefficient left open, and itself as the base of a power. -/
structure Depiction where
  terms : List (Rat × Fraction)
  base : Phrase

mutual
def depict : Expr → Depiction
  | number _ => ⟨[(1, ⟨[], []⟩)], .number 1⟩
  | symbol _ name p => ⟨[(1, .power (.name name) p)], .name name⟩
  | sum _ terms p =>
    let ranked := terms.zipWith (fun t d => (t.termRank t.face, (t.coeff, d.terms)))
      (depictAll terms)
    let inside := (sortByRank TermRank.le ranked).flatMap fun (share, items) =>
      items.map fun (s, fraction) => (share * s, fraction)
    let base := Phrase.group (total inside)
    ⟨if p = 1 then inside else [(1, .power base p)], base⟩
  | product _ factors =>
    let ranked := factors.zipWith
      (fun f d => (f.factorRank f.face, Fraction.power d.base f.power)) (depictAll factors)
    ⟨[(1, .merge (sortByRank FactorRank.le ranked))], .number 1⟩
  | call .. | exponential .. | foreign _ => ⟨[], .number 0⟩

def depictAll : List Expr → List Depiction
  | [] => []
  | e :: es => depict e :: depictAll es
end

/-- The terms of a sum with their shares of the coefficient, in the order in which they are
written. -/
def spreadItems (terms : List Expr) : List (Rat × Fraction) :=
  (sortTerms terms).flatMap fun t => t.depict.terms.map fun item => (t.coeff * item.1, item.2)

def spreadLayout (terms : List Expr) : Layout :=
  (sortTerms terms).flatMap fun t => t.face.layout.map fun item => (t.coeff * item.1, item.2)

theorem depictAll_eq (es : List Expr) : depictAll es = es.map depict := by
  induction es with
  | nil => rfl
  | cons e es ih => simp [depictAll, ih]

theorem faces_eq (es : List Expr) : faces es = es.map face := by
  induction es with
  | nil => rfl
  | cons e es ih => simp [faces, ih]

/-- Ranked values of terms are sorted as the terms are. -/
theorem sortByRank_terms {α : Type} (terms : List Expr) (f : Expr → α) :
    sortByRank TermRank.le (terms.map fun t => (t.termRank t.face, f t)) =
      (sortTerms terms).map f := by
  have pairs : (terms.map fun t => (t.termRank t.face, f t)) =
      (terms.map fun t => (t.termRank t.face, t)).map fun item => (item.1, f item.2) := by
    rw [List.map_map]
    rfl
  rw [pairs, sortByRank_map, sortTerms]

theorem sortByRank_factors {α : Type} (factors : List Expr) (g : Expr → α) :
    sortByRank FactorRank.le (factors.map fun f => (f.factorRank f.face, g f)) =
      (sortFactors factors).map g := by
  have pairs : (factors.map fun f => (f.factorRank f.face, g f)) =
      (factors.map fun f => (f.factorRank f.face, f)).map fun item => (item.1, g item.2) := by
    rw [List.map_map]
    rfl
  rw [pairs, sortByRank_map, sortFactors]

theorem depict_sum (c : Rat) (terms : List Expr) (p : Rat) :
    depict (sum c terms p) =
      ⟨if p = 1 then spreadItems terms else [(1, .power (.group (total (spreadItems terms))) p)],
        .group (total (spreadItems terms))⟩ := by
  have inside : ((sortByRank TermRank.le (terms.zipWith
      (fun t d => (t.termRank t.face, (t.coeff, d.terms))) (depictAll terms))).flatMap
        fun (share, items) => items.map fun (s, fraction) => (share * s, fraction)) =
      spreadItems terms := by
    rw [depictAll_eq, List.zipWith_map_right, List.zipWith_self,
      sortByRank_terms terms fun t => (t.coeff, t.depict.terms), List.flatMap_map]
    rfl
  rw [depict]
  simp only [inside]

theorem depict_product (c : Rat) (factors : List Expr) :
    depict (product c factors) =
      ⟨[(1, .merge ((sortFactors factors).map fun f => .power f.depict.base f.power))],
        .number 1⟩ := by
  rw [depict, depictAll_eq, List.zipWith_map_right, List.zipWith_self,
    sortByRank_factors factors fun f => Fraction.power f.depict.base f.power]

theorem spreadLayout_eq (terms : List Expr) :
    ((sortByRank TermRank.le (terms.zipWith
      (fun t f => (t.termRank f, (t.coeff, f.layout))) (faces terms))).flatMap
        fun (share, layout) => layout.map fun (s, entry) => (share * s, entry)) =
      spreadLayout terms := by
  rw [faces_eq, List.zipWith_map_right, List.zipWith_self,
    sortByRank_terms terms fun t => (t.coeff, t.face.layout), List.flatMap_map]
  rfl

theorem inner_sum (c : Rat) (terms : List Expr) (p : Rat) :
    (sum c terms p).face.inner = (spreadLayout terms).text 1 := by
  rw [face]
  simp only [spreadLayout_eq]
  split <;> rfl

theorem layout_sum (c : Rat) (terms : List Expr) (p : Rat) :
    (sum c terms p).face.guarded = "(" ++ (spreadLayout terms).text 1 ++ ")" ∧
      (sum c terms p).face.key = (sum c terms p).face.guarded ∧
      (sum c terms p).face.layout =
        if p = 1 then spreadLayout terms
        else [(1, fractionEntry [factorSide (sum c terms p) (sum c terms p).face])] := by
  rw [face]
  simp only [spreadLayout_eq]
  split
  · exact ⟨rfl, rfl, rfl⟩
  · exact ⟨rfl, rfl, rfl⟩

theorem layout_product (c : Rat) (factors : List Expr) :
    (product c factors).face.layout =
      [(1, fractionEntry ((sortFactors factors).map fun f => f.factorSide f.face))] := by
  rw [face, faces_eq]
  simp only [List.zipWith_map_right, List.zipWith_self,
    sortByRank_factors factors fun f => f.factorSide f.face]

end Expr

namespace Reader

theorem text_number_phrase (n : Nat) : (Phrase.number n).text = toString n := by
  rw [Phrase.text, Phrase.chars, String.ofList_toList]

theorem text_group (phrase : Phrase) : (Phrase.group phrase).text = "(" ++ phrase.text ++ ")" := by
  apply String.toList_inj.mp
  simp [Phrase.text, Phrase.chars]

/-- A whole power of a base is written as its phrase. -/
theorem poweredText_eq (inner : String) (base : Phrase) {p : Rat} (whole : p.den = 1)
    (positive : 0 < p) : poweredText inner base.text p = (powered base p).text := by
  have half : p ≠ 1 / 2 := by
    rintro rfl
    exact absurd whole (by decide +kernel)
  have shown : Rational.text p = toString p.num.toNat := by
    rw [Rational.text, if_pos whole, Fraction.toString_toNat (Rat.num_nonneg.mpr positive.le)]
  unfold poweredText powered
  split
  · rfl
  · simp only [Rational.isInteger, whole, positive, decide_true, beq_self_eq_true, Bool.and_self,
      if_true, shown, ← text_number_phrase]
    apply String.toList_inj.mp
    simp [Phrase.text, Phrase.chars, Sign.char]

/-- A phrase that needs no parentheses as the base of a power. -/
structure Phrase.IsBase (phrase : Phrase) : Prop where
  spelled : phrase.Spelled
  fits : phrase.Fits
  binds : 7 ≤ phrase.level

theorem Phrase.IsBase.powered {base : Phrase} (isBase : base.IsBase) (p : Rat) :
    (powered base p).IsFactor := by
  unfold Reader.powered
  split
  · exact ⟨isBase.spelled, isBase.fits, le_trans (by decide) isBase.binds⟩
  · exact ⟨⟨isBase.spelled, trivial⟩,
      ⟨isBase.fits, trivial, isBase.binds, show (6 : Int) ≤ 7 by decide⟩, le_refl 6⟩

theorem value_powered (ρ : String → ℚ) (base : Phrase) {p : Rat} (positive : 0 < p) :
    (powered base p).value ρ = base.value ρ ^ p.num := by
  unfold powered
  split
  next one => simp [one]
  next =>
    have exponent : ((p.num.toNat : ℚ)).num = p.num := by
      rw [Rat.num_natCast]
      exact Int.toNat_of_nonneg (Rat.num_nonneg.mpr positive.le)
    rw [Phrase.value, Phrase.value, exponent]

namespace Fraction

theorem power_isProper {base : Phrase} (isBase : base.IsBase) (p : Rat) :
    (power base p).IsProper := by
  have single (q : Rat) : ∀ f ∈ [powered base q], f.IsFactor := by
    intro f member
    obtain rfl := List.mem_singleton.mp member
    exact isBase.powered q
  unfold power
  split
  · exact ⟨by simp, single _⟩
  · exact ⟨single _, by simp⟩

theorem value_power (ρ : String → ℚ) (base : Phrase) {p : Rat} (nonzero : p ≠ 0) :
    (power base p).value ρ = base.value ρ ^ p.num := by
  unfold power
  split
  next negative =>
    simp [value, value_powered ρ base (neg_pos.mpr negative)]
  next other =>
    have positive : 0 < p := lt_of_le_of_ne (not_lt.mp other) nonzero.symm
    simp [value, value_powered ρ base positive]

theorem merge_isProper {fractions : List Fraction} (proper : ∀ f ∈ fractions, f.IsProper) :
    (merge fractions).IsProper := by
  constructor
  · intro f member
    obtain ⟨fraction, inside, above⟩ := List.mem_flatMap.mp member
    exact (proper fraction inside).1 f above
  · intro f member
    obtain ⟨fraction, inside, below⟩ := List.mem_flatMap.mp member
    exact (proper fraction inside).2 f below

theorem value_merge (ρ : String → ℚ) (fractions : List Fraction) :
    (merge fractions).value ρ = (fractions.map (value ρ)).prod := by
  induction fractions with
  | nil => simp [merge, value]
  | cons f rest ih =>
    simp only [merge, value, List.flatMap_cons, List.map_append, List.prod_append, List.map_cons,
      List.prod_cons] at ih ⊢
    rw [← ih, mul_div_mul_comm]

end Fraction
end Reader

namespace Expr
open Reader

/-- The phrase of an expression is that of its text, and has its value. -/
structure Depicted (e : Expr) : Prop where
  written : ∀ c, (e.face.layout.map fun item => item.2.text (item.1 * c)) =
    e.depict.terms.map fun item => (item.2.phrase (item.1 * c)).text
  some : e.depict.terms ≠ []
  proper : ∀ item ∈ e.depict.terms, item.2.IsProper
  value : ∀ ρ, (e.depict.terms.map fun item => item.1 * item.2.value ρ).sum = eval ρ e.unit

/-- The phrase of an expression as a base is that of its key, and has the value of its stem. -/
structure DepictedBase (e : Expr) : Prop where
  guarded : e.face.guarded = e.depict.base.text
  key : e.baseKey = e.face.guarded
  isBase : e.depict.base.IsBase
  value : ∀ ρ, e.depict.base.value ρ = eval ρ e.stem

theorem factorSide_eq {e : Expr} (based : DepictedBase e) (plain : e.isExponential = false)
    (whole : e.power.den = 1) (nonzero : e.power ≠ 0) :
    fractionEntry [e.factorSide e.face] = (Fraction.power e.depict.base e.power).entry := by
  have side : e.factorSide e.face =
      if e.power < 0 then (false, (powered e.depict.base (-e.power)).text)
      else (true, (powered e.depict.base e.power).text) := by
    unfold factorSide
    split
    · simp [isExponential] at plain
    · rw [based.guarded]
      split
      next negative =>
        rw [poweredText_eq _ _ (by rw [Rat.neg_den, whole]) (neg_pos.mpr negative)]
      next other =>
        rw [poweredText_eq _ _ whole (lt_of_le_of_ne (not_lt.mp other) nonzero.symm)]
  rw [side]
  unfold Fraction.power
  split <;> simp [fractionEntry, Fraction.entry]

theorem entry_append (first second : List (Bool × String)) :
    ∃ above below above' below', fractionEntry first = .fraction above below ∧
      fractionEntry second = .fraction above' below' ∧
      fractionEntry (first ++ second) = .fraction (above ++ above') (below ++ below') :=
  ⟨_, _, _, _, rfl, rfl, by simp [fractionEntry]⟩

/-- The factors of a product are written as their phrases. -/
theorem fractionEntry_factors {factors : List Expr}
    (each : ∀ f ∈ factors,
      fractionEntry [f.factorSide f.face] = (Fraction.power f.depict.base f.power).entry) :
    fractionEntry (factors.map fun f => f.factorSide f.face) =
      (Fraction.merge (factors.map fun f => .power f.depict.base f.power)).entry := by
  induction factors with
  | nil => rfl
  | cons f rest ih =>
    obtain ⟨above, below, above', below', first, second, both⟩ :=
      entry_append [f.factorSide f.face] (rest.map fun f => f.factorSide f.face)
    rw [each f List.mem_cons_self, Fraction.entry, Entry.fraction.injEq] at first
    rw [ih fun g later => each g (List.mem_cons_of_mem _ later), Fraction.entry,
      Entry.fraction.injEq] at second
    rw [List.map_cons, ← List.singleton_append, both, ← first.1, ← first.2, ← second.1, ← second.2]
    simp [Fraction.merge, Fraction.entry]

/-- A node that is one fraction with coefficient left open. -/
theorem Depicted.single {e : Expr} {fraction : Fraction}
    (layout : e.face.layout = [(1, fraction.entry)]) (terms : e.depict.terms = [(1, fraction)])
    (proper : fraction.IsProper) (value : ∀ ρ, fraction.value ρ = eval ρ e.unit) : Depicted e where
  written c := by
    rw [layout, terms]
    simp [Fraction.text_entry]
  some := by
    rw [terms]
    exact List.cons_ne_nil _ _
  proper item member := by
    rw [terms] at member
    obtain rfl := List.mem_singleton.mp member
    exact proper
  value ρ := by
    rw [terms, ← value]
    simp

/-- The text under a coefficient is that of the phrase under it. -/
theorem Depicted.text {e : Expr} (depicted : Depicted e) (c : Rat) :
    e.face.layout.text c = (total (e.depict.terms.map fun item => (item.1 * c, item.2))).text := by
  have proper : ∀ item ∈ e.depict.terms.map fun item => (item.1 * c, item.2), item.2.IsProper := by
    intro item member
    obtain ⟨inner, inside, rfl⟩ := List.mem_map.mp member
    exact depicted.proper inner inside
  have some : (e.depict.terms.map fun item => (item.1 * c, item.2)) ≠ [] := by
    simpa using depicted.some
  rw [← joinTerms_text some proper, List.map_map, Layout.text]
  exact congrArg joinTerms (depicted.written c)

/-- The terms of a sum, depicted one after the other. -/
theorem spread_depicted {terms : List Expr} (several : 2 ≤ terms.length)
    (each : ∀ t ∈ terms, Depicted t) :
    (∀ c, ((spreadLayout terms).map fun item => item.2.text (item.1 * c)) =
      (spreadItems terms).map fun item => (item.2.phrase (item.1 * c)).text) ∧
      spreadItems terms ≠ [] ∧ (∀ item ∈ spreadItems terms, item.2.IsProper) ∧
      ∀ ρ, ((spreadItems terms).map fun item => item.1 * item.2.value ρ).sum = evalSum ρ terms := by
  have perm := sortTerms_perm terms
  have present : ∀ t ∈ sortTerms terms, Depicted t :=
    fun t member => each t (perm.mem_iff.mp member)
  refine ⟨fun c => ?_, ?_, ?_, fun ρ => ?_⟩
  · rw [spreadLayout, spreadItems, List.map_flatMap, List.map_flatMap]
    refine List.flatMap_congr fun t member => ?_
    have shares := (present t member).written (t.coeff * c)
    simp only [List.map_map, Function.comp_def] at shares ⊢
    simpa only [mul_left_comm, mul_assoc, mul_comm] using shares
  · have filled : sortTerms terms ≠ [] := by
      intro none
      have counted := perm.length_eq
      rw [none, List.length_nil] at counted
      omega
    obtain ⟨t, member⟩ := List.exists_mem_of_ne_nil _ filled
    obtain ⟨item, inside⟩ := List.exists_mem_of_ne_nil _ (present t member).some
    exact List.ne_nil_of_mem (List.mem_flatMap.mpr ⟨t, member, List.mem_map_of_mem inside⟩)
  · intro item member
    obtain ⟨t, inside, found⟩ := List.mem_flatMap.mp member
    obtain ⟨inner, below, rfl⟩ := List.mem_map.mp found
    exact (present t inside).proper inner below
  · have values : ∀ t ∈ sortTerms terms,
        (t.depict.terms.map fun item => t.coeff * item.1 * item.2.value ρ).sum = eval ρ t := by
      intro t member
      rw [eval_eq_coeff_mul, ← (present t member).value, ← List.sum_map_mul_left]
      simp only [mul_assoc]
    rw [evalSum_eq, ← (perm.map (eval ρ)).sum_eq, spreadItems, List.map_flatMap]
    clear perm present
    generalize sortTerms terms = sorted at values
    induction sorted with
    | nil => rfl
    | cons t rest ih =>
      rw [List.flatMap_cons, List.sum_append, List.map_cons, List.sum_cons,
        ih fun u later => values u (List.mem_cons_of_mem _ later), List.map_map]
      exact congrArg (· + _) (values t List.mem_cons_self)

variable {scheme : Scheme}

theorem isVariableName_spelled {c : Rat} {name : String} {p : Rat}
    (formed : (symbol c name p).WellFormed) (named : isVariableName name = true) :
    Identifier name := by
  obtain ⟨_, _, spelled | digits, _⟩ := formed
  · exact spelled
  · simp [isVariableName, digits] at named

/-- Apart from numbers and products, what is built by a scheme is a power of a base. -/
theorem BuiltBy.power_whole {e : Expr} (built : BuiltBy scheme e) (formed : e.WellFormed)
    (number : e.isNumber = false) (product : e.isProduct = false) :
    e.isExponential = false ∧ e.power.den = 1 ∧ e.power ≠ 0 ∧ scheme.powers e.power := by
  cases built with
  | number => simp [isNumber] at number
  | symbol named power => exact ⟨rfl, scheme.whole _ power, formed.2.1, power⟩
  | sum terms shares power => exact ⟨rfl, scheme.whole _ power, formed.2.1, power⟩
  | product => simp [isProduct] at product

/-- A power of a base has the power of its value. -/
theorem BuiltBy.eval_unit {e : Expr} (built : BuiltBy scheme e) (number : e.isNumber = false)
    (product : e.isProduct = false) (ρ : String → ℚ) :
    eval ρ e.unit = eval ρ e.stem ^ e.power.num := by
  cases built with
  | number => simp [isNumber] at number
  | symbol => simp [stem, Expr.unit, Expr.withCoeff, withPower, power, eval]
  | sum => simp [stem, Expr.unit, Expr.withCoeff, withPower, power, eval]
  | product => simp [isProduct] at product

/-- A plain variable is written as a power of its name. -/
theorem symbol_depicted {c : Rat} {name : String} {p : Rat} (formed : (symbol c name p).WellFormed)
    (named : isVariableName name = true) (whole : p.den = 1) :
    Depicted (symbol c name p) ∧ DepictedBase (symbol c name p) := by
  have spelled := isVariableName_spelled formed named
  have plain := startsWith_minus_identifier spelled
  have based : DepictedBase (symbol c name p) :=
    { guarded := by simp [face, singleFace, plain, depict, Phrase.text, Phrase.chars]
      key := rfl
      isBase := ⟨spelled, trivial, le_refl 7⟩
      value := fun ρ => by simp [depict, Phrase.value, stem, unit, withCoeff, withPower, eval] }
  refine ⟨@Depicted.single _ (.power (.name name) p) ?_ rfl
    (Fraction.power_isProper based.isBase p) fun ρ => ?_, based⟩
  · have single := factorSide_eq based rfl whole formed.2.1
    exact congrArg (fun entry => [((1 : Rat), entry)]) single
  · rw [Fraction.value_power ρ _ formed.2.1]
    simp [Phrase.value, unit, withCoeff, eval]

theorem sum_depicted {c : Rat} {terms : List Expr} {p : Rat} (formed : (sum c terms p).WellFormed)
    (each : ∀ t ∈ terms, Depicted t) (whole : p.den = 1) :
    Depicted (sum c terms p) ∧ DepictedBase (sum c terms p) := by
  obtain ⟨written, some, proper, value⟩ := spread_depicted formed.2.2.1.several each
  obtain ⟨guarded, key, layout⟩ := layout_sum c terms p
  obtain ⟨spelled, fits⟩ := total_fits proper
  have inside : (spreadLayout terms).text 1 = (total (spreadItems terms)).text := by
    rw [Layout.text, ← joinTerms_text some proper]
    simpa using congrArg joinTerms (written 1)
  have based : DepictedBase (sum c terms p) :=
    { guarded := by rw [guarded, inside, depict_sum, text_group]
      key := key
      isBase := by
        rw [depict_sum]
        exact ⟨spelled, fits, le_refl 7⟩
      value := fun ρ => by
        rw [depict_sum, Phrase.value, value_total, value]
        simp [stem, unit, withCoeff, withPower, eval] }
  refine ⟨?_, based⟩
  by_cases plain : p = 1
  · have terms_eq : (sum c terms p).depict.terms = spreadItems terms := by
      rw [depict_sum]
      simp [plain]
    rw [if_pos plain] at layout
    exact
      { written := fun d => by rw [layout, terms_eq, written]
        some := by rwa [terms_eq]
        proper := by rwa [terms_eq]
        value := fun ρ => by
          rw [terms_eq, value]
          simp [unit, withCoeff, eval, plain] }
  · have single := factorSide_eq based rfl whole formed.2.1
    rw [if_neg plain, single] at layout
    refine .single layout ?_ (Fraction.power_isProper based.isBase p) fun ρ => ?_
    · rw [depict_sum]
      simp only [plain, if_false]
      rfl
    · change (Fraction.power (sum c terms p).depict.base p).value ρ = _
      rw [Fraction.value_power ρ _ formed.2.1, based.value]
      simp [stem, unit, withCoeff, withPower, eval]

theorem product_depicted {c : Rat} {factors : List Expr} (formed : (product c factors).WellFormed)
    (built : ∀ f ∈ factors, BuiltBy scheme f) (each : ∀ f ∈ factors, DepictedBase f) :
    Depicted (product c factors) := by
  obtain ⟨_, normal, all⟩ := formed
  have perm := sortFactors_perm factors
  have powers : ∀ f ∈ sortFactors factors, DepictedBase f ∧
      f.isExponential = false ∧ f.power.den = 1 ∧ f.power ≠ 0 := by
    intro f member
    have inside := perm.mem_iff.mp member
    obtain ⟨plain, whole, nonzero, _⟩ := (built f inside).power_whole
      (allWellFormed_iff.mp all f inside) (normal.proper f inside).notNumber
      (normal.proper f inside).notProduct
    exact ⟨each f inside, plain, whole, nonzero⟩
  refine @Depicted.single _ (.merge ((sortFactors factors).map fun f =>
    .power f.depict.base f.power)) ?_ (by rw [depict_product]) ?_ fun ρ => ?_
  · rw [layout_product, fractionEntry_factors]
    intro f member
    obtain ⟨based, plain, whole, nonzero⟩ := powers f member
    exact factorSide_eq based plain whole nonzero
  · refine Fraction.merge_isProper fun fraction member => ?_
    obtain ⟨f, inside, rfl⟩ := List.mem_map.mp member
    exact Fraction.power_isProper (powers f inside).1.isBase _
  · have values : (((sortFactors factors).map fun f => Fraction.power f.depict.base f.power).map
        (Fraction.value ρ)) = (sortFactors factors).map (eval ρ) := by
      rw [List.map_map]
      refine List.map_congr_left fun f member => ?_
      obtain ⟨based, plain, whole, nonzero⟩ := powers f member
      have inside := perm.mem_iff.mp member
      have proper := normal.proper f inside
      rw [Function.comp_apply, Fraction.value_power ρ _ nonzero, based.value, eval_eq_coeff_mul f,
        proper.unit, one_mul, (built f inside).eval_unit proper.notNumber proper.notProduct]
    rw [Fraction.value_merge, values, (perm.map (eval ρ)).prod_eq]
    simp [unit, withCoeff, eval, evalProduct_eq]

/-- Well-formed expressions built by a scheme are written as phrases of the same value. -/
theorem BuiltBy.depicted {e : Expr} (built : BuiltBy scheme e) (formed : e.WellFormed) :
    Depicted e ∧ (e.isNumber = false → e.isProduct = false → DepictedBase e) := by
  induction built with
  | number c =>
    refine ⟨⟨fun d => ?_, by simp [depict], fun item member => ?_, fun ρ => ?_⟩, fun number => ?_⟩
    · simp only [face, depict, List.map_cons, List.map_nil, Fraction.text_number]
      rw [← Fraction.text_entry]
      rfl
    · obtain rfl := List.mem_singleton.mp member
      exact ⟨by simp, by simp⟩
    · simp [depict, Fraction.value, Expr.unit, Expr.withCoeff, eval]
    · simp [isNumber] at number
  | symbol named power =>
    obtain ⟨depicted, based⟩ := symbol_depicted formed named (scheme.whole _ power)
    exact ⟨depicted, fun _ _ => based⟩
  | sum terms shares power ih =>
    have all := allWellFormed_iff.mp formed.2.2.2
    obtain ⟨depicted, based⟩ := sum_depicted formed (fun t member => (ih t member (all t member)).1)
      (scheme.whole _ power)
    exact ⟨depicted, fun _ _ => based⟩
  | product factors ih =>
    have all := allWellFormed_iff.mp formed.2.2
    have proper := formed.2.1.proper
    refine ⟨product_depicted formed factors fun f member => ?_, fun _ product => ?_⟩
    · exact (ih f member (all f member)).2 (proper f member).notNumber (proper f member).notProduct
    · simp [isProduct] at product

/-- The sign by which numbers are marked does not occur in written arithmetic. -/
theorem hash_notMem_chars {phrase : Phrase} (spelled : phrase.Spelled) : '#' ∉ phrase.chars := by
  induction phrase with
  | number n =>
    intro member
    exact absurd (Text.isDigit_of_mem_toString (n := n) member) (by decide)
  | name text =>
    obtain ⟨c, rest, shape, starts, continues⟩ := identifier_chars spelled
    rw [Phrase.chars, shape]
    intro member
    rcases List.mem_cons.mp member with rfl | later
    · exact absurd starts (by decide)
    · exact absurd (continues _ later) (by decide)
  | negative a ih =>
    simpa [Phrase.chars] using ih spelled
  | binary sign a b ihA ihB =>
    have other : '#' ≠ sign.char := by cases sign <;> decide
    simpa [Phrase.chars, other] using ⟨ihA spelled.1, ihB spelled.2⟩
  | group a ih =>
    simpa [Phrase.chars] using ih spelled

theorem chars_eq_of_text_eq {a b : Phrase} (same : a.text = b.text) : a.chars = b.chars := by
  simpa [Phrase.text] using congrArg String.toList same

/-- Expressions of the same text under two coefficients have the same value under them. -/
theorem Depicted.eval_eq_of_text_eq {a b : Expr} (depictedA : Depicted a) (depictedB : Depicted b)
    {c d : Rat} (same : a.face.layout.text c = b.face.layout.text d) (ρ : String → ℚ) :
    c * eval ρ a.unit = d * eval ρ b.unit := by
  have proper {e : Expr} (depicted : Depicted e) (k : Rat) :
      ∀ item ∈ e.depict.terms.map fun item => (item.1 * k, item.2), item.2.IsProper := by
    intro item member
    obtain ⟨inner, inside, rfl⟩ := List.mem_map.mp member
    exact depicted.proper inner inside
  have value {e : Expr} (depicted : Depicted e) (k : Rat) :
      (total (e.depict.terms.map fun item => (item.1 * k, item.2))).value ρ =
        k * eval ρ e.unit := by
    rw [value_total, List.map_map, ← depicted.value, ← List.sum_map_mul_left]
    refine congrArg List.sum (List.map_congr_left fun item _ => ?_)
    simp only [Function.comp_apply]
    ring
  rw [depictedA.text, depictedB.text] at same
  obtain ⟨spelledA, fitsA⟩ := total_fits (proper depictedA c)
  obtain ⟨spelledB, fitsB⟩ := total_fits (proper depictedB d)
  rw [← value depictedA, ← value depictedB]
  exact Phrase.value_eq_of_chars_eq spelledA fitsA spelledB fitsB (chars_eq_of_text_eq same) ρ

/-- Only numbers have the key of numbers. -/
theorem termKey_ne_hash {e : Expr} (built : BuiltBy scheme e) (formed : e.WellFormed)
    (number : e.isNumber = false) : e.termKey ≠ "#" := by
  intro same
  obtain ⟨depicted, _⟩ := built.depicted formed
  have proper : ∀ item ∈ e.depict.terms.map fun item => (item.1 * 1, item.2), item.2.IsProper := by
    simpa using depicted.proper
  rw [termKey, number, if_neg (by decide), depicted.text] at same
  refine hash_notMem_chars (total_fits proper).1 ?_
  have chars := congrArg String.toList same
  rw [Phrase.text, String.toList_ofList] at chars
  rw [chars]
  decide

/-- Terms with the same key differ in their coefficients alone. -/
theorem eval_unit_eq_of_termKey_eq {a b : Expr} (builtA : BuiltBy scheme a)
    (formedA : a.WellFormed) (builtB : BuiltBy scheme b) (formedB : b.WellFormed)
    (same : a.termKey = b.termKey) (ρ : String → ℚ) : eval ρ a.unit = eval ρ b.unit := by
  cases numberA : a.isNumber with
  | true =>
    cases numberB : b.isNumber with
    | true =>
      cases a <;> cases b <;> simp_all [isNumber, unit, withCoeff]
    | false =>
      rw [termKey, numberA, if_pos rfl] at same
      exact absurd same.symm (termKey_ne_hash builtB formedB numberB)
  | false =>
    cases numberB : b.isNumber with
    | true =>
      rw [termKey, termKey, numberB, if_pos rfl, ← termKey] at same
      exact absurd same (termKey_ne_hash builtA formedA numberA)
    | false =>
      rw [termKey, termKey, numberA, numberB, if_neg (by decide), if_neg (by decide)] at same
      simpa using (builtA.depicted formedA).1.eval_eq_of_text_eq (builtB.depicted formedB).1 same ρ

/-- Factors with the same key differ in their powers alone. -/
theorem eval_stem_eq_of_baseKey_eq {a b : Expr} (basedA : DepictedBase a) (basedB : DepictedBase b)
    (same : a.baseKey = b.baseKey) (ρ : String → ℚ) : eval ρ a.stem = eval ρ b.stem := by
  rw [basedA.key, basedB.key, basedA.guarded, basedB.guarded] at same
  rw [← basedA.value, ← basedB.value]
  exact Phrase.value_eq_of_chars_eq basedA.isBase.spelled basedA.isBase.fits basedB.isBase.spelled
    basedB.isBase.fits (chars_eq_of_text_eq same) ρ

end Expr
end ExactAlgebra
