import ExactAlgebra.Proofs.Addition
import ExactAlgebra.Proofs.Depiction
import Mathlib

/-! The value of a sum. Like terms are found by their keys; since equal keys mean equal values up to
the coefficient, merging keeps the value, and so does drawing out the content. -/
namespace ExactAlgebra.Expr

variable {ρ : String → ℚ} {scheme : Scheme}

section Terms

variable {kept : Expr → Prop} (withCoeff : ∀ {e}, kept e → ∀ c, kept (e.withCoeff c))

include withCoeff

theorem forall_summands (below : ∀ {c terms p}, kept (sum c terms p) → ∀ t ∈ terms, kept t)
    {a : Expr} (holds : kept a) : ∀ t ∈ a.summands, kept t := by
  intro t member
  cases a with
  | sum c terms p =>
    simp only [Expr.summands] at member
    split at member
    · obtain ⟨u, inside, rfl⟩ := List.mem_map.mp member
      exact withCoeff (below holds u inside) _
    · obtain rfl := List.mem_singleton.mp member
      exact holds
  | _ =>
    obtain rfl := List.mem_singleton.mp member
    exact holds

theorem forall_insertTerm {terms : List RankedTerm} {new : RankedTerm}
    (before : ∀ t ∈ terms, kept t.2) (holds : kept new.2) :
    ∀ t ∈ insertTerm terms new, kept t.2 := by
  intro t member
  rcases mem_insertTerm member with rfl | old | ⟨old, inside, rfl⟩
  · exact holds
  · exact before t old
  · exact withCoeff (before old inside) _

/-- Collecting terms keeps what does not depend on their coefficients. -/
theorem forall_foldl_insertTerm {terms collected : List RankedTerm}
    (before : ∀ t ∈ collected, kept t.2) (each : ∀ t ∈ terms, kept t.2) :
    ∀ t ∈ terms.foldl insertTerm collected, kept t.2 := by
  induction terms generalizing collected with
  | nil => exact before
  | cons new rest ih =>
    exact ih (forall_insertTerm withCoeff before (each new List.mem_cons_self))
      fun t later => each t (List.mem_cons_of_mem _ later)

end Terms

/-- A property that addition keeps: numbers have it, coefficients do not matter, and a plain sum of
terms with nonzero coefficients has it when its terms do. -/
structure KeptByAddition (kept : Expr → Prop) : Prop where
  number : ∀ c, kept (number c)
  withCoeff : ∀ {e}, kept e → ∀ c, kept (e.withCoeff c)
  sum : ∀ {c terms}, (∀ t ∈ terms, kept t) → (∀ t ∈ terms, t.coeff ≠ 0) → kept (sum c terms 1)
  terms : ∀ {c terms p}, kept (Expr.sum c terms p) → ∀ t ∈ terms, kept t

theorem BuiltBy.terms {c : Rat} {terms : List Expr} {p : Rat}
    (built : BuiltBy scheme (Expr.sum c terms p)) : ∀ t ∈ terms, BuiltBy scheme t := by
  cases built with
  | sum each => exact each

theorem BuiltBy.keptByAddition (admits : scheme.AdmitsSums) : KeptByAddition (BuiltBy scheme) where
  number := .number
  withCoeff built c := built.withCoeff c
  sum each nonzero := .sum each (fun t member => admits _ (nonzero t member)) scheme.one
  terms := BuiltBy.terms

theorem Defined.keptByAddition (ρ : String → ℚ) : KeptByAddition (Defined ρ) where
  number := .number
  withCoeff defined c := defined.withCoeff c
  sum each _ := .sum each fun negative => absurd negative (by decide)
  terms defined := by
    cases defined with
    | sum each => exact each

namespace KeptByAddition

variable {kept : Expr → Prop}

theorem ofTerms (keeps : KeptByAddition kept) {terms : List RankedTerm}
    (collected : Collected terms) (each : ∀ t ∈ terms, kept t.2) : kept (ofTerms terms) := by
  have present : ∀ t ∈ remaining terms, kept t.2 :=
    fun t member => each t (mem_remaining.mp member).1
  rcases ofTerms_cases collected with ⟨_, same⟩ | ⟨t, left, same⟩ | ⟨c, nonzero, same, _⟩
  · rw [same]
    exact keeps.number 0
  · rw [same]
    exact present t (left ▸ List.mem_cons_self)
  · rw [same]
    refine keeps.sum (fun u member => ?_) fun u member => ?_
    · obtain ⟨t, inside, rfl⟩ := List.mem_map.mp member
      exact keeps.withCoeff (present t inside) _
    · obtain ⟨t, inside, rfl⟩ := List.mem_map.mp member
      obtain ⟨old, coeff⟩ := mem_remaining.mp inside
      have formed := (collected.proper t old).formed
      have divided := formed.coeff_withCoeff (t.2.coeff / c)
      rw [Expr.unit, withCoeff_withCoeff] at divided
      rw [divided]
      exact div_ne_zero coeff nonzero

theorem add (keeps : KeptByAddition kept) {a b r : Expr} (formedA : a.WellFormed)
    (formedB : b.WellFormed) (holdsA : kept a) (holdsB : kept b) (returned : add a b = .ok r) :
    kept r := by
  rcases add_cases returned with ⟨_, rfl⟩ | ⟨_, rfl⟩ | ⟨x, y, rfl, rfl, rfl⟩ | ⟨keyed, rfl⟩
  · exact holdsB
  · exact holdsA
  · exact keeps.number _
  · refine keeps.ofTerms (collected_summands formedA formedB keyed)
      (forall_foldl_insertTerm keeps.withCoeff (by simp) fun t member => ?_)
    obtain ⟨u, inside, rfl⟩ := List.mem_map.mp member
    rcases List.mem_append.mp inside with left | right
    · exact forall_summands keeps.withCoeff keeps.terms holdsA u left
    · exact forall_summands keeps.withCoeff keeps.terms holdsB u right

end KeptByAddition

/-- A value in a field that coefficients multiply and plain sums add up. -/
structure AddsUp {K : Type} [Field K] (value : Expr → K) : Prop where
  number : ∀ c : ℚ, value (.number c) = c
  unit : ∀ e : Expr, value e = e.coeff * value e.unit
  withCoeff : ∀ (e : Expr) (c : ℚ), value (e.withCoeff c) = c * value e.unit
  sum : ∀ (c : ℚ) (terms : List Expr), value (.sum c terms 1) = c * (terms.map value).sum

theorem addsUp_eval (ρ : String → ℚ) : AddsUp (eval ρ) where
  number _ := rfl
  unit := eval_eq_coeff_mul
  withCoeff := eval_withCoeff
  sum c terms := by rw [eval, evalSum_eq, Rat.num_one, zpow_one, Rat.cast_id]

section Measure

variable {M : Type} [AddCommMonoid M] (measure : RankedTerm → M)

/-- Adding a term to collected ones adds its measure, if merging two alike terms does. -/
theorem sum_insertTerm {terms : List RankedTerm} {new : RankedTerm}
    (merges : ∀ t ∈ terms, t.1.key = new.1.key →
      measure (t.1, t.2.withCoeff (t.2.coeff + new.2.coeff)) = measure t + measure new) :
    ((insertTerm terms new).map measure).sum = (terms.map measure).sum + measure new := by
  induction terms with
  | nil => simp [insertTerm]
  | cons t rest ih =>
    obtain ⟨rank, t⟩ := t
    simp only [insertTerm]
    split
    next alike =>
      have merged := merges (rank, t) List.mem_cons_self (beq_iff_eq.mp alike)
      rw [List.map_cons, List.sum_cons, merged, List.map_cons, List.sum_cons, add_right_comm]
    next =>
      have later := ih fun u inside => merges u (List.mem_cons_of_mem _ inside)
      rw [List.map_cons, List.sum_cons, later, List.map_cons, List.sum_cons, add_assoc]

/-- Collecting terms adds their measures, if merging two alike terms does. -/
theorem sum_foldl_insertTerm {kept : Expr → Prop} (withCoeff : ∀ {e}, kept e → ∀ c, kept (e.withCoeff c))
    (merges : ∀ t new : RankedTerm, t.1 = t.2.termRank t.2.face → new.1 = new.2.termRank new.2.face →
      IsTerm t.2 → IsTerm new.2 → kept t.2 → kept new.2 → t.1.key = new.1.key →
      measure (t.1, t.2.withCoeff (t.2.coeff + new.2.coeff)) = measure t + measure new)
    {terms collected : List RankedTerm} (before : Collected collected)
    (holds : ∀ t ∈ collected, kept t.2)
    (each : ∀ t ∈ terms, t.1 = t.2.termRank t.2.face ∧ IsTerm t.2 ∧ kept t.2) :
    ((terms.foldl insertTerm collected).map measure).sum =
      (collected.map measure).sum + (terms.map measure).sum := by
  induction terms generalizing collected with
  | nil => simp
  | cons new rest ih =>
    obtain ⟨ranked, proper, keptNew⟩ := each new List.mem_cons_self
    have added := sum_insertTerm measure fun t member =>
      merges t new (before.ranked t member) ranked (before.proper t member) proper (holds t member) keptNew
    rw [List.foldl_cons, ih (before.insertTerm ranked proper) (forall_insertTerm withCoeff holds keptNew)
      fun t later => each t (List.mem_cons_of_mem _ later), added, List.map_cons, List.sum_cons, add_assoc]

end Measure

namespace AddsUp

variable {K : Type} [Field K] {value : Expr → K} (adds : AddsUp value)
include adds

theorem of_isZero {e : Expr} (zero : e.isZero = true) : value e = 0 := by
  rw [eq_zero_of_isZero zero, Expr.zero, adds.number, Rat.cast_zero]

variable [CharZero K]

theorem summands (a : Expr) : (a.summands.map value).sum = value a := by
  cases a with
  | sum c terms p =>
    simp only [Expr.summands]
    split
    next plain =>
      rw [List.map_map, plain, adds.sum, ← List.sum_map_mul_left]
      refine congrArg List.sum (List.map_congr_left fun t _ => ?_)
      rw [Function.comp_apply, adds.withCoeff, adds.unit t, Rat.cast_mul]
      ring
    next => simp
  | _ => simp [Expr.summands]

omit [CharZero K] in
/-- A value is that of the terms over which a product is distributed, times the number left out of them. -/
theorem terms (e : Expr) :
    value e = ((if e.isPlainSum then e.coeff else 1 : ℚ) : K) * (e.terms.map value).sum := by
  cases plain : e.isPlainSum with
  | false => simp [terms_flat plain]
  | true =>
    cases e with
    | sum c terms p =>
      obtain rfl : p = 1 := by simpa [isPlainSum] using plain
      rw [adds.sum, terms_plain, ((sortTerms_perm terms).map value).sum_eq]
      rfl
    | _ => cases plain

/-- Merging terms with the same value up to the coefficient adds their values. -/
theorem merge {t new : Expr} (same : value t.unit = value new.unit) :
    value (t.withCoeff (t.coeff + new.coeff)) = value t + value new := by
  rw [adds.withCoeff, adds.unit t, adds.unit new, same, Rat.cast_add]
  ring

theorem ofTerms {terms : List RankedTerm} (collected : Collected terms) :
    value (ofTerms terms) = (terms.map fun t => value t.2).sum := by
  have cancelled : ((remaining terms).map fun t => value t.2).sum =
      (terms.map fun t => value t.2).sum := by
    clear collected
    induction terms with
    | nil => rfl
    | cons t rest ih =>
      by_cases zero : t.2.coeff = 0
      · have gone : remaining (t :: rest) = remaining rest := by simp [remaining, zero]
        rw [gone, ih, List.map_cons, List.sum_cons, adds.unit t.2, zero, Rat.cast_zero]
        ring
      · have stays : remaining (t :: rest) = t :: remaining rest := by simp [remaining, zero]
        rw [stays, List.map_cons, List.sum_cons, ih, List.map_cons, List.sum_cons]
  rw [← cancelled]
  rcases ofTerms_cases collected with ⟨left, same⟩ | ⟨t, left, same⟩ | ⟨c, nonzero, same, _⟩
  · rw [same, left, adds.of_isZero rfl]
    rfl
  · rw [same, left]
    simp
  · rw [same, adds.sum, List.map_map, ← List.sum_map_mul_left]
    refine congrArg List.sum (List.map_congr_left fun t _ => ?_)
    have factor : (c : K) ≠ 0 := Rat.cast_ne_zero.mpr nonzero
    rw [Function.comp_apply, adds.withCoeff, adds.unit t.2, Rat.cast_div, ← mul_assoc,
      mul_div_cancel₀ _ factor]

/-- The value of a sum is the sum of the values, if terms with the same key have the same value up to
the coefficient. -/
theorem add (kept : Expr → Prop) (withCoeff : ∀ {e}, kept e → ∀ c, kept (e.withCoeff c))
    (terms : ∀ {c terms p}, kept (Expr.sum c terms p) → ∀ t ∈ terms, kept t)
    (agree : ∀ {t u}, IsTerm t → IsTerm u → kept t → kept u → t.unit.termKey = u.unit.termKey →
      value t.unit = value u.unit)
    {a b r : Expr} (formedA : a.WellFormed) (formedB : b.WellFormed) (keptA : kept a)
    (keptB : kept b) (returned : Expr.add a b = .ok r) : value r = value a + value b := by
  rcases add_cases returned with ⟨zero, rfl⟩ | ⟨zero, rfl⟩ | ⟨x, y, rfl, rfl, rfl⟩ | ⟨keyed, rfl⟩
  · rw [adds.of_isZero zero, zero_add]
  · rw [adds.of_isZero zero, add_zero]
  · rw [adds.number, adds.number, adds.number, Rat.cast_add]
  · have each : ∀ t ∈ (a.summands ++ b.summands).map rankTerm,
        t.1 = t.2.termRank t.2.face ∧ IsTerm t.2 ∧ kept t.2 := by
      intro t member
      obtain ⟨u, inside, rfl⟩ := List.mem_map.mp member
      have below {e : Expr} (holds : kept e) : ∀ t ∈ e.summands, kept t :=
        forall_summands withCoeff terms holds
      rcases List.mem_append.mp inside with left | right
      · exact ⟨rfl, formedA.isTerm_summands left (keyed u inside), below keptA u left⟩
      · exact ⟨rfl, formedB.isTerm_summands right (keyed u inside), below keptB u right⟩
    have values : ((a.summands ++ b.summands).map rankTerm).map (fun t => value t.2) =
        (a.summands ++ b.summands).map value := by
      rw [List.map_map]
      rfl
    have collected := sum_foldl_insertTerm (fun t => value t.2) withCoeff
      (fun t new rankedT ranked properT proper keptT keptNew alike => adds.merge
        (agree properT proper keptT keptNew (by
          rw [Expr.unit, Expr.unit, termKey_withCoeff, termKey_withCoeff, ← termRank_key,
            ← termRank_key, ← rankedT, ← ranked, alike]))) .nil (by simp) each
    rw [mergeTerms, adds.ofTerms (collected_summands formedA formedB keyed), collected, values,
      List.map_append, List.sum_append, adds.summands, adds.summands, List.map_nil, List.sum_nil, zero_add]

end AddsUp

/-- The value of a sum is the sum of the values. -/
theorem eval_add {a b r : Expr} (formedA : a.WellFormed) (formedB : b.WellFormed)
    (builtA : BuiltBy scheme a) (builtB : BuiltBy scheme b) (returned : add a b = .ok r) :
    eval ρ r = eval ρ a + eval ρ b := by
  refine (addsUp_eval ρ).add (BuiltBy scheme) BuiltBy.withCoeff BuiltBy.terms ?_ formedA formedB builtA
    builtB returned
  intro t u termT termU builtT builtU keys
  have same := eval_unit_eq_of_termKey_eq builtT.unit termT.formed builtU.unit termU.formed keys ρ
  rwa [unit_unit, unit_unit] at same

/-- A sum is returned, unless the key of a term cannot be written out. -/
theorem add_outcome (a b : Expr) :
    (∃ r, add a b = .ok r) ∨
      (add a b = .error .unsupported ∧ ∃ t ∈ a.summands ++ b.summands, t.hasTermKey = false) := by
  unfold add
  split
  · exact .inl ⟨_, rfl⟩
  split
  · exact .inl ⟨_, rfl⟩
  split
  · exact .inl ⟨_, rfl⟩
  · dsimp only
    split
    next => exact .inl ⟨_, rfl⟩
    next keyless =>
      obtain ⟨t, member, keyless⟩ := List.all_eq_false.mp (Bool.eq_false_of_not_eq_true keyless)
      obtain ⟨u, inside, rfl⟩ := List.mem_map.mp member
      exact .inr ⟨rfl, u, inside, Bool.eq_false_of_not_eq_true keyless⟩

/-- The keys of the terms do not depend on the coefficient in front. -/
theorem keyless_of_withCoeff {e : Expr} {c : Rat}
    (keyless : ∃ t ∈ (e.withCoeff c).summands, t.hasTermKey = false) :
    ∃ t ∈ e.summands, t.hasTermKey = false := by
  obtain ⟨t, member, keyless⟩ := keyless
  cases e with
  | sum d terms p =>
    change t ∈ (sum c terms p).summands at member
    simp only [summands] at member ⊢
    split at member
    next plain =>
      obtain ⟨u, inside, rfl⟩ := List.mem_map.mp member
      rw [hasTermKey_withCoeff] at keyless
      refine ⟨u.withCoeff (u.coeff * d), ?_, by rwa [hasTermKey_withCoeff]⟩
      rw [if_pos plain]
      exact List.mem_map_of_mem inside
    next other =>
      obtain rfl := List.mem_singleton.mp member
      rw [if_neg other]
      exact ⟨_, List.mem_singleton.mpr rfl, keyless⟩
  | _ =>
    obtain rfl := List.mem_singleton.mp member
    exact ⟨_, List.mem_singleton.mpr rfl, keyless⟩

theorem two_le_digitBound : 2 ≤ Rational.digitBound := by
  unfold Rational.digitBound Rational.digitLimit
  generalize digits : 4300 = n
  exact Nat.one_lt_pow (by omega) (by decide)

theorem isWritable_natCast (n : ℕ) : Rational.isWritable n = decide (n < Rational.digitBound) := by
  have one : 1 < Rational.digitBound := two_le_digitBound
  rw [Rational.isWritable, Rat.num_natCast, Int.natAbs_natCast, Rat.den_natCast, decide_eq_true one,
    Bool.and_true]

theorem isWritable_one : Rational.isWritable 1 = true :=
  (isWritable_natCast 1).trans (decide_eq_true two_le_digitBound)

theorem isWritable_neg (c : ℚ) : Rational.isWritable (-c) = Rational.isWritable c := by
  simp [Rational.isWritable]

/-- The sign does not decide whether an expression can be written out. -/
theorem isLegible_neg (e : Expr) : e.neg.isLegible = e.isLegible := by
  have flipped (face : Face) (c : ℚ) : face.isLegibleTimes (-c) = face.isLegibleTimes c := by
    simp only [Face.isLegibleTimes, Layout.isWritable, mul_neg, isWritable_neg]
  cases e with
  | number c => exact flipped (number c).face c
  | foreign => rfl
  | _ => exact flipped _ _

theorem hasTermKey_symbol (c : Rat) (name : String) (p : Rat) :
    (symbol c name p).hasTermKey = Rational.isWritable p := by
  simp [hasTermKey, termRank, isNumber, face, singleFace, Face.isLegibleTimes, Layout.isWritable,
    power, isWritable_one]

end ExactAlgebra.Expr
