import ExactAlgebra.Proofs.RationalFunctions
import ExactAlgebra.Proofs.NormalForm
import Mathlib

/-! Expansion keeps the values of rational functions: wherever an expression is defined, so is its expanded
form, and both have the same value there. -/
namespace ExactAlgebra.Expr
open Engine

variable {ρ : String → ℚ} {a b e r : Expr} {v w : ℚ}

namespace HasValue

theorem of_answers {x : Except Fault Expr} (answers : Answers x ρ v) (returned : x = .ok r) : HasValue ρ v r := by
  obtain ⟨s, same, rational, defined, value⟩ := answers
  cases same.symm.trans returned
  exact ⟨rational, defined, value⟩

theorem add (hasA : HasValue ρ v a) (hasB : HasValue ρ w b) (returned : add a b = .ok r) :
    HasValue ρ (v + w) r := by
  rcases answers_add hasA.rational hasB.rational hasA.defined hasB.defined with answers | ⟨failed, -⟩
  · rw [hasA.value, hasB.value] at answers
    exact of_answers answers returned
  · cases failed.symm.trans returned

theorem mul (hasA : HasValue ρ v a) (hasB : HasValue ρ w b) (returned : mul a b = .ok r) :
    HasValue ρ (v * w) r := by
  rcases answers_mul hasA.rational hasB.rational hasA.defined hasB.defined with answers | ⟨failed, -⟩
  · rw [hasA.value, hasB.value] at answers
    exact of_answers answers returned
  · cases failed.symm.trans returned

theorem div (hasA : HasValue ρ v a) (hasB : HasValue ρ w b) (nonzero : w ≠ 0) (returned : div a b = .ok r) :
    HasValue ρ (v / w) r := by
  have below : eval ρ b ≠ 0 := by rwa [hasB.value]
  rcases answers_div hasA.rational hasB.rational hasA.defined hasB.defined below with answers | failed | ⟨failed, -⟩
  · rw [hasA.value, hasB.value] at answers
    exact of_answers answers returned
  · cases failed.symm.trans returned
  · cases failed.symm.trans returned

theorem powRat (has : HasValue ρ v a) {p : ℚ} (whole : p.den = 1) (present : p ≠ 0) (nonzero : p < 0 → v ≠ 0)
    (returned : a.powRat p = .ok r) : HasValue ρ (v ^ p.num) r := by
  have base : p ≤ 0 → eval ρ a ≠ 0 := fun below => has.value.symm ▸ nonzero (lt_of_le_of_ne below present)
  rcases answers_powRat has.rational has.defined whole base with answers | failed
  · rw [has.value] at answers
    exact of_answers answers returned
  · cases failed.symm.trans returned

/-- The terms over which a product is distributed, and the number left out of them. -/
theorem terms (has : HasValue ρ v e) :
    (∀ t ∈ e.terms, HasValue ρ (eval ρ t) t) ∧
      v = (if e.isPlainSum then e.coeff else 1) * (e.terms.map (eval ρ)).sum := by
  constructor
  · intro t member
    have built := forall_terms BuiltBy.terms has.rational.built t member
    have defined := forall_terms (Defined.keptByAddition ρ).terms has.defined t member
    exact ⟨⟨(has.rational.formed.terms t member).1, built⟩, defined, rfl⟩
  · rw [← has.value]
    exact (addsUp_eval ρ).terms e

theorem mulAll {factors : List Expr} (has : HasValue ρ v a) (each : ∀ f ∈ factors, HasValue ρ (eval ρ f) f)
    (returned : mulAll a factors = .ok r) : HasValue ρ (v * (factors.map (eval ρ)).prod) r := by
  induction factors generalizing a v with
  | nil =>
    cases returned
    simpa using has
  | cons f rest ih =>
    rw [Expr.mulAll, List.foldlM_cons] at returned
    obtain ⟨next, multiplied, returned⟩ := Outcome.bind_ok returned
    obtain ⟨first, others⟩ := List.forall_mem_cons.mp each
    rw [List.map_cons, List.prod_cons, ← mul_assoc]
    exact ih (has.mul first multiplied) others returned

variable {context : Context}

theorem returns_distribute (hasA : HasValue ρ v a) (hasB : HasValue ρ w b) :
    Returns context (distribute a b) (HasValue ρ (v * w)) := by
  obtain ⟨termsA, valueA⟩ := hasA.terms
  obtain ⟨termsB, valueB⟩ := hasB.terms
  unfold distribute
  refine Meets.bind _ (meets_termProducts (HasValue ρ) (eval ρ) (hasValue_number 0) fun x left y right q total has => ?_)
    fun total has => Meets.pure ?_
  · refine Meets.bind _ (Meets.anyway _) fun _ _ => ?_
    exact Meets.bind _ (Returns.lift fun product multiplied => (termsA x left).mul (termsB y right) multiplied)
      fun product times => Returns.lift fun r added => has.add times added
  have scaled := has.scale ((if a.isPlainSum then a.coeff else 1) * (if b.isPlainSum then b.coeff else 1))
  rwa [mul_mul_mul_comm, ← valueA, ← valueB] at scaled

theorem returns_distributeTimes (hasA : HasValue ρ v a) (hasB : HasValue ρ w b) (n : ℕ) :
    Returns context (distributeTimes a b n) (HasValue ρ (v * w ^ n)) := by
  induction n generalizing a v with
  | zero => exact Meets.pure (by simpa using hasA)
  | succ n ih =>
    rw [pow_succ', ← mul_assoc]
    exact Meets.bind _ (hasA.returns_distribute hasB) fun r has => ih has

theorem returns_expandPower (has : HasValue ρ v e) {p : ℚ} (whole : p.den = 1) (present : p ≠ 0)
    (nonzero : p < 0 → v ≠ 0) : Returns context (expandPower e p) (HasValue ρ (v ^ p.num)) := by
  unfold expandPower
  split
  next one =>
    rw [one, Rat.num_one, zpow_one]
    exact Meets.pure has
  split
  next positive =>
    have above : 0 < p.num := Rat.num_pos.mpr (by simpa using (Bool.and_eq_true_iff.mp positive).2)
    obtain ⟨n, count⟩ : ∃ n, p.num.toNat = n + 1 := ⟨p.num.toNat - 1, by omega⟩
    have power : v ^ p.num = v * v ^ n := by
      rw [← pow_succ', ← count, ← zpow_natCast, Int.toNat_of_nonneg above.le]
    rw [count, Nat.add_sub_cancel, power]
    exact has.returns_distributeTimes has n
  · exact Returns.lift fun r returned => has.powRat whole present nonzero returned

end HasValue

variable {context : Context}

theorem returns_expandTree_value (rational : IsRationalFunction e) (defined : Defined ρ e) :
    Returns context (expandTree e) (HasValue ρ (eval ρ e)) := by
  induction e using Expr.induction with
  | number c => exact Meets.pure (hasValue_number c)
  | symbol c name p => exact Meets.pure ⟨rational, defined, rfl⟩
  | call | exponential | foreign => cases rational.built
  | sum c terms p ih =>
    obtain ⟨formed, built⟩ := rational
    cases built with
    | sum each _ power =>
      cases defined with
      | sum below nonzero =>
        have formedTerms := allWellFormed_iff.mp formed.2.2.2
        have inner : Returns context (expandSum zero terms) (HasValue ρ (0 + (terms.map (eval ρ)).sum)) := by
          rw [expandSum_eq]
          refine Meets.foldlM_sum _ _ (hasValue_number 0) fun total sum has t member => ?_
          exact Meets.bind _ (ih t member ⟨formedTerms t member, each t member⟩ (below t member)) fun u value =>
            Returns.lift fun r added => has.add value added
        rw [zero_add, ← evalSum_eq] at inner
        rw [expandTree]
        refine Meets.bind _ inner fun total has => ?_
        exact Meets.bind _ (has.returns_expandPower power formed.2.1 nonzero) fun raised value =>
          Meets.pure (value.scale c)
  | product c factors ih =>
    obtain ⟨formed, built⟩ := rational
    cases built with
    | product each =>
      cases defined with
      | product below =>
        have perm := sortFactors_perm factors
        have product : eval ρ (product c factors) = c * ((sortFactors factors).map (eval ρ)).prod := by
          rw [eval, evalProduct_eq, (perm.map (eval ρ)).prod_eq]
        rw [expandTree_product, product]
        refine Meets.foldlM_prod (HasValue ρ) (eval ρ) (hasValue_number c) fun total result has f member => ?_
        have inside := perm.mem_iff.mp member
        have rational : IsRationalFunction f := ⟨allWellFormed_iff.mp formed.2.2 f inside, each f inside⟩
        exact Meets.bind _ (ih f inside rational (below f inside)) fun g expanded => has.returns_distribute expanded

/-- The expanded form of a rational function is defined where the function is, with the same value. -/
theorem returns_expand_value (rational : IsRationalFunction e) (defined : Defined ρ e) :
    Returns context (expand e) (HasValue ρ (eval ρ e)) :=
  Meets.bind _ (Meets.anyway _) fun _ _ => Meets.inScope (returns_expandTree_value rational defined)

end ExactAlgebra.Expr
