import ExactAlgebra.Algebra.PartialFractions
import ExactAlgebra.Proofs.Factorization
import ExactAlgebra.Proofs.SquareSystems
import Mathlib

/-! Partial fractions. Fractions over the powers of polynomials without common divisors add up to zero
only when all of them are zero; so the linear system for their numerators has as many unknowns as
equations and is never singular. -/
namespace ExactAlgebra.Poly
open Polynomial LinearSystem

/-- A numerator, a factor of the denominator and a power of that factor. -/
abbrev Part := Poly × Poly × ℕ

noncomputable def fraction (part : Part) : RatFunc ℚ :=
  algebraMap ℚ[X] (RatFunc ℚ) part.1.toPolynomial / algebraMap ℚ[X] (RatFunc ℚ) part.2.1.toPolynomial ^ part.2.2

noncomputable def total (parts : List Part) : RatFunc ℚ := (parts.map fraction).sum

/-- All numerators have a lower degree than the factors. -/
def Low (parts : List Part) : Prop :=
  ∀ part ∈ parts, part.1.toPolynomial.degree < part.2.1.toPolynomial.degree

def Trivial (parts : List Part) : Prop := ∀ part ∈ parts, part.1.toPolynomial = 0

variable {parts others : List Part} {factors : Factors} {d q : Poly}

theorem total_append (parts others : List Part) : total (parts ++ others) = total parts + total others := by
  rw [total, List.map_append, List.sum_append, total, total]

theorem total_cons (part : Part) (parts : List Part) : total (part :: parts) = fraction part + total parts := by
  rw [total, List.map_cons, List.sum_cons, total]

theorem map_ne_zero_ratFunc {f : ℚ[X]} (nonzero : f ≠ 0) : algebraMap ℚ[X] (RatFunc ℚ) f ≠ 0 :=
  RatFunc.algebraMap_ne_zero nonzero

/-- The fractions add up to a proper fraction over one polynomial, which is zero only if all of them
are. -/
structure AddsUp (parts : List Part) (P : ℚ[X]) : Prop where
  above : ∃ U : ℚ[X], total parts * algebraMap ℚ[X] (RatFunc ℚ) P = algebraMap ℚ[X] (RatFunc ℚ) U ∧
    U.degree < P.degree ∧ (U = 0 → Trivial parts)

theorem addsUp_powers (nonzero : q.toPolynomial ≠ 0) {n : ℕ} (low : Low parts)
    (powers : parts.map Prod.snd = (List.range n).map fun k => (q, k + 1)) :
    AddsUp parts (q.toPolynomial ^ n) := by
  induction n generalizing parts with
  | zero =>
    obtain rfl : parts = [] := by simpa using powers
    exact ⟨0, by simp [total], by simp, by simp [Trivial]⟩
  | succ n ih =>
    rw [List.range_succ, List.map_append, List.map_singleton] at powers
    obtain ⟨init, last, rfl, before, behind⟩ := List.map_eq_append_iff.mp powers
    obtain ⟨part, rfl, same⟩ : ∃ part, last = [part] ∧ part.2 = (q, n + 1) := by
      simpa [List.map_eq_singleton_iff] using behind
    obtain ⟨top, power⟩ := part
    obtain rfl : power = (q, n + 1) := same
    obtain ⟨U, sum, degree, unique⟩ :=
      (ih (fun part member => low part (List.mem_append_left _ member)) before).above
    have lowTop : top.toPolynomial.degree < q.toPolynomial.degree :=
      low (top, q, n + 1) (by simp)
    have nonzeroK := map_ne_zero_ratFunc nonzero
    refine ⟨U * q.toPolynomial + top.toPolynomial, ?_, ?_, ?_⟩
    · rw [total_append, map_pow, map_add, map_mul, ← sum, map_pow]
      simp only [total, List.map_singleton, List.sum_singleton, fraction]
      rw [add_mul, div_mul_cancel₀ _ (pow_ne_zero _ nonzeroK), pow_succ]
      ring
    · refine (degree_add_le _ _).trans_lt (max_lt ?_ ?_)
      · rw [pow_succ, degree_mul, degree_mul]
        exact WithBot.add_lt_add_right (degree_ne_bot.mpr nonzero) degree
      · rw [pow_succ']
        exact lowTop.trans_le (degree_le_mul_left _ (pow_ne_zero n nonzero))
    · intro zero
      have divides : q.toPolynomial ∣ top.toPolynomial := by
        have : top.toPolynomial = q.toPolynomial * -U := by linear_combination zero
        exact ⟨_, this⟩
      have none : top.toPolynomial = 0 := eq_zero_of_dvd_of_degree_lt divides lowTop
      rw [none, add_zero] at zero
      have earlier := unique ((mul_eq_zero.mp zero).resolve_right nonzero)
      intro part member
      rcases List.mem_append.mp member with old | new
      · exact earlier part old
      · obtain rfl := List.mem_singleton.mp new
        exact none

theorem AddsUp.append {P Q : ℚ[X]} (nonzeroP : P ≠ 0) (nonzeroQ : Q ≠ 0) (apart : IsCoprime P Q)
    (addsUp : AddsUp parts P) (addsUpOthers : AddsUp others Q) : AddsUp (parts ++ others) (P * Q) := by
  obtain ⟨U, sum, degree, unique⟩ := addsUp.above
  obtain ⟨V, sumOthers, degreeOthers, uniqueOthers⟩ := addsUpOthers.above
  refine ⟨U * Q + V * P, ?_, ?_, ?_⟩
  · rw [total_append, map_mul, map_add, map_mul, map_mul, ← sum, ← sumOthers]
    ring
  · refine (degree_add_le _ _).trans_lt (max_lt ?_ ?_)
    · rw [degree_mul, degree_mul]
      exact WithBot.add_lt_add_right (degree_ne_bot.mpr nonzeroQ) degree
    · rw [degree_mul, degree_mul, add_comm P.degree]
      exact WithBot.add_lt_add_right (degree_ne_bot.mpr nonzeroP) degreeOthers
  · intro zero
    have divides : P ∣ U := by
      refine apart.dvd_of_dvd_mul_right ⟨-V, ?_⟩
      linear_combination zero
    have none : U = 0 := eq_zero_of_dvd_of_degree_lt divides degree
    rw [none, zero_mul, zero_add] at zero
    have noneOthers := (mul_eq_zero.mp zero).resolve_right nonzeroP
    intro part member
    rcases List.mem_append.mp member with left | right
    · exact unique none part left
    · exact uniqueOthers noneOthers part right

/-- Proper fractions over the powers of factors without common divisors. -/
theorem addsUp_factors {P : ℚ[X]} (split : factors.Split P) (low : Low parts)
    (powers : parts.map Prod.snd = factorPowers factors) : AddsUp parts factors.product := by
  have nonzero := split.ne_zero
  obtain ⟨proper, coprime, -⟩ := split
  clear proper
  induction factors generalizing parts with
  | nil =>
    obtain rfl : parts = [] := by simpa [factorPowers] using powers
    exact ⟨0, by simp [total], by simp [Factors.product], by simp [Trivial]⟩
  | cons f rest ih =>
    obtain ⟨first, later, rfl, powersFirst, powersLater⟩ := List.map_eq_append_iff.mp powers
    have lowFirst : Low first := fun part member => low part (List.mem_append_left _ member)
    have lowLater : Low later := fun part member => low part (List.mem_append_right _ member)
    obtain ⟨nonzeroF, nonzeroRest⟩ := List.forall_mem_cons.mp nonzero
    obtain ⟨apart, coprimeRest⟩ := List.pairwise_cons.mp coprime
    have one := addsUp_powers nonzeroF lowFirst powersFirst
    have others := ih lowLater powersLater nonzeroRest coprimeRest
    rw [Factors.product_cons]
    exact one.append (pow_ne_zero _ nonzeroF) (Factors.product_ne_zero nonzeroRest)
      (Factors.isCoprime_product apart).pow_left others

/-- The basis polynomials over one power of a factor. -/
def share (d : Poly) (power : Poly × ℕ) : List Poly :=
  (List.range (power.1.coefficients.length - 1)).map fun j => mul (quot d (pow power.1 power.2)) (shift j)

theorem fractionBasis_eq (d : Poly) (factors : Factors) :
    fractionBasis d factors = (factorPowers factors).flatMap (share d) := rfl

theorem mem_factorPowers {q : Poly} {k : ℕ} :
    (q, k) ∈ factorPowers factors ↔ ∃ m, (q, m) ∈ factors ∧ 0 < k ∧ k ≤ m := by
  simp only [factorPowers, List.mem_flatMap, List.mem_map, List.mem_range, Prod.exists, Prod.mk.injEq]
  constructor
  · rintro ⟨f, m, member, j, small, rfl, rfl⟩
    exact ⟨m, member, Nat.succ_pos j, small⟩
  · rintro ⟨m, member, positive, bound⟩
    exact ⟨q, m, member, k - 1, by omega, rfl, by omega⟩

noncomputable def combination (basis : List Poly) (x : List ℚ) : ℚ[X] :=
  (basis.zipWith (fun b c => C c * b.toPolynomial) x).sum

theorem combination_append (basis more : List Poly) (x : List ℚ) :
    combination (basis ++ more) x =
      combination basis (x.take basis.length) + combination more (x.drop basis.length) := by
  induction basis generalizing x with
  | nil => simp [combination]
  | cons b rest ih =>
    cases x with
    | nil => simp [combination]
    | cons c cs =>
      have step := ih cs
      simp only [combination, List.cons_append, List.zipWith_cons_cons, List.sum_cons, List.length_cons,
        List.take_succ_cons, List.drop_succ_cons] at step ⊢
      rw [step, add_assoc]

theorem combination_shifts (f : Poly) {x : List ℚ} (start : ℕ) :
    combination ((List.range' start x.length).map fun j => mul f (shift j)) x =
      f.toPolynomial * X ^ start * ofCoefficients x := by
  induction x generalizing start with
  | nil => simp [combination, ofCoefficients]
  | cons c cs ih =>
    have step := ih (start + 1)
    simp only [combination, List.length_cons, List.range'_succ, List.map_cons, List.zipWith_cons_cons,
      List.sum_cons] at step ⊢
    rw [step, ofCoefficients, toPolynomial_mul, toPolynomial_shift, pow_succ]
    ring

theorem combination_share (d : Poly) (power : Poly × ℕ) {x : List ℚ}
    (length : x.length = (share d power).length) :
    combination (share d power) x = (quot d (pow power.1 power.2)).toPolynomial * ofCoefficients x := by
  have size : power.1.coefficients.length - 1 = x.length := by simpa [share] using length.symm
  have shifts := combination_shifts (quot d (pow power.1 power.2)) (x := x) 0
  rw [share, size, List.range_eq_range', shifts, pow_zero, mul_one]

theorem coeff_combination (basis : List Poly) (x : List ℚ) (r : ℕ) :
    (combination basis x).coeff r =
      pairing basis.length (fun c => (basis.map (·.coeff r)).getD c 0) (fun c => x.getD c 0) := by
  induction basis generalizing x with
  | nil => simp [combination, pairing]
  | cons b rest ih =>
    cases x with
    | nil => simp [combination, pairing]
    | cons c cs =>
      have step := ih cs
      simp only [combination, pairing, List.zipWith_cons_cons, List.sum_cons, coeff_add, coeff_C_mul,
        List.length_cons, List.map_cons, Finset.sum_range_succ', List.getD_cons_zero,
        List.getD_cons_succ] at step ⊢
      rw [step, coeff_toPolynomial]
      ring

section Shares

variable {powers : List (Poly × ℕ)} (fits : ∀ power ∈ powers, power.1.toPolynomial ≠ 0 ∧
  power.1.toPolynomial ^ power.2 ∣ d.toPolynomial)
include fits

/-- A combination of the basis, over the whole denominator, is the sum of the fractions whose numerators
have these coefficients. -/
theorem combination_eq_total {x : List ℚ} (length : x.length = (powers.flatMap (share d)).length) :
    algebraMap ℚ[X] (RatFunc ℚ) (combination (powers.flatMap (share d)) x) =
      algebraMap ℚ[X] (RatFunc ℚ) d.toPolynomial * total (partialNumerators?.distributeOver powers x) := by
  induction powers generalizing x with
  | nil => simp [combination, partialNumerators?.distributeOver, total]
  | cons power rest ih =>
    obtain ⟨⟨nonzero, divides⟩, later⟩ := List.forall_mem_cons.mp fits
    have size : (share d power).length = power.1.coefficients.length - 1 := by simp [share]
    rw [List.flatMap_cons, List.length_append] at length
    have taken : (x.take (share d power).length).length = (share d power).length := by
      rw [List.length_take]
      omega
    have dropped : (x.drop (share d power).length).length = (rest.flatMap (share d)).length := by
      rw [List.length_drop]
      omega
    have nonzeroPower : (pow power.1 power.2).toPolynomial ≠ 0 := by
      rw [toPolynomial_pow]
      exact pow_ne_zero _ nonzero
    have exact : (quot d (pow power.1 power.2)).toPolynomial * (pow power.1 power.2).toPolynomial =
        d.toPolynomial := quot_mul nonzeroPower (by rwa [toPolynomial_pow])
    have tops : ofCoefficients (x.take (share d power).length) =
        (ofList (x.take (power.1.coefficients.length - 1))).toPolynomial := by
      rw [toPolynomial_ofList, size]
    have nonzeroK := pow_ne_zero power.2 (map_ne_zero_ratFunc nonzero)
    rw [List.flatMap_cons, combination_append, map_add, ih later dropped, combination_share d power taken,
      map_mul, tops, ← exact, map_mul, toPolynomial_pow, map_pow, partialNumerators?.distributeOver]
    simp only [total, List.map_cons, List.sum_cons, fraction, size]
    field_simp

theorem distributeOver_spec (x : List ℚ) :
    (partialNumerators?.distributeOver powers x).map Prod.snd = powers ∧
      Low (partialNumerators?.distributeOver powers x) := by
  induction powers generalizing x with
  | nil => simp [partialNumerators?.distributeOver, Low]
  | cons power rest ih =>
    obtain ⟨⟨nonzero, -⟩, later⟩ := List.forall_mem_cons.mp fits
    obtain ⟨same, low⟩ := ih later (x.drop (power.1.coefficients.length - 1))
    rw [partialNumerators?.distributeOver]
    refine ⟨by rw [List.map_cons, same], List.forall_mem_cons.mpr ⟨?_, low⟩⟩
    have bound := degree_ofCoefficients_lt (x.take (power.1.coefficients.length - 1))
    rw [toPolynomial_ofList, degree_eq_natDegree nonzero, natDegree_toPolynomial]
    refine bound.trans_le ?_
    rw [Nat.cast_le, List.length_take]
    exact min_le_left _ _

end Shares

/-- Numerators that are zero have zero coefficients. -/
theorem eq_zero_of_trivial {powers : List (Poly × ℕ)} {x : List ℚ}
    (length : x.length = (powers.flatMap (share d)).length)
    (trivial : Trivial (partialNumerators?.distributeOver powers x)) : ∀ c ∈ x, c = 0 := by
  induction powers generalizing x with
  | nil =>
    obtain rfl := List.eq_nil_of_length_eq_zero length
    simp
  | cons power rest ih =>
    have size : (share d power).length = power.1.coefficients.length - 1 := by simp [share]
    rw [List.flatMap_cons, List.length_append, size] at length
    rw [partialNumerators?.distributeOver] at trivial
    obtain ⟨first, later⟩ := List.forall_mem_cons.mp trivial
    have dropped := ih (by rw [List.length_drop]; omega) later
    intro c member
    rw [← List.take_append_drop (power.1.coefficients.length - 1) x] at member
    rcases List.mem_append.mp member with front | back
    · obtain ⟨n, inside, rfl⟩ := List.mem_iff_getElem.mp front
      have coefficient := congrArg (fun f => f.coeff n) first
      simp only [toPolynomial_ofList, coeff_ofCoefficients, coeff_zero] at coefficient
      rwa [List.getD_eq_getElem _ _ inside] at coefficient
    · exact dropped c back

theorem length_share (power : Poly × ℕ) (d : Poly) :
    (share d power).length = power.1.toPolynomial.natDegree := by
  rw [natDegree_toPolynomial, share, List.length_map, List.length_range]

/-- There are as many unknowns as the denominator has degrees. -/
theorem length_fractionBasis (split : factors.Split d.toPolynomial) :
    (fractionBasis d factors).length = d.toPolynomial.natDegree := by
  rw [← natDegree_eq_of_degree_eq (degree_eq_degree_of_associated split.whole), fractionBasis_eq]
  have nonzero := split.ne_zero
  clear split
  induction factors with
  | nil => simp [factorPowers, Factors.product]
  | cons f rest ih =>
    obtain ⟨first, later⟩ := List.forall_mem_cons.mp nonzero
    have powers : factorPowers (f :: rest) =
        (List.range f.2).map (fun k => (f.1, k + 1)) ++ factorPowers rest := rfl
    rw [powers, List.flatMap_append, List.length_append, ih later, Factors.product_cons,
      natDegree_mul (pow_ne_zero _ first) (Factors.product_ne_zero later), natDegree_pow]
    simp [List.length_flatMap, length_share, Function.comp_def]

theorem fits_factorPowers (split : factors.Split d.toPolynomial) :
    ∀ power ∈ factorPowers factors,
      power.1.toPolynomial ≠ 0 ∧ power.1.toPolynomial ^ power.2 ∣ d.toPolynomial := by
  rintro ⟨q, k⟩ member
  obtain ⟨m, inside, -, bound⟩ := mem_factorPowers.mp member
  refine ⟨split.ne_zero (q, m) inside, ?_⟩
  have most : q.toPolynomial ^ m ∣ factors.product := List.dvd_prod (List.mem_map_of_mem inside)
  exact (pow_dvd_pow _ bound).trans (most.trans split.whole.dvd)

/-- A combination of the basis has a lower degree than the denominator. -/
theorem degree_combination_lt (split : factors.Split d.toPolynomial) {x : List ℚ}
    (length : x.length = (fractionBasis d factors).length) :
    (combination (fractionBasis d factors) x).degree < d.toPolynomial.degree := by
  rw [fractionBasis_eq] at length ⊢
  have fits := fits_factorPowers split
  obtain ⟨powers, low⟩ := distributeOver_spec fits x
  obtain ⟨U, sum, degree, -⟩ := (addsUp_factors split low powers).above
  obtain ⟨unit, same⟩ := split.whole
  have value := combination_eq_total fits length
  have equal : combination ((factorPowers factors).flatMap (share d)) x = U * unit := by
    refine RatFunc.algebraMap_injective ℚ ?_
    rw [value, map_mul, ← sum, ← same, map_mul]
    ring
  rw [equal, ← same, degree_mul, degree_mul, degree_coe_units, add_zero, add_zero]
  exact degree

/-- The matrix of the system, with a row for each power below the degree. -/
def systemMatrix (d : Poly) (factors : Factors) : List (List ℚ) :=
  (List.range (d.coefficients.length - 1)).map fun row => (fractionBasis d factors).map (·.coeff row)

theorem fractionMatrix?_eq (split : factors.Split d.toPolynomial) :
    fractionMatrix? d factors = some (systemMatrix d factors) := by
  have square := length_fractionBasis split
  rw [natDegree_toPolynomial] at square
  rw [fractionMatrix?]
  exact if_neg (not_not.mpr square)

theorem coeff_combination_eq_pairing (split : factors.Split d.toPolynomial) (x : List ℚ) {r : ℕ}
    (small : r < d.toPolynomial.natDegree) :
    (combination (fractionBasis d factors) x).coeff r =
      pairing d.toPolynomial.natDegree (Elimination.entry (systemMatrix d factors) r)
        (fun c => x.getD c 0) := by
  have row : Elimination.entry (systemMatrix d factors) r =
      fun c => ((fractionBasis d factors).map (·.coeff r)).getD c 0 := by
    rw [natDegree_toPolynomial] at small
    have found : (systemMatrix d factors).getD r [] = (fractionBasis d factors).map (·.coeff r) := by
      simp [systemMatrix, List.getD_eq_getElem?_getD, small]
    funext c
    rw [Elimination.entry, found]
  rw [coeff_combination, length_fractionBasis split, row]

/-- Two polynomials below a degree are equal when their coefficients below it are. -/
theorem eq_of_coeff_below {f g P : ℚ[X]} (lowF : f.degree < P.degree) (lowG : g.degree < P.degree)
    (same : ∀ r < P.natDegree, f.coeff r = g.coeff r) : f = g := by
  ext r
  rcases lt_or_ge r P.natDegree with small | large
  · exact same r small
  · have beyond : P.degree ≤ r := degree_le_natDegree.trans (Nat.cast_le.mpr large)
    rw [coeff_eq_zero_of_degree_lt (lowF.trans_le beyond), coeff_eq_zero_of_degree_lt (lowG.trans_le beyond)]

theorem length_systemMatrix (d : Poly) (factors : Factors) :
    (systemMatrix d factors).length = d.toPolynomial.natDegree := by
  rw [systemMatrix, List.length_map, List.length_range, natDegree_toPolynomial]

/-- The columns of the system are independent: a combination of the basis that vanishes is the trivial
one, because it has only zero numerators. -/
theorem columns_independent (split : factors.Split d.toPolynomial) {w : ℕ → ℚ}
    (vanish : ∀ r < d.toPolynomial.natDegree,
      pairing d.toPolynomial.natDegree (Elimination.entry (systemMatrix d factors) r) w = 0) :
    ∀ c < d.toPolynomial.natDegree, w c = 0 := by
  intro c small
  have fits := fits_factorPowers split
  let x := (List.range d.toPolynomial.natDegree).map w
  have lengthX : x.length = (fractionBasis d factors).length := by simp [x, length_fractionBasis split]
  have entries {c : ℕ} (small : c < d.toPolynomial.natDegree) : x.getD c 0 = w c := by
    simp [x, List.getD_eq_getElem?_getD, small]
  have zero : combination (fractionBasis d factors) x = 0 := by
    have below := degree_combination_lt split lengthX
    refine eq_of_coeff_below below (lt_of_le_of_lt (by simp) below) fun r low => ?_
    rw [coeff_combination_eq_pairing split x low, coeff_zero]
    refine Eq.trans (Finset.sum_congr rfl fun c member => ?_) (vanish r low)
    exact congrArg _ (entries (Finset.mem_range.mp member))
  rw [fractionBasis_eq] at zero lengthX
  have sum := combination_eq_total fits lengthX
  obtain ⟨powers, low⟩ := distributeOver_spec fits x
  obtain ⟨U, above, -, unique⟩ := (addsUp_factors split low powers).above
  have none : total (partialNumerators?.distributeOver (factorPowers factors) x) = 0 := by
    rw [zero, map_zero] at sum
    refine (mul_eq_zero.mp sum.symm).resolve_left (map_ne_zero_ratFunc ?_)
    rintro gone
    rw [gone, natDegree_zero] at small
    exact absurd small (Nat.not_lt_zero c)
  rw [none, zero_mul] at above
  have trivial := unique (RatFunc.algebraMap_injective ℚ (by rw [← above, map_zero]))
  exact eq_zero_of_trivial lengthX trivial (w c) (List.mem_map_of_mem (List.mem_range.mpr small))

theorem det_systemMatrix_ne_zero (split : factors.Split d.toPolynomial) :
    (Matrix.of fun r c : Fin d.toPolynomial.natDegree =>
      Elimination.entry (systemMatrix d factors) r c).det ≠ 0 := by
  intro singular
  obtain ⟨v, nonzero, vanish⟩ := Matrix.exists_mulVec_eq_zero_iff.mpr singular
  refine nonzero (funext fun c => ?_)
  let w : ℕ → ℚ := fun c => if small : c < d.toPolynomial.natDegree then v ⟨c, small⟩ else 0
  have none := columns_independent split (w := w) (fun r small => ?_) c c.isLt
  · simpa [w] using none
  · have row := congrFun vanish ⟨r, small⟩
    rw [Matrix.mulVec, dotProduct] at row
    rw [pairing, ← Fin.sum_univ_eq_sum_range]
    simpa [w] using row

/-- The linear system for the numerators has as many unknowns as the denominator has degrees, and is not
singular. -/
structure Regular (d : Poly) (factors : Factors) : Prop where
  basis : (fractionBasis d factors).length = d.degree
  determinant : ∃ matrix, fractionMatrix? d factors = some matrix ∧
    (Matrix.of fun r c : Fin matrix.length => Elimination.entry matrix r c).det ≠ 0

theorem regular_of_split (nonzero : d.toPolynomial ≠ 0) (split : factors.Split d.toPolynomial) :
    Regular d factors := by
  constructor
  · rw [length_fractionBasis split, degree_eq nonzero]
  · refine ⟨_, fractionMatrix?_eq split, ?_⟩
    rw [length_systemMatrix]
    exact det_systemMatrix_ne_zero split

/-- The numerators over the powers of the factors: there are some for every proper fraction, each of a
lower degree than its factor, and the fractions add up to it. -/
theorem exists_partialNumerators {remainder : Poly} (split : factors.Split d.toPolynomial)
    (proper : remainder.toPolynomial.degree < d.toPolynomial.degree) :
    ∃ parts, partialNumerators? remainder d factors = some parts ∧
      parts.map Prod.snd = factorPowers factors ∧ Low parts ∧
      algebraMap ℚ[X] (RatFunc ℚ) remainder.toPolynomial =
        algebraMap ℚ[X] (RatFunc ℚ) d.toPolynomial * total parts := by
  have fits := fits_factorPowers split
  have length := length_fractionBasis split
  have rows := length_systemMatrix d factors
  have square : ∀ row ∈ systemMatrix d factors, row.length = d.toPolynomial.natDegree := by
    intro row member
    obtain ⟨r, -, rfl⟩ := List.mem_map.mp member
    rw [List.length_map, length]
  have sides : ((List.range (systemMatrix d factors).length).map remainder.coeff).length =
      d.toPolynomial.natDegree := by
    rw [List.length_map, List.length_range, rows]
  obtain ⟨solved, singular⟩ := Elimination.solve?_spec square rows sides
  rw [partialNumerators?, fractionMatrix?_eq split, Option.bind_some]
  cases outcome : Elimination.solve? (systemMatrix d factors)
      ((List.range (systemMatrix d factors).length).map remainder.coeff) with
  | none =>
    obtain ⟨w, ⟨c, small, nonzero⟩, vanish⟩ := singular outcome
    exact absurd (columns_independent split vanish c small) nonzero
  | some x =>
    obtain ⟨lengthX, values⟩ := solved x outcome
    have lengthBasis : x.length = (fractionBasis d factors).length := lengthX.trans length.symm
    obtain ⟨powers, low⟩ := distributeOver_spec fits x
    refine ⟨_, rfl, powers, low, ?_⟩
    have equal : combination (fractionBasis d factors) x = remainder.toPolynomial := by
      refine eq_of_coeff_below (degree_combination_lt split lengthBasis) proper fun r below => ?_
      rw [coeff_combination_eq_pairing split x below, values r below, rows, coeff_toPolynomial]
      simp [List.getD_eq_getElem?_getD, below]
    rw [← equal, fractionBasis_eq]
    exact combination_eq_total fits lengthBasis

/-- Where the denominator is not zero, the fractions have values, and these add up as the fractions
do. -/
theorem eval_div_eq_sum {R D : ℚ[X]} (sum : algebraMap ℚ[X] (RatFunc ℚ) R = algebraMap ℚ[X] (RatFunc ℚ) D * total parts)
    (fits : ∀ part ∈ parts, part.2.1.toPolynomial ≠ 0 ∧ part.2.1.toPolynomial ^ part.2.2 ∣ D) {u : ℚ}
    (nonzero : D.eval u ≠ 0) :
    R.eval u / D.eval u =
      (parts.map fun part => part.1.toPolynomial.eval u / part.2.1.toPolynomial.eval u ^ part.2.2).sum := by
  obtain ⟨T, above, value⟩ : ∃ T : ℚ[X],
      algebraMap ℚ[X] (RatFunc ℚ) T = algebraMap ℚ[X] (RatFunc ℚ) D * total parts ∧
        T.eval u = D.eval u *
          (parts.map fun part => part.1.toPolynomial.eval u / part.2.1.toPolynomial.eval u ^ part.2.2).sum := by
    clear sum
    induction parts with
    | nil => exact ⟨0, by simp [total], by simp⟩
    | cons part rest ih =>
      obtain ⟨⟨proper, cofactor, product⟩, later⟩ := List.forall_mem_cons.mp fits
      obtain ⟨T, above, value⟩ := ih later
      have below : part.2.1.toPolynomial.eval u ^ part.2.2 ≠ 0 := by
        rw [product, eval_mul, eval_pow] at nonzero
        exact left_ne_zero_of_mul nonzero
      have belowK := pow_ne_zero part.2.2 (map_ne_zero_ratFunc proper)
      refine ⟨part.1.toPolynomial * cofactor + T, ?_, ?_⟩
      · rw [map_add, above, total_cons, mul_add, fraction]
        congr 1
        rw [product, map_mul, map_mul, map_pow]
        field_simp
      · rw [eval_add, value, List.map_cons, List.sum_cons, mul_add]
        congr 1
        rw [product, eval_mul, eval_mul, eval_pow]
        field_simp
  obtain rfl := RatFunc.algebraMap_injective ℚ (sum.trans above.symm)
  rw [value, mul_div_cancel_left₀ _ nonzero]

end ExactAlgebra.Poly
