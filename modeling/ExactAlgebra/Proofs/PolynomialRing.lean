import ExactAlgebra.Proofs.Factorization
import Mathlib

/-! The ring of polynomials in one unknown. Every polynomial has one list of coefficients, the operations on
coefficient lists are those of the ring, and long division gives the one quotient and the one remainder. -/
namespace ExactAlgebra.Poly
open Polynomial

variable {p q : Poly} {P Q R : ℚ[X]}

theorem toPolynomial_surjective : Function.Surjective toPolynomial := by
  intro P
  refine ⟨ofList ((List.range (P.natDegree + 1)).map P.coeff), Polynomial.ext fun n => ?_⟩
  rw [toPolynomial_ofList, coeff_ofCoefficients]
  rcases lt_or_ge n (P.natDegree + 1) with listed | beyond
  · rw [List.getD_eq_getElem _ _ (by simpa using listed), List.getElem_map, List.getElem_range]
  · rw [List.getD_eq_default _ _ (by simpa using beyond), coeff_eq_zero_of_natDegree_lt (by omega)]

/-- Coefficient lists without a zero at the end and polynomials are the same. -/
theorem toPolynomial_bijective : Function.Bijective toPolynomial :=
  ⟨toPolynomial_injective, toPolynomial_surjective⟩

theorem beq_iff : (p == q) = true ↔ p.toPolynomial = q.toPolynomial := by
  change (p.coefficients == q.coefficients) = true ↔ _
  rw [beq_iff_eq, toPolynomial_injective.eq_iff]
  constructor
  · intro same
    cases p
    cases same
    rfl
  · exact congrArg coefficients

@[simp] theorem toPolynomial_add (p q : Poly) : (add p q).toPolynomial = p.toPolynomial + q.toPolynomial := by
  rw [add, toPolynomial_ofList, ofCoefficients_addLists, toPolynomial, toPolynomial]

@[simp] theorem toPolynomial_neg (p : Poly) : (neg p).toPolynomial = -p.toPolynomial := by
  have negated : p.neg = p.scale (-1) := by simp [neg, scale]
  rw [negated, toPolynomial_scale, C_neg, C_1, neg_one_mul]

@[simp] theorem toPolynomial_sub (p q : Poly) : (sub p q).toPolynomial = p.toPolynomial - q.toPolynomial := by
  rw [sub, toPolynomial_add, toPolynomial_neg, sub_eq_add_neg]

/-- Division with remainder: the remainder is zero or of a lower degree than the divisor. -/
structure IsDivision (dividend divisor quotient remainder : ℚ[X]) : Prop where
  division : dividend = quotient * divisor + remainder
  smaller : remainder = 0 ∨ remainder.natDegree < divisor.natDegree

theorem degree_lt_iff {divisor remainder : ℚ[X]} (nonzero : divisor ≠ 0) :
    remainder.degree < divisor.degree ↔ remainder = 0 ∨ remainder.natDegree < divisor.natDegree := by
  rcases eq_or_ne remainder 0 with rfl | proper
  · simpa [bot_lt_iff_ne_bot] using nonzero
  · rw [degree_eq_natDegree proper, degree_eq_natDegree nonzero, Nat.cast_lt]
    simp [proper]

/-- Two divisions of the same polynomials agree, because the difference of their remainders is a multiple of
the divisor of lower degree. -/
theorem IsDivision.unique {dividend divisor quotient remainder : ℚ[X]} (nonzero : divisor ≠ 0)
    (first : IsDivision dividend divisor quotient remainder) (second : IsDivision dividend divisor Q R) :
    Q = quotient ∧ R = remainder := by
  have difference : R - remainder = (quotient - Q) * divisor := by
    have same := first.division.symm.trans second.division
    linear_combination -same
  have smaller : (R - remainder).degree < divisor.degree :=
    (degree_sub_le _ _).trans_lt
      (max_lt ((degree_lt_iff nonzero).mpr second.smaller) ((degree_lt_iff nonzero).mpr first.smaller))
  have remainders : R - remainder = 0 :=
    eq_zero_of_dvd_of_degree_lt (difference ▸ dvd_mul_left divisor (quotient - Q)) smaller
  have quotients : quotient - Q = 0 :=
    (mul_eq_zero.mp (difference.symm.trans remainders)).resolve_right nonzero
  exact ⟨(sub_eq_zero.mp quotients).symm, sub_eq_zero.mp remainders⟩

theorem isDivision_quotRem (p : Poly) (nonzero : q.toPolynomial ≠ 0) :
    IsDivision p.toPolynomial q.toPolynomial (quotRem p q).1.toPolynomial (quotRem p q).2.toPolynomial := by
  obtain ⟨division, smaller⟩ := quotRem_eq p nonzero
  exact ⟨division, (degree_lt_iff nonzero).mp smaller⟩

theorem divMod_of_ne_zero (p : Poly) (nonzero : q.toPolynomial ≠ 0) : divMod p q = .ok (quotRem p q) :=
  if_neg fun zero => nonzero ((isZero_iff q).mp zero)

/-- Division is refused exactly for the divisor zero. -/
theorem divMod_refused_iff :
    (∃ fault, divMod p q = .error fault ∧ fault.kind = .divisionByZero) ↔ q.toPolynomial = 0 := by
  constructor
  · rintro ⟨fault, refused, -⟩
    by_contra nonzero
    cases refused.symm.trans (divMod_of_ne_zero p nonzero)
  · intro zero
    exact ⟨_, if_pos ((isZero_iff q).mpr zero), rfl⟩

/-- The arithmetic on coefficient lists is that of the polynomials with rational coefficients. -/
theorem computes_in_polynomial_ring (p q : Poly) :
    Function.Bijective toPolynomial ∧
      (∀ n, p.toPolynomial.coeff n = p.coeff n) ∧
      (add p q).toPolynomial = p.toPolynomial + q.toPolynomial ∧
      (neg p).toPolynomial = -p.toPolynomial ∧
      (sub p q).toPolynomial = p.toPolynomial - q.toPolynomial ∧
      (mul p q).toPolynomial = p.toPolynomial * q.toPolynomial ∧
      (∀ k, (scale p k).toPolynomial = C k * p.toPolynomial) ∧
      (∀ n, (pow p n).toPolynomial = p.toPolynomial ^ n) ∧
      p.derivative.toPolynomial = Polynomial.derivative p.toPolynomial ∧
      (∀ x, p.evaluate x = p.toPolynomial.eval x) ∧
      ((p == q) = true ↔ p.toPolynomial = q.toPolynomial) ∧
      ((∃ fault, divMod p q = .error fault ∧ fault.kind = .divisionByZero) ↔ q.toPolynomial = 0) ∧
      (q.toPolynomial = 0 ∨ ∃ quotient remainder, divMod p q = .ok (quotient, remainder) ∧
        IsDivision p.toPolynomial q.toPolynomial quotient.toPolynomial remainder.toPolynomial ∧
        ∀ Q R, IsDivision p.toPolynomial q.toPolynomial Q R →
          Q = quotient.toPolynomial ∧ R = remainder.toPolynomial) := by
  refine ⟨toPolynomial_bijective, coeff_toPolynomial p, toPolynomial_add p q, toPolynomial_neg p,
    toPolynomial_sub p q, toPolynomial_mul p q, toPolynomial_scale p, toPolynomial_pow p,
    toPolynomial_derivative p, evaluate_eq p, beq_iff, divMod_refused_iff, ?_⟩
  rcases eq_or_ne q.toPolynomial 0 with zero | nonzero
  · exact .inl zero
  · have division := isDivision_quotRem p nonzero
    exact .inr ⟨_, _, divMod_of_ne_zero p nonzero, division, fun _ _ => division.unique nonzero⟩

/-- Five times the fourth power and two, divided by the square and one. -/
example : (quotRem (ofList [2, 0, 0, 0, 5]) (ofList [1, 0, 1])).1.coefficients = [-5, 0, 5] ∧
    (quotRem (ofList [2, 0, 0, 0, 5]) (ofList [1, 0, 1])).2.coefficients = [7] := by decide +kernel

end ExactAlgebra.Poly
