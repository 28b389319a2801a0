import ExactAlgebra.Proofs.RootSearch
import Mathlib

/-! Factors with integer coefficients. The polynomial is a number times the product of its factors; the
number is found by comparing leading coefficients. Unless the search for rational roots is skipped, none of
the factors but the linear ones has a rational root. -/
namespace ExactAlgebra.Poly
open Engine Polynomial

variable {p rest : Poly} {factors : Factors} {roots : List ℚ} {limit : ℤ} {context : Context}

/-- The sign of the leading coefficient goes into the number in front. -/
theorem primitive_leading_pos (nonzero : p.toPolynomial ≠ 0) :
    0 < p.primitive.2.toPolynomial.leadingCoeff := by
  have lead : p.leading = p.primitive.1 * p.primitive.2.toPolynomial.leadingCoeff := by
    rw [leading_eq]
    conv_lhs => rw [(primitive_eq nonzero).1]
    rw [leadingCoeff_mul, leadingCoeff_C]
  have other : p.leading ≠ 0 := by
    rw [leading_eq]
    exact leadingCoeff_ne_zero.mpr nonzero
  rw [primitive_content nonzero, contentNum] at lead
  rcases lt_or_gt_of_ne other with below | above
  · rw [if_pos below, Int.cast_neg] at lead
    refine pos_of_mul_neg_right (lead ▸ below) ?_
    exact div_nonpos_of_nonpos_of_nonneg (neg_nonpos.mpr (by positivity)) (by positivity)
  · rw [if_neg above.not_gt] at lead
    exact pos_of_mul_pos_right (lead ▸ above) (by positivity)

theorem TakesApart.leading_pos (run : TakesApart limit p factors) :
    ∀ f ∈ factors, 0 < f.1.toPolynomial.leadingCoeff := by
  intro f member
  rcases run.mem_cases member with ⟨root, same⟩ | ⟨_, rest, g, -, nonzero, divides, same⟩
  · rw [same, toPolynomial_linear_num, leadingCoeff_mul, leadingCoeff_C, leadingCoeff_X_sub_C, mul_one]
    exact Nat.cast_pos.mpr root.den_pos
  · rw [same]
    exact primitive_leading_pos (ne_zero_of_dvd_ne_zero nonzero divides)

/-- None of the numbers whose linear factors were divided out is a root of what is left. -/
theorem Deflates.eval_ne_zero (run : Deflates roots p factors rest) :
    ∀ r ∈ roots, rest.toPolynomial.eval r ≠ 0 := by
  induction run with
  | done => simp
  | @next root roots p q rest _ _ run later ih =>
    intro r member
    rcases List.mem_cons.mp member with rfl | inside
    · intro vanishes
      obtain ⟨-, undivided⟩ := run.eq (irreducible_linear r).ne_zero
      obtain ⟨P, -, -, whole⟩ := later.split
      refine undivided ((associated_linear r).dvd.trans ?_)
      exact (dvd_iff_isRoot.mpr vanishes).trans (Dvd.intro_left P whole)
    · exact ih r inside

theorem degree_of_root (nonzero : p.toPolynomial ≠ 0) {r : ℚ} (root : p.toPolynomial.eval r = 0) :
    ¬ p.degree < 1 := by
  have positive := natDegree_pos_iff_degree_pos.mpr (degree_pos_of_root nonzero root)
  rw [degree_eq nonzero]
  omega

/-- When the search was not given up, all rational roots have gone into linear factors. -/
theorem TakesApart.eval_ne_zero (run : TakesApart limit p factors) (nonzero : p.toPolynomial ≠ 0)
    (searched : ¬ p.primitive.2.degree < 1 → p.primitive.2.Searched limit) :
    ∀ f ∈ factors, 2 ≤ f.1.toPolynomial.natDegree → ∀ r, f.1.toPolynomial.eval r ≠ 0 := by
  intro f member high r vanishes
  rcases run.mem_cases member with ⟨root, same⟩ | ⟨_, rest, g, deflates, nonzeroRest, divides, same⟩
  · have low := natDegree_eq_of_degree_eq (degree_eq_degree_of_associated (associated_linear root))
    rw [natDegree_X_sub_C, ← same] at low
    omega
  · have inside := (associated_primitive (ne_zero_of_dvd_ne_zero nonzeroRest divides)).dvd.trans divides
    rw [← same] at inside
    obtain ⟨P, -, -, whole⟩ := deflates.split
    have rootRest := eval_eq_zero_of_dvd_of_eval_eq_zero inside vanishes
    have root := eval_eq_zero_of_dvd_of_eval_eq_zero (Dvd.intro_left P whole) rootRest
    have proper := degree_of_root ((associated_primitive nonzero).ne_zero_iff.mpr nonzero) root
    exact deflates.eval_ne_zero r ((mem_rationalRoots (searched proper) proper).mpr root) rootRest

theorem toPolynomial_expandFactors (factors : Factors) : (expandFactors factors).toPolynomial = factors.product := by
  have onto (q : Poly) : (factors.foldl (fun p f => mul p (pow f.1 f.2)) q).toPolynomial =
      q.toPolynomial * factors.product := by
    induction factors generalizing q with
    | nil => exact (mul_one _).symm
    | cons f rest ih =>
      rw [List.foldl_cons, ih, Factors.product_cons, toPolynomial_mul, toPolynomial_pow, mul_assoc]
  refine (onto (const 1)).trans ?_
  rw [toPolynomial_const, C_1, one_mul]

/-- The number in front makes up for the leading coefficients of the factors. -/
theorem factorization_product (limit : ℤ) (nonzero : p.toPolynomial ≠ 0) :
    p.toPolynomial = C (p.factorization limit).1 * (p.factorization limit).2.product := by
  have split := factorization_split limit nonzero
  obtain ⟨unit, whole⟩ := split.whole
  obtain ⟨k, -, constant⟩ := Polynomial.isUnit_iff.mp unit.isUnit
  rw [← constant, mul_comm] at whole
  have proper := leadingCoeff_ne_zero.mpr (Factors.product_ne_zero split.ne_zero)
  have scale : (p.factorization limit).1 = k := by
    change p.leading / (expandFactors (p.factorization limit).2).leading = k
    rw [leading_eq, leading_eq, toPolynomial_expandFactors, ← whole, leadingCoeff_mul, leadingCoeff_C,
      mul_div_cancel_right₀ k proper]
  rw [scale]
  exact whole.symm

theorem factorization_zero (limit : ℤ) (zero : p.toPolynomial = 0) : p.factorization limit = (0, []) := by
  obtain rfl : p = Poly.zero := toPolynomial_injective (zero.trans toPolynomial_zero.symm)
  refine Prod.ext ?_ rfl
  exact zero_div _

/-- The polynomial is the number times the product of the factors. These are no constants, have integer
coefficients without a common divisor, the leading one positive, and have no common divisor with each
other. -/
structure Factors.IsFactorization (factors : Factors) (c : ℚ) (P : ℚ[X]) : Prop where
  product : P = C c * factors.product
  proper : ∀ f ∈ factors, 1 ≤ f.1.toPolynomial.natDegree
  multiplicity : ∀ f ∈ factors, 1 ≤ f.2
  primitive : ∀ f ∈ factors, f.1.IsPrimitive
  leading : ∀ f ∈ factors, 0 < f.1.toPolynomial.leadingCoeff
  coprime : factors.Pairwise fun f g => IsCoprime f.1.toPolynomial g.1.toPolynomial

theorem factorization_isFactorization (limit : ℤ) (p : Poly) :
    (p.factorization limit).2.IsFactorization (p.factorization limit).1 p.toPolynomial := by
  by_cases zero : p.toPolynomial = 0
  · rw [factorization_zero limit zero, zero]
    exact ⟨by rw [C_0, zero_mul], by simp, by simp, by simp, by simp, .nil⟩
  · have run := takesApart_factorization limit p
    have split := run.split zero
    exact ⟨factorization_product limit zero, fun f member => (split.proper f member).1,
      fun f member => (split.proper f member).2, run.isPrimitive, run.leading_pos, split.coprime⟩

/-- A polynomial is taken apart to its end, unless a deadline or a setting that is no number stops that. The
factors give it back exactly, and when the search for rational roots is not skipped, no factor of a higher
degree has one. -/
theorem findFactors_isFactorization (context : Context) (p : Poly) :
    Meets context (fun fault => Interrupted context fault ∨ IsUnlimited context fault) p.findFactors fun found =>
      (∃ limit, p.primitive.2.IsLimit (context.scope.settings.get .maxRationalRootCandidates) limit ∧
          TakesApart limit p found.2) ∧
        found.2.IsFactorization found.1 p.toPolynomial ∧
        (p.primitive.2.Unskipped (context.scope.settings.get .maxRationalRootCandidates) →
          ∀ f ∈ found.2, 2 ≤ f.1.toPolynomial.natDegree → ∀ r, f.1.toPolynomial.eval r ≠ 0) := by
  refine (meets_factorization p).imp ?_
  rintro _ ⟨limit, given, rfl⟩
  have run := takesApart_factorization limit p
  refine ⟨⟨limit, given, run⟩, factorization_isFactorization limit p, ?_⟩
  intro unskipped f member
  by_cases zero : p.toPolynomial = 0
  · rw [factorization_zero limit zero] at member
    cases member
  · exact run.eval_ne_zero zero (fun proper => given.searched proper unskipped) f member

/-- In `2*x^3-2*x^2+2*x-2` the candidates one and minus one are tried. -/
theorem factors_of_cubic_without_root :
    ∃ c factors, Yields ⟨Session.initial.scope, callWithin maxCallDepth⟩ (ofList [-2, 2, -2, 2]).findFactors
        (c, factors) ∧
      factors.IsFactorization c (ofList [-2, 2, -2, 2]).toPolynomial ∧
      ∀ f ∈ factors, 2 ≤ f.1.toPolynomial.natDegree → ∀ r, f.1.toPolynomial.eval r ≠ 0 := by
  set context : Context := ⟨Session.initial.scope, callWithin maxCallDepth⟩
  obtain ⟨⟨c, factors⟩, found⟩ := Option.isSome_iff_exists.mp
    (show (((ofList [-2, 2, -2, 2]).findFactors context).run.run 0).1.toOption.isSome = true by decide +kernel)
  have allows : (context.scope.settings.get .maxRationalRootCandidates).isBelow (1 : ℕ) = .ok false := by
    decide +kernel
  clear_value context
  obtain ⟨later, run⟩ := exists_run found
  obtain ⟨-, exact, rootless⟩ := (findFactors_isFactorization context _).returned run
  have primitive : (ofList [-2, 2, -2, 2]).primitive.2.coefficients = [-1, 1, -1, 1] := by decide +kernel
  have nonzero : (ofList [-2, 2, -2, 2]).primitive.2.toPolynomial ≠ 0 := by
    rw [ne_eq, toPolynomial_eq_zero, primitive]
    decide
  have reduces : (ofList [-2, 2, -2, 2]).primitive.2.Reduces
      (C 1 * X ^ 3 + C (-1) * X ^ 2 + C 1 * X + C (-1)) := by
    refine reduces_of_isUnit (by simp) ⟨1, 0, ?_⟩
    rw [toPolynomial, primitive]
    simp only [ofCoefficients, Polynomial.map_add, Polynomial.map_mul, Polynomial.map_pow, map_X,
      Polynomial.map_neg, Polynomial.map_one, C_neg, C_1]
    ring
  have constant : (C 1 * X ^ 3 + C (-1) * X ^ 2 + C 1 * X + C (-1) : ℤ[X]).coeff 0 = -1 := by simp
  have lead : (C 1 * X ^ 3 + C (-1) * X ^ 2 + C 1 * X + C (-1) : ℤ[X]).leadingCoeff = 1 :=
    leadingCoeff_cubic one_ne_zero
  have counts : (Int.natAbs (-1)).divisors.card * (Int.natAbs 1).divisors.card = 1 := by decide
  have unskipped := reduces.unskipped nonzero
    ((Nat.sqrt_le_self _).trans (by rw [constant]; decide)) ((Nat.sqrt_le_self _).trans (by rw [lead]; decide))
    (by rw [constant, lead, counts]; exact allows)
  exact ⟨c, factors, ⟨0, later, run⟩, exact, rootless unskipped⟩

end ExactAlgebra.Poly
