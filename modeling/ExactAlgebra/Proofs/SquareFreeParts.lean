import ExactAlgebra.Proofs.Factorization
import Mathlib

/-! Square-free parts. What is split off at one multiplicity after the other is monic, has no factor twice,
and the parts to their multiplicities give the monic polynomial back. -/
namespace ExactAlgebra.Poly
open Polynomial

variable {p w c : Poly} {m : ℕ} {factors : Factors}

theorem monic_toPolynomial (nonzero : p.toPolynomial ≠ 0) : p.monic.toPolynomial.Monic := by
  have lead : p.toPolynomial.leadingCoeff ≠ 0 := leadingCoeff_ne_zero.mpr nonzero
  rw [monic, if_neg fun zero => nonzero ((isZero_iff p).mp zero), toPolynomial_scale, leading_eq]
  exact monic_C_mul_of_mul_leadingCoeff_eq_one (inv_mul_cancel₀ lead)

namespace Factors

/-- Parts by rising multiplicity: monic polynomials, no constants, without a common divisor with each other
or with their own derivative. Their product to the multiplicities is the whole. -/
structure IsSquareFreeDecomposition (parts : Factors) (P : ℚ[X]) : Prop where
  rising : parts.Pairwise fun f g => f.2 < g.2
  positive : ∀ f ∈ parts, 0 < f.2
  monic : ∀ f ∈ parts, f.1.toPolynomial.Monic
  proper : ∀ f ∈ parts, 0 < f.1.toPolynomial.natDegree
  separable : ∀ f ∈ parts, IsCoprime f.1.toPolynomial (Polynomial.derivative f.1.toPolynomial)
  coprime : parts.Pairwise fun f g => IsCoprime f.1.toPolynomial g.1.toPolynomial
  product : parts.product = P

theorem monic_product (monic : ∀ f ∈ factors, f.1.toPolynomial.Monic) : factors.product.Monic := by
  induction factors with
  | nil => exact monic_one
  | cons f rest ih =>
    obtain ⟨first, later⟩ := List.forall_mem_cons.mp monic
    rw [product_cons]
    exact (first.pow f.2).mul (ih later)

end Factors

theorem SplitsOff.le (run : SplitsOff m w c factors) : ∀ f ∈ factors, m ≤ f.2 := by
  induction run with
  | done => simp
  | @part m w c rest _ _ _ ih =>
    intro f member
    rcases List.mem_cons.mp member with rfl | inside
    · exact le_rfl
    · exact (Nat.le_succ m).trans (ih f inside)
  | @none m w c rest _ _ _ ih => exact fun f member => (Nat.le_succ m).trans (ih f member)

/-- What comes later has a higher multiplicity. -/
theorem SplitsOff.rising (run : SplitsOff m w c factors) : factors.Pairwise fun f g => f.2 < g.2 := by
  induction run with
  | done => exact .nil
  | part _ _ later ih => exact .cons (fun f member => later.le f member) ih
  | none _ _ _ ih => exact ih

/-- Every part is a monic divisor of the first polynomial, in which no factor occurs twice. -/
theorem SplitsOff.monic_and_dvd (run : SplitsOff m w c factors)
    (covers : Covers w.toPolynomial c.toPolynomial) :
    ∀ f ∈ factors, f.1.toPolynomial.Monic ∧ f.1.toPolynomial ∣ w.toPolynomial := by
  induction run with
  | done => simp
  | @part m w c rest _ _ _ ih =>
    obtain ⟨first, -, coversNext, -⟩ := covers.parted
    intro f member
    rcases List.mem_cons.mp member with rfl | inside
    · constructor
      · exact monic_toPolynomial covers.quot_ne_zero
      · exact (associated_monic _).dvd.trans (Dvd.intro _ first)
    · obtain ⟨monic, divides⟩ := ih coversNext f inside
      exact ⟨monic, divides.trans (Dvd.intro_left _ first)⟩
  | @none m w c rest _ _ _ ih =>
    obtain ⟨first, -, coversNext, -⟩ := covers.parted
    intro f member
    obtain ⟨monic, divides⟩ := ih coversNext f member
    exact ⟨monic, divides.trans (Dvd.intro_left _ first)⟩

/-- The square-free parts of a polynomial that is no constant. The splitting comes to its end with them,
their multiplicities rise, and their product is the monic polynomial. -/
theorem squareFree_isSquareFreeDecomposition (proper : 1 ≤ p.degree) :
    SplitsOff 1 (quot p.monic p.repeated) p.repeated p.squareFree ∧
      p.squareFree.IsSquareFreeDecomposition p.monic.toPolynomial := by
  have nonzero := toPolynomial_ne_zero_of_degree (not_lt.mpr proper)
  have covers := covers_repeated nonzero
  have run := splitsOff_squareFree (not_lt.mpr proper)
  have split := run.split_of_repeated nonzero
  have each := run.monic_and_dvd covers
  refine ⟨run, ?_⟩
  constructor
  case rising => exact run.rising
  case positive => exact run.le
  case monic => exact fun f member => (each f member).1
  case proper => exact fun f member => (split.proper f member).1
  case separable =>
    intro f member
    have squarefree := covers.squarefree.squarefree_of_dvd (each f member).2
    exact PerfectField.separable_iff_squarefree.mpr squarefree
  case coprime => exact split.coprime
  case product =>
    have monic := Factors.monic_product fun f member => (each f member).1
    have same := split.whole.trans (associated_monic p).symm
    exact eq_of_monic_of_associated monic (monic_toPolynomial nonzero) same

/-- In twice the square of `x` times the fourth power of `x-1` nothing has multiplicity one or three. -/
theorem square_times_fourth_power_squareFree :
    1 ≤ (ofList [0, 0, 2, -8, 12, -8, 2]).degree ∧
      ((ofList [0, 0, 2, -8, 12, -8, 2]).squareFree.map fun f => (f.1.coefficients, f.2)) =
        [([0, 1], 2), ([-1, 1], 4)] ∧
      (ofList [0, 0, 2, -8, 12, -8, 2]).squareFree.IsSquareFreeDecomposition
        (ofList [0, 0, 2, -8, 12, -8, 2]).monic.toPolynomial := by
  have proper : 1 ≤ (ofList [0, 0, 2, -8, 12, -8, 2]).degree := by decide
  refine ⟨proper, by decide +kernel, ?_⟩
  exact (squareFree_isSquareFreeDecomposition proper).2

end ExactAlgebra.Poly
