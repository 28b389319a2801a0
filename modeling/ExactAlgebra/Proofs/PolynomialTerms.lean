import ExactAlgebra.Algebra.Polynomial
import ExactAlgebra.Proofs.Expansion
import ExactAlgebra.Proofs.RationalFunctions
import ExactAlgebra.Proofs.RationalRoots
import Mathlib

/-! Polynomials in one unknown written out as expressions. Nothing stops that but a degree too long to
be written out itself; the coefficient in front of a primitive polynomial is one or minus one. -/
namespace ExactAlgebra.Expr
open MvPolynomial (C X)

variable {x : String} {p : Poly} {e : Expr}

noncomputable def inUnknown (x : String) (P : Polynomial ℚ) : MvPolynomial String ℚ := Polynomial.aeval (X x) P

theorem totalDegree_inUnknown_le (x : String) (P : Polynomial ℚ) : (inUnknown x P).totalDegree ≤ P.natDegree := by
  rw [inUnknown, Polynomial.aeval_eq_sum_range]
  refine (MvPolynomial.totalDegree_finsetSum _ _).trans (Finset.sup_le fun n member => ?_)
  refine (MvPolynomial.totalDegree_smul_le _ _).trans ?_
  rw [MvPolynomial.totalDegree_X_pow]
  exact Nat.lt_succ_iff.mp (Finset.mem_range.mp member)

theorem eval_inUnknown (ρ : String → ℚ) (x : String) (P : Polynomial ℚ) :
    MvPolynomial.eval ρ (inUnknown x P) = P.eval (ρ x) := by
  induction P using Polynomial.induction_on' with
  | add P Q ihP ihQ => rw [inUnknown, map_add, map_add, ← inUnknown, ← inUnknown, ihP, ihQ, Polynomial.eval_add]
  | monomial n c => simp [inUnknown, Polynomial.aeval_monomial, MvPolynomial.algebraMap_eq]

/-- The coefficients are those of the powers of the unknown. -/
theorem coeff_inUnknown (x : String) (P : Polynomial ℚ) (s : String →₀ ℕ) :
    (inUnknown x P).coeff s = if s = Finsupp.single x (s x) then P.coeff (s x) else 0 := by
  induction P using Polynomial.induction_on' with
  | add P Q ihP ihQ =>
    rw [inUnknown, map_add, MvPolynomial.coeff_add, ← inUnknown, ← inUnknown, ihP, ihQ]
    split
    · rw [Polynomial.coeff_add]
    · rw [add_zero]
  | monomial n c =>
    rw [inUnknown, Polynomial.aeval_monomial, MvPolynomial.algebraMap_eq, MvPolynomial.coeff_C_mul,
      MvPolynomial.coeff_X_pow, Polynomial.coeff_monomial]
    by_cases power : Finsupp.single x n = s
    · subst power
      simp
    · rw [if_neg power, mul_zero]
      split
      next single =>
        rw [if_neg]
        rintro rfl
        exact power single.symm
      next => rfl

theorem inUnknown_injective (x : String) : Function.Injective (inUnknown x) := by
  intro P Q same
  ext n
  have coefficients := congrArg (MvPolynomial.coeff (Finsupp.single x n)) same
  rwa [coeff_inUnknown, coeff_inUnknown, Finsupp.single_eq_same, if_pos rfl, if_pos rfl] at coefficients

section

variable (named : Identifier x) (unknown : isVariableName x = true)

include named unknown

theorem wellFormed_symbol {c : ℚ} (nonzero : c ≠ 0) {k : ℤ} (power : k ≠ 0) : (symbol c x k).WellFormed := by
  obtain ⟨digits, imaginary⟩ := isVariableName_eq unknown
  refine ⟨nonzero, Int.cast_ne_zero.mpr power, .inl named, fun text => ?_, fun same => ?_⟩
  · rw [digits] at text
    cases text
  · rw [same] at imaginary
    cases imaginary

theorem plainFactor_symbol {k : ℤ} (power : k ≠ 0) : PlainFactor .rational (symbol 1 x k) :=
  ⟨wellFormed_symbol named unknown one_ne_zero power, ⟨rfl, rfl, rfl⟩, .symbol unknown (Rat.den_intCast k)⟩

theorem powRat_symbol {k l : ℤ} (nonzero : k ≠ 0) (power : l ≠ 0) :
    (symbol 1 x k).powRat l = .ok (symbol 1 x (k * l : ℤ)) := by
  obtain ⟨work, limit⟩ := enough_for_one (symbol 1 x k) (symbol 1 x k)
  rw [powRat, limit, Int.cast_mul]
  by_cases one : l = 1
  · subst one
    unfold powRatWithin
    simp
  · exact (plainFactor_symbol named unknown nonzero).powRatWithin_eq (Rat.den_intCast l)
      (Int.cast_ne_zero.mpr power) (by exact_mod_cast one) work

theorem powRat_bare {n : ℕ} (positive : n ≠ 0) : (bare x).powRat n = .ok (symbol 1 x n) := by
  have raised := powRat_symbol named unknown one_ne_zero (Nat.cast_ne_zero.mpr positive)
  rwa [one_mul, Int.cast_one, Int.cast_natCast] at raised

theorem represents_power {n : ℕ} (positive : n ≠ 0) :
    Represents (inUnknown x (Polynomial.X ^ n)) (symbol 1 x n) := by
  have formed := wellFormed_symbol named unknown one_ne_zero (Nat.cast_ne_zero.mpr positive)
  rw [Int.cast_natCast] at formed
  have power : Scheme.polynomial.powers n := ⟨Rat.den_natCast n, by exact_mod_cast Nat.pos_of_ne_zero positive⟩
  refine ⟨IsMonomial.expanded ⟨formed, .symbol unknown power⟩, ?_⟩
  simp [denote, inUnknown]

/-- The terms of a polynomial, the lowest first, are added to an expression of another polynomial. -/
theorem addTerms_outcome (cs : List ℚ) (n limit : ℕ) {s : MvPolynomial String ℚ} (represents : Represents s e)
    (bound : s.totalDegree ≤ limit) (room : n + cs.length ≤ limit + 1) :
    (∃ r, Poly.addTerms x n e cs = .ok r ∧
      Represents (s + inUnknown x (Polynomial.X ^ n * Poly.ofCoefficients cs)) r) ∨
    (Poly.addTerms x n e cs = .error .unsupported ∧ Rational.digitBound ≤ limit) := by
  induction cs generalizing n s e with
  | nil => exact .inl ⟨e, rfl, by simpa [Poly.ofCoefficients, inUnknown] using represents⟩
  | cons c cs ih =>
    have shifted : inUnknown x (Polynomial.X ^ n * Poly.ofCoefficients (c :: cs)) =
        C c * inUnknown x (Polynomial.X ^ n) +
          inUnknown x (Polynomial.X ^ (n + 1) * Poly.ofCoefficients cs) := by
      simp only [inUnknown, Poly.ofCoefficients, map_mul, map_add, map_pow, Polynomial.aeval_X,
        Polynomial.aeval_C, MvPolynomial.algebraMap_eq]
      ring
    rw [List.length_cons] at room
    rw [shifted]
    by_cases zero : c = 0
    · rw [Poly.addTerms, if_pos zero, zero, MvPolynomial.C_0, zero_mul, zero_add]
      exact ih (n + 1) represents bound (by omega)
    · obtain ⟨power, representsPower, step⟩ : ∃ power, Represents (inUnknown x (Polynomial.X ^ n)) power ∧
          Poly.addTerms x n e (c :: cs) =
            e.add (power.scale c) >>= fun sum => Poly.addTerms x (n + 1) sum cs := by
        rw [Poly.addTerms, if_neg zero]
        by_cases first : n = 0
        · subst first
          exact ⟨one, by simpa [inUnknown, one] using represents_number 1, rfl⟩
        · refine ⟨_, represents_power named unknown first, ?_⟩
          rw [if_neg first, powRat_bare named unknown first]
          rfl
      have degree : (C c * inUnknown x (Polynomial.X ^ n)).totalDegree ≤ limit := by
        refine (totalDegree_C_mul _ _).trans ((totalDegree_inUnknown_le _ _).trans ?_)
        rw [Polynomial.natDegree_X_pow]
        omega
      rw [step]
      rcases represents.add (representsPower.scale c) bound degree with ⟨sum, added, total⟩ | ⟨refused, long⟩
      · rw [added, ← add_assoc]
        exact ih (n + 1) total ((MvPolynomial.totalDegree_add _ _).trans (max_le bound degree)) (by omega)
      · rw [refused]
        exact .inr ⟨rfl, long⟩

/-- A polynomial is written out as an expression of it, unless its degree is too long. -/
theorem toExpr_outcome (p : Poly) :
    (∃ e, p.toExpr x = .ok e ∧ Represents (inUnknown x p.toPolynomial) e) ∨
      (p.toExpr x = .error .unsupported ∧ Rational.digitBound ≤ p.toPolynomial.natDegree) := by
  have outcome := addTerms_outcome named unknown p.coefficients 0 p.toPolynomial.natDegree
    represents_zero (by simp) (by rw [Poly.natDegree_toPolynomial]; omega)
  rw [pow_zero, one_mul, zero_add] at outcome
  exact outcome

end

theorem BuiltBy.rational (built : BuiltBy .polynomial e) : BuiltBy .rational e :=
  built.mono (fun _ power => power.1) fun _ => id

theorem IsPolynomial.isRationalFunction (poly : IsPolynomial e) : IsRationalFunction e :=
  ⟨poly.formed, poly.built.rational⟩

theorem Represents.eval_eq {P : Polynomial ℚ} (represents : Represents (inUnknown x P) e) (ρ : String → ℚ) :
    eval ρ e = P.eval (ρ x) := by
  rw [← eval_denote represents.expanded.isPolynomial.built, represents.value, eval_inUnknown]

/-- The coefficients of the terms are whole multiples of the one in front. -/
theorem WellFormed.exists_eq_mul_coeff (formed : e.WellFormed) {t : Expr} (member : t ∈ e.summands) :
    ∃ k : ℤ, t.coeff = k * e.coeff := by
  rcases summands_cases e with single | ⟨c, terms, rfl⟩
  · rw [single] at member
    obtain rfl := List.mem_singleton.mp member
    exact ⟨1, by rw [Int.cast_one, one_mul]⟩
  · rw [summands_plain] at member
    obtain ⟨u, inside, rfl⟩ := List.mem_map.mp member
    refine ⟨u.coeff.num, ?_⟩
    rw [(allWellFormed_iff.mp formed.2.2.2 u inside).coeff_withCoeff,
      Rat.coe_int_num_of_den_eq_one (formed.2.2.1.integral u inside), coeff]

/-- When the coefficients of the terms are whole, the one in front is. -/
theorem WellFormed.coeff_den (formed : e.WellFormed) (whole : ∀ t ∈ e.summands, t.coeff.den = 1) :
    e.coeff.den = 1 := by
  rcases summands_cases e with single | ⟨c, terms, rfl⟩
  · exact whole e (by rw [single]; exact List.mem_singleton_self e)
  · obtain ⟨nonzero, -, normal, all⟩ := formed
    have divided : (terms.map fun t => t.coeff * c).map (· / c) = terms.map coeff := by
      rw [List.map_map]
      exact List.map_congr_left fun t _ => mul_div_cancel_right₀ t.coeff nonzero
    have one := @den_eq_one_of_coprime (terms.map fun t => t.coeff * c) c 1 nonzero ?_ ?_ ?_
    · rwa [div_one] at one
    · intro k member
      obtain ⟨t, inside, rfl⟩ := List.mem_map.mp member
      rw [mul_div_cancel_right₀ _ nonzero]
      exact normal.integral t inside
    · intro k member
      obtain ⟨t, inside, rfl⟩ := List.mem_map.mp member
      have term : t.withCoeff (t.coeff * c) ∈ (sum c terms 1).summands := by
        rw [summands_plain]
        exact List.mem_map_of_mem inside
      have integral := whole _ term
      rwa [(allWellFormed_iff.mp all t inside).coeff_withCoeff, ← div_one (t.coeff * c)] at integral
    · rw [divided]
      exact normal.coprime

theorem Expanded.coeff_cases (expanded : Expanded e) (s : String →₀ ℕ) :
    (∃ t ∈ e.summands, (denote e).coeff s = t.coeff) ∨ (denote e).coeff s = 0 := by
  rw [← denote_summands]
  by_cases present : s ∈ e.summands.map exponents
  · obtain ⟨t, member, rfl⟩ := List.mem_map.mp present
    exact .inl ⟨t, member, coeff_sum_of_mem expanded.isMonomial expanded.distinct member⟩
  · exact .inr (coeff_sum_of_notMem expanded.isMonomial present)

/-- In front of a primitive polynomial stands no number but a sign. -/
theorem Represents.coeff_eq_or (represents : Represents (inUnknown x p.toPolynomial) e) (primitive : p.IsPrimitive) :
    e.coeff = 1 ∨ e.coeff = -1 := by
  obtain ⟨expanded, value⟩ := represents
  have size : e.coeff.num.natAbs = 1 := by
    refine primitive.coprime _ fun n => ?_
    have entry : (denote e).coeff (Finsupp.single x n) = p.coeff n := by
      rw [value, coeff_inUnknown, Finsupp.single_eq_same, if_pos rfl, Poly.coeff_toPolynomial]
    rw [← entry]
    rcases expanded.coeff_cases (Finsupp.single x n) with ⟨t, member, same⟩ | zero
    · obtain ⟨k, multiple⟩ := expanded.formed.exists_eq_mul_coeff member
      rw [same]
      exact Int.natAbs_dvd_natAbs.mpr (num_dvd_and_den_dvd multiple).1
    · rw [zero]
      exact dvd_zero _
  have whole : e.coeff.den = 1 := by
    refine expanded.formed.coeff_den fun t member => ?_
    rw [← expanded.coeff_denote member, value, coeff_inUnknown]
    split
    · rw [Poly.coeff_toPolynomial]
      exact primitive.integral _
    · rfl
  rw [← Rat.coe_int_num_of_den_eq_one whole]
  exact (Int.natAbs_eq_iff.mp size).imp (by rintro same; rw [same]; rfl) (by rintro same; rw [same]; rfl)

end ExactAlgebra.Expr
