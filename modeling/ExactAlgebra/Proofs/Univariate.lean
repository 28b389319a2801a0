import ExactAlgebra.Poly.Factorization
import Mathlib

/-! Coefficient lists as polynomials. Long division gives the quotient and remainder of the division
algorithm, and dividing a linear factor out takes away one root with its multiplicity. -/
namespace ExactAlgebra.Poly
open Polynomial

/-- The polynomial with these coefficients, the lowest first. -/
noncomputable def ofCoefficients : List ℚ → ℚ[X]
  | [] => 0
  | c :: cs => C c + X * ofCoefficients cs

/-- The polynomial of algebra that the coefficients stand for. -/
noncomputable def toPolynomial (p : Poly) : ℚ[X] := ofCoefficients p.coefficients

theorem ofCoefficients_trimZeros (cs : List ℚ) :
    ofCoefficients (trimZeros cs) = ofCoefficients cs := by
  induction cs with
  | nil => rfl
  | cons c cs ih =>
    rw [trimZeros, ofCoefficients, ← ih]
    split
    next none =>
      rw [none]
      split
      next zero => simp [ofCoefficients, zero]
      next => rfl
    next some => rw [some, ofCoefficients]

@[simp] theorem toPolynomial_ofList (cs : List ℚ) : (ofList cs).toPolynomial = ofCoefficients cs :=
  ofCoefficients_trimZeros cs

@[simp] theorem toPolynomial_zero : zero.toPolynomial = 0 := toPolynomial_ofList []

theorem coeff_ofCoefficients (cs : List ℚ) (n : ℕ) : (ofCoefficients cs).coeff n = cs.getD n 0 := by
  induction cs generalizing n with
  | nil => simp [ofCoefficients]
  | cons c cs ih =>
    cases n with
    | zero => simp [ofCoefficients]
    | succ n => simp [ofCoefficients, coeff_X_mul, ih]

theorem coeff_toPolynomial (p : Poly) (n : ℕ) : p.toPolynomial.coeff n = p.coeff n :=
  coeff_ofCoefficients p.coefficients n

theorem ofCoefficients_append (cs ds : List ℚ) :
    ofCoefficients (cs ++ ds) = ofCoefficients cs + X ^ cs.length * ofCoefficients ds := by
  induction cs with
  | nil => simp [ofCoefficients]
  | cons c cs ih =>
    rw [List.cons_append, ofCoefficients, ofCoefficients, ih, List.length_cons, pow_succ]
    ring

/-- Horner's rule gives the value of the polynomial, in every commutative algebra. -/
theorem aeval_ofCoefficients {A : Type*} [CommRing A] [Algebra ℚ A] (cs : List ℚ) (x : A) :
    aeval x (ofCoefficients cs) = cs.foldr (fun c value => value * x + algebraMap ℚ A c) 0 := by
  induction cs with
  | nil => simp [ofCoefficients]
  | cons c cs ih =>
    rw [ofCoefficients, map_add, map_mul, aeval_C, aeval_X, ih, List.foldr_cons]
    ring

theorem evaluate_eq (p : Poly) (x : ℚ) : p.evaluate x = p.toPolynomial.eval x := by
  rw [← coe_aeval_eq_eval, toPolynomial, aeval_ofCoefficients]
  rfl

theorem toPolynomial_eq_zero (p : Poly) : p.toPolynomial = 0 ↔ p.coefficients = [] := by
  constructor
  · intro zero
    cases shape : p.coefficients with
    | nil => rfl
    | cons c cs =>
      have last := p.normal
      have vanishes : (c :: cs).getD cs.length 0 = 0 := by
        rw [← coeff_ofCoefficients, ← shape]
        change p.toPolynomial.coeff _ = 0
        rw [zero, coeff_zero]
      rw [shape, List.getLast?_eq_getElem?] at last
      rw [List.getD_eq_getElem?_getD] at vanishes
      simp_all
  · intro none
    rw [toPolynomial, none, ofCoefficients]

theorem isZero_iff (p : Poly) : p.isZero = true ↔ p.toPolynomial = 0 := by
  rw [toPolynomial_eq_zero, isZero, List.isEmpty_iff]

theorem natDegree_toPolynomial (p : Poly) : p.toPolynomial.natDegree = p.coefficients.length - 1 := by
  cases shape : p.coefficients with
  | nil => rw [(toPolynomial_eq_zero p).mpr shape, natDegree_zero, List.length_nil]
  | cons c cs =>
    have last := p.normal
    rw [List.length_cons, Nat.add_sub_cancel]
    refine natDegree_eq_of_le_of_coeff_ne_zero (natDegree_le_iff_coeff_eq_zero.mpr ?_) ?_
    · intro n beyond
      rw [coeff_toPolynomial, coeff, shape, List.getD_eq_default]
      rw [List.length_cons]
      omega
    · rw [coeff_toPolynomial, coeff, shape]
      rw [shape, List.getLast?_eq_getElem?] at last
      rw [List.getD_eq_getElem?_getD]
      simp_all

theorem degree_eq {p : Poly} (nonzero : p.toPolynomial ≠ 0) : p.degree = p.toPolynomial.natDegree := by
  have some : p.coefficients ≠ [] := fun none => nonzero ((toPolynomial_eq_zero p).mpr none)
  have positive := List.length_pos_iff.mpr some
  rw [natDegree_toPolynomial, degree]
  omega

theorem leading_eq (p : Poly) : p.leading = p.toPolynomial.leadingCoeff := by
  rw [leadingCoeff, natDegree_toPolynomial, coeff_toPolynomial, leading, coeff,
    List.getLast?_eq_getElem?, List.getD_eq_getElem?_getD]

/-- Degree and leading coefficient can be read off coefficients that do not end with a zero, unless it is the
only one. -/
theorem degree_ofCoefficients {cs : List ℚ} (present : cs ≠ []) (last : 2 ≤ cs.length → cs.getLastD 0 ≠ 0) :
    cs.length = (ofCoefficients cs).natDegree + 1 ∧ cs.getLastD 0 = (ofCoefficients cs).leadingCoeff := by
  match cs, present with
  | [c], _ => simp [ofCoefficients]
  | c :: d :: rest, _ =>
    have normal : (c :: d :: rest).getLast? ≠ some 0 := by
      intro zero
      refine last (by simp) ?_
      rw [List.getLastD_eq_getLast?, zero, Option.getD_some]
    have degree := natDegree_toPolynomial ⟨c :: d :: rest, normal⟩
    have leading := leading_eq ⟨c :: d :: rest, normal⟩
    rw [toPolynomial] at degree leading
    refine ⟨by rw [degree]; rfl, ?_⟩
    rw [← leading, Poly.leading, List.getLastD_eq_getLast?]

theorem toPolynomial_injective : Function.Injective toPolynomial := by
  intro p q same
  have lengths : p.coefficients.length = q.coefficients.length := by
    rcases eq_or_ne p.toPolynomial 0 with zero | nonzero
    · rw [(toPolynomial_eq_zero p).mp zero, (toPolynomial_eq_zero q).mp (same ▸ zero)]
    · have degrees := degree_eq nonzero
      rw [same, ← degree_eq (same ▸ nonzero), degree, degree] at degrees
      omega
  have coefficients : p.coefficients = q.coefficients := by
    refine List.ext_getElem lengths fun n inP inQ => ?_
    have each := congrArg (fun f => f.coeff n) same
    simp only [coeff_toPolynomial, coeff] at each
    rwa [List.getD_eq_getElem _ _ inP, List.getD_eq_getElem _ _ inQ] at each
  cases p
  cases q
  simp_all

/-- A polynomial is known by its coefficients. -/
theorem eq_ofList {p? : Option Poly} {cs : List ℚ} (same : p?.map coefficients = some cs) :
    p? = some (ofList cs) := by
  obtain ⟨p, rfl, rfl⟩ := Option.map_eq_some_iff.mp same
  exact congrArg some (toPolynomial_injective (toPolynomial_ofList _).symm)

/-- The polynomial with these coefficients, the highest first. -/
noncomputable def ofHighest (cs : List ℚ) : ℚ[X] := ofCoefficients cs.reverse

theorem ofHighest_nil : ofHighest [] = 0 := rfl

theorem ofHighest_cons (c : ℚ) (cs : List ℚ) :
    ofHighest (c :: cs) = C c * X ^ cs.length + ofHighest cs := by
  rw [ofHighest, ofHighest, List.reverse_cons, ofCoefficients_append, List.length_reverse]
  simp only [ofCoefficients, mul_zero, add_zero]
  ring

theorem length_subtractMultiple (k : ℚ) {cs ds : List ℚ} (fits : ds.length ≤ cs.length) :
    (subtractMultiple k cs ds).length = cs.length := by
  fun_induction subtractMultiple k cs ds with
  | case1 => rfl
  | case2 => simp at fits
  | case3 c cs d ds ih =>
    rw [List.length_cons, List.length_cons, ih (by simpa using fits)]

/-- The multiple is taken from the highest coefficients. -/
theorem ofHighest_subtractMultiple (k : ℚ) {cs ds : List ℚ} (fits : ds.length ≤ cs.length) :
    ofHighest (subtractMultiple k cs ds) =
      ofHighest cs - C k * X ^ (cs.length - ds.length) * ofHighest ds := by
  fun_induction subtractMultiple k cs ds with
  | case1 => rw [ofHighest_nil, mul_zero, sub_zero]
  | case2 => simp at fits
  | case3 c cs d ds ih =>
    have shorter : ds.length ≤ cs.length := by simpa using fits
    have powers : (X : ℚ[X]) ^ cs.length = X ^ (cs.length - ds.length) * X ^ ds.length := by
      rw [← pow_add, Nat.sub_add_cancel shorter]
    rw [ofHighest_cons, ofHighest_cons, ofHighest_cons, length_subtractMultiple k shorter, ih shorter,
      List.length_cons, List.length_cons, Nat.add_sub_add_right, powers]
    simp only [map_sub, map_mul]
    ring

/-- Each step finds the leading coefficient of the quotient and leaves a shorter list to divide. -/
theorem longDivide_eq {lead : ℚ} (nonzero : lead ≠ 0) {lower : List ℚ} {steps : ℕ} {cs : List ℚ}
    (length : cs.length = steps + lower.length) :
    ofHighest cs = ofHighest (longDivide lead lower steps cs).1 * ofHighest (lead :: lower) +
        ofHighest (longDivide lead lower steps cs).2 ∧
      (longDivide lead lower steps cs).1.length = steps ∧
      (longDivide lead lower steps cs).2.length = lower.length := by
  induction steps generalizing cs with
  | zero => simpa [longDivide, ofHighest_nil] using length
  | succ steps ih =>
    cases cs with
    | nil =>
      rw [List.length_nil] at length
      omega
    | cons c cs =>
      have rest : cs.length = steps + lower.length := by simpa [Nat.add_right_comm] using length
      have fits : lower.length ≤ cs.length := by omega
      obtain ⟨division, quotient, remainder⟩ :=
        ih ((length_subtractMultiple (c / lead) fits).trans rest)
      have gap : cs.length - lower.length = steps := by omega
      rw [ofHighest_subtractMultiple _ fits, gap] at division
      refine ⟨?_, congrArg (· + 1) quotient, remainder⟩
      simp only [longDivide, ofHighest_cons, quotient]
      rw [sub_eq_iff_eq_add.mp division, rest, ofHighest_cons]
      have cancels : C c = C (c / lead) * C lead := by rw [← C_mul, div_mul_cancel₀ _ nonzero]
      rw [cancels, pow_add]
      ring

theorem degree_ofCoefficients_lt (cs : List ℚ) : (ofCoefficients cs).degree < cs.length := by
  rw [degree_lt_iff_coeff_zero]
  intro n beyond
  rw [coeff_ofCoefficients, List.getD_eq_default _ _ beyond]

/-- The coefficients of a polynomial that is not zero, the highest first. -/
theorem highest_first {d : Poly} (nonzero : d.toPolynomial ≠ 0) :
    ∃ lead lower, d.coefficients.reverse = lead :: lower ∧ lead ≠ 0 ∧
      ofHighest (lead :: lower) = d.toPolynomial ∧ d.toPolynomial.degree = lower.length := by
  cases shape : d.coefficients.reverse with
  | nil => exact absurd ((toPolynomial_eq_zero d).mpr (List.reverse_eq_nil_iff.mp shape)) nonzero
  | cons lead lower =>
    have last := d.normal
    have length := congrArg List.length shape
    rw [List.getLast?_eq_head?_reverse, shape, List.head?_cons] at last
    rw [List.length_reverse, List.length_cons] at length
    refine ⟨lead, lower, rfl, fun zero => last (congrArg some zero), ?_, ?_⟩
    · rw [ofHighest, ← shape, List.reverse_reverse, toPolynomial]
    · rw [degree_eq_natDegree nonzero, natDegree_toPolynomial, length, Nat.add_sub_cancel]

theorem quotRem_eq (p : Poly) {d : Poly} (nonzero : d.toPolynomial ≠ 0) :
    p.toPolynomial = (quotRem p d).1.toPolynomial * d.toPolynomial + (quotRem p d).2.toPolynomial ∧
      (quotRem p d).2.toPolynomial.degree < d.toPolynomial.degree := by
  obtain ⟨lead, lower, shape, leadNonzero, divisor, degree⟩ := highest_first nonzero
  have length : d.coefficients.length = lower.length + 1 := by
    rw [← List.length_reverse, shape, List.length_cons]
  have dividend : ofHighest p.coefficients.reverse = p.toPolynomial := by
    rw [ofHighest, List.reverse_reverse, toPolynomial]
  simp only [quotRem, shape, toPolynomial_ofList, length, Nat.add_sub_add_right]
  rw [degree]
  rcases le_or_gt lower.length p.coefficients.length with long | short
  · obtain ⟨division, -, remainder⟩ := longDivide_eq leadNonzero
      ((@List.length_reverse _ p.coefficients).trans (Nat.sub_add_cancel long).symm)
    rw [dividend, divisor] at division
    have smaller := degree_ofCoefficients_lt
      (longDivide lead lower (p.coefficients.length - lower.length) p.coefficients.reverse).2.reverse
    rw [List.length_reverse, remainder] at smaller
    exact ⟨division, smaller⟩
  · rw [Nat.sub_eq_zero_of_le short.le]
    simp only [longDivide, List.reverse_nil, List.reverse_reverse]
    refine ⟨by rw [ofCoefficients, zero_mul, zero_add, toPolynomial], ?_⟩
    exact (degree_ofCoefficients_lt _).trans (by exact_mod_cast short)

theorem quot_mul_add_rem (p : Poly) {d : Poly} (nonzero : d.toPolynomial ≠ 0) :
    p.toPolynomial = (quot p d).toPolynomial * d.toPolynomial + (rem p d).toPolynomial ∧
      (rem p d).toPolynomial.degree < d.toPolynomial.degree := quotRem_eq p nonzero

theorem rem_isZero_iff (p : Poly) {d : Poly} (nonzero : d.toPolynomial ≠ 0) :
    (quotRem p d).2.isZero = true ↔ d.toPolynomial ∣ p.toPolynomial := by
  obtain ⟨division, smaller⟩ := quotRem_eq p nonzero
  rw [isZero_iff]
  constructor
  · intro zero
    rw [division, zero, add_zero]
    exact dvd_mul_left _ _
  · intro divides
    have remainder : d.toPolynomial ∣ (quotRem p d).2.toPolynomial := by
      rw [division] at divides
      exact (dvd_add_right (dvd_mul_left _ _)).mp divides
    exact eq_zero_of_dvd_of_degree_lt remainder smaller

/-- Dividing a factor out until there is a remainder: what is left, and how often it went. -/
inductive DividesOut (factor : Poly) : Poly → Poly → ℕ → Prop
  | done {p : Poly} (undivided : ¬ (rem p factor).isZero = true) : DividesOut factor p p 0
  | next {p rest : Poly} {n : ℕ} (divides : (rem p factor).isZero = true)
    (later : DividesOut factor (quot p factor) rest n) : DividesOut factor p rest (n + 1)

/-- Dividing out comes to an end, because the degree falls. -/
theorem dividesOut_divideOut {factor : Poly} (proper : 0 < factor.toPolynomial.degree) (fuel : ℕ) {p : Poly}
    (nonzero : p.toPolynomial ≠ 0) (enough : p.toPolynomial.natDegree < fuel) :
    DividesOut factor p (divideOut factor fuel p).1 (divideOut factor fuel p).2 := by
  have divisor : factor.toPolynomial ≠ 0 := ne_zero_of_degree_gt proper
  induction fuel generalizing p with
  | zero => omega
  | succ fuel ih =>
    rw [divideOut]
    dsimp only
    split
    next divides =>
      obtain ⟨division, -⟩ := quotRem_eq p divisor
      rw [(isZero_iff _).mp divides, add_zero] at division
      have quotient : (quotRem p factor).1.toPolynomial ≠ 0 := left_ne_zero_of_mul (division ▸ nonzero)
      have smaller : (quotRem p factor).1.toPolynomial.natDegree < fuel := by
        have degrees := congrArg natDegree division
        have positive := natDegree_pos_iff_degree_pos.mpr proper
        rw [natDegree_mul quotient divisor] at degrees
        omega
      exact .next divides (ih quotient smaller)
    next undivided => exact .done undivided

theorem DividesOut.eq {factor p rest : Poly} {n : ℕ} (divisor : factor.toPolynomial ≠ 0)
    (run : DividesOut factor p rest n) :
    p.toPolynomial = rest.toPolynomial * factor.toPolynomial ^ n ∧
      ¬ factor.toPolynomial ∣ rest.toPolynomial := by
  induction run with
  | @done p undivided =>
    refine ⟨by rw [pow_zero, mul_one], ?_⟩
    rwa [← rem_isZero_iff p divisor]
  | @next p rest n divides _ ih =>
    obtain ⟨product, undivided⟩ := ih
    obtain ⟨division, -⟩ := quot_mul_add_rem p divisor
    refine ⟨?_, undivided⟩
    rw [division, (isZero_iff _).mp divides, add_zero, pow_succ, ← mul_assoc, ← product]

theorem toPolynomial_linear (r : ℚ) : (linear r 1).toPolynomial = X - C r := by
  rw [linear, toPolynomial_ofList]
  simp only [ofCoefficients, mul_zero, add_zero, map_neg, map_one]
  ring

def withoutRoot (p : Poly) (root : ℚ) : Poly :=
  (divideOut (linear root 1) p.coefficients.length p).1

/-- Dividing out takes away that root, whatever its multiplicity, and no other one. -/
theorem withoutRoot_spec {p : Poly} (nonzero : p.toPolynomial ≠ 0) (root : ℚ) :
    (p.withoutRoot root).toPolynomial ∣ p.toPolynomial ∧
      (p.withoutRoot root).toPolynomial.eval root ≠ 0 ∧
      ∃ multiplicity, p.toPolynomial =
        (p.withoutRoot root).toPolynomial * (X - C root) ^ multiplicity := by
  have proper : 0 < (linear root 1).toPolynomial.degree := by
    rw [toPolynomial_linear, degree_X_sub_C]
    exact one_pos
  have some : p.coefficients ≠ [] := fun none => nonzero ((toPolynomial_eq_zero p).mpr none)
  have enough : p.toPolynomial.natDegree < p.coefficients.length := by
    have positive := List.length_pos_iff.mpr some
    rw [natDegree_toPolynomial]
    omega
  obtain ⟨product, undivided⟩ :=
    (dividesOut_divideOut proper _ nonzero enough).eq (ne_zero_of_degree_gt proper)
  rw [toPolynomial_linear] at product undivided
  refine ⟨⟨_, product⟩, fun vanishes => undivided (dvd_iff_isRoot.mpr vanishes), _, product⟩

end ExactAlgebra.Poly
