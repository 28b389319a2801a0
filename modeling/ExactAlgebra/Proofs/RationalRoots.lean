import ExactAlgebra.Proofs.Univariate
import ExactAlgebra.Proofs.Content
import Mathlib

/-! Rational roots. What the search returns are roots, each once; by the rational root theorem none is
missing unless there are too many candidates. -/
namespace ExactAlgebra.Poly
open Polynomial

variable {p : Poly}

theorem ofCoefficients_map_mul (k : ℚ) (cs : List ℚ) :
    ofCoefficients (cs.map (k * ·)) = C k * ofCoefficients cs := by
  induction cs with
  | nil => simp [ofCoefficients]
  | cons c cs ih =>
    rw [List.map_cons, ofCoefficients, ofCoefficients, ih, map_mul]
    ring

theorem num_mul_of_den_dvd {c : ℚ} {n : ℕ} (divides : c.den ∣ n) :
    (((c * n).num : ℤ) : ℚ) = c * n := by
  obtain ⟨k, rfl⟩ := divides
  have whole : c * ((c.den * k : ℕ) : ℚ) = ((c.num * k : ℤ) : ℚ) := by
    push_cast
    rw [← mul_assoc, Rat.mul_den_eq_num]
  rw [whole, Rat.num_intCast]

/-- The coefficients are integers without a common divisor. -/
structure IsPrimitive (p : Poly) : Prop where
  integral : ∀ n, (p.coeff n).den = 1
  coprime : ∀ d : ℕ, (∀ n, d ∣ (p.coeff n).num.natAbs) → d = 1

def contentDen (p : Poly) : ℕ := Expr.commonDenominator p.coefficients

/-- The greatest common divisor of the coefficients over their common denominator, with the sign of the
leading one. -/
def contentNum (p : Poly) : ℤ :=
  let divisor := Expr.commonDivisor (p.coefficients.map (· * (p.contentDen : ℚ)))
  if p.leading < 0 then -divisor else divisor

theorem contentDen_ne_zero (p : Poly) : (p.contentDen : ℚ) ≠ 0 := by
  exact_mod_cast (Expr.commonDenominator_pos _).ne'

theorem natAbs_contentNum (p : Poly) :
    p.contentNum.natAbs = Expr.commonDivisor (p.coefficients.map (· * (p.contentDen : ℚ))) := by
  rw [contentNum]
  split <;> simp

theorem contentNum_ne_zero (nonzero : p.toPolynomial ≠ 0) : p.contentNum ≠ 0 := by
  have last : p.leading ≠ 0 := by
    rw [leading_eq]
    exact leadingCoeff_ne_zero.mpr nonzero
  have member : p.leading ∈ p.coefficients := by
    rw [leading] at last ⊢
    cases found : p.coefficients.getLast? with
    | none => simp [found] at last
    | some c => exact List.mem_of_getLast? found
  rw [← Int.natAbs_ne_zero, natAbs_contentNum]
  exact (Expr.commonDivisor_pos (List.mem_map_of_mem (f := (· * (p.contentDen : ℚ))) member)
    (mul_ne_zero last p.contentDen_ne_zero)).ne'

theorem contentNum_dvd {c : ℚ} (member : c ∈ p.coefficients) : p.contentNum ∣ (c * (p.contentDen : ℚ)).num := by
  rw [← Int.natAbs_dvd_natAbs, natAbs_contentNum]
  exact Expr.dvd_commonDivisor.mp dvd_rfl _ (List.mem_map_of_mem (f := (· * (p.contentDen : ℚ))) member)

theorem primitive_of_ne_zero (nonzero : p.toPolynomial ≠ 0) :
    p.primitive = (Rational.ratio p.contentNum p.contentDen,
      ofList (p.coefficients.map fun c => (((c * (p.contentDen : ℚ)).num / p.contentNum : ℤ) : ℚ))) := by
  have proper : p.isZero = false := by
    rw [← Bool.not_eq_true, isZero_iff]
    exact nonzero
  simp only [primitive, proper, contentNum, contentDen, Expr.commonDivisor, List.foldl_map, List.map_map,
    Expr.commonDenominator]
  rfl

theorem primitive_content (nonzero : p.toPolynomial ≠ 0) : p.primitive.1 = p.contentNum / p.contentDen := by
  rw [primitive_of_ne_zero nonzero, Rational.ratio, Rat.divInt_eq_div]
  rfl

/-- The coefficients of the primitive polynomial are those of the polynomial over the content. -/
theorem primitive_coefficient (nonzero : p.toPolynomial ≠ 0) {c : ℚ} (member : c ∈ p.coefficients) :
    (((c * (p.contentDen : ℚ)).num / p.contentNum : ℤ) : ℚ) = (p.contentDen / p.contentNum : ℚ) * c := by
  have whole := num_mul_of_den_dvd (Expr.commonDenominator_dvd.mp (dvd_refl p.contentDen) c member)
  rw [Int.cast_div (contentNum_dvd member) (Int.cast_ne_zero.mpr (contentNum_ne_zero nonzero)), whole]
  ring

theorem isPrimitive_primitive (nonzero : p.toPolynomial ≠ 0) : p.primitive.2.IsPrimitive := by
  have entry (n : ℕ) : p.primitive.2.coeff n =
      (p.coefficients.map fun c => (((c * (p.contentDen : ℚ)).num / p.contentNum : ℤ) : ℚ)).getD n 0 := by
    rw [← coeff_toPolynomial, primitive_of_ne_zero nonzero, toPolynomial_ofList, coeff_ofCoefficients]
  constructor
  case integral =>
    intro n
    rw [entry, List.getD_eq_getElem?_getD, List.getElem?_map]
    cases p.coefficients[n]? with
    | none => rfl
    | some c => exact Rat.den_intCast _
  case coprime =>
    intro d common
    -- Together with the divisor that was taken out, a common divisor would divide all coefficients.
    have larger : d * p.contentNum.natAbs ∣ p.contentNum.natAbs := by
      conv_rhs => rw [natAbs_contentNum]
      refine Expr.dvd_commonDivisor.mpr fun k member => ?_
      obtain ⟨c, inside, rfl⟩ := List.mem_map.mp member
      obtain ⟨n, small, rfl⟩ := List.mem_iff_getElem.mp inside
      have one := common n
      rw [entry, List.getD_eq_getElem _ _ (by simpa using small), List.getElem_map, Rat.num_intCast] at one
      have product := Nat.mul_dvd_mul one (dvd_refl p.contentNum.natAbs)
      rwa [← Int.natAbs_mul, Int.ediv_mul_cancel (contentNum_dvd inside)] at product
    obtain ⟨k, same⟩ := larger
    have positive := Int.natAbs_pos.mpr (contentNum_ne_zero nonzero)
    refine Nat.eq_one_of_mul_eq_one_right (n := k) (Nat.eq_of_mul_eq_mul_left positive ?_)
    rw [mul_one]
    conv_rhs => rw [same]
    ring

/-- A polynomial is a number times one with integer coefficients that have no common divisor. -/
theorem primitive_eq (nonzero : p.toPolynomial ≠ 0) :
    p.toPolynomial = C p.primitive.1 * p.primitive.2.toPolynomial ∧ p.primitive.1 ≠ 0 ∧
      p.primitive.2.IsPrimitive := by
  have numerator : (p.contentNum : ℚ) ≠ 0 := Int.cast_ne_zero.mpr (contentNum_ne_zero nonzero)
  refine ⟨?_, ?_, isPrimitive_primitive nonzero⟩
  · have coefficients : p.primitive.2.toPolynomial = C (p.contentDen / p.contentNum : ℚ) * p.toPolynomial := by
      rw [primitive_of_ne_zero nonzero, toPolynomial_ofList,
        List.map_congr_left fun c member => primitive_coefficient nonzero member, ofCoefficients_map_mul]
      rfl
    rw [primitive_content nonzero, coefficients, ← mul_assoc, ← C_mul,
      div_mul_div_cancel₀ p.contentDen_ne_zero, div_self numerator, C_1, one_mul]
  · rw [primitive_content nonzero]
    exact div_ne_zero numerator p.contentDen_ne_zero

theorem ofCoefficients_dropWhile (cs : List ℚ) :
    ∃ k, ofCoefficients cs = X ^ k * ofCoefficients (cs.dropWhile (· = 0)) := by
  induction cs with
  | nil => exact ⟨0, by simp⟩
  | cons c cs ih =>
    rw [List.dropWhile_cons]
    split
    next zero =>
      obtain ⟨k, same⟩ := ih
      refine ⟨k + 1, ?_⟩
      rw [ofCoefficients, same, of_decide_eq_true zero, C_0, zero_add, pow_succ']
      ring
    next => exact ⟨0, by rw [pow_zero, one_mul]⟩

/-- Without its zeros at the start, a polynomial has the same roots but zero. -/
theorem withoutZeros_eq (nonzero : p.toPolynomial ≠ 0) :
    (∃ k, p.toPolynomial = X ^ k * p.withoutZeros.toPolynomial) ∧
      p.withoutZeros.toPolynomial.coeff 0 ≠ 0 := by
  obtain ⟨k, same⟩ := ofCoefficients_dropWhile p.coefficients
  rw [withoutZeros, toPolynomial_ofList]
  refine ⟨⟨k, same⟩, ?_⟩
  rw [coeff_ofCoefficients]
  cases rest : p.coefficients.dropWhile (· = 0) with
  | nil =>
    rw [rest, ofCoefficients, mul_zero] at same
    exact absurd same nonzero
  | cons c cs =>
    have first := List.head?_dropWhile_not (· = 0) p.coefficients
    rw [rest] at first
    simpa using first

/-- What a search looks at: a primitive polynomial that is not zero at zero and makes the polynomial
together with a constant and a power of the unknown, and the divisors of its outer coefficients. -/
structure Targets (p : Poly) (search : RootSearch) : Prop where
  product : ∃ c k, p.toPolynomial = C c * X ^ k * search.target.toPolynomial
  primitive : search.target.IsPrimitive
  constant : search.target.coeff 0 ≠ 0
  numerators : search.numerators = divisors? (search.target.coeff 0).num.natAbs
  denominators : search.denominators = divisors? search.target.leading.num.natAbs

theorem targets_of_rootSearch? (nonzero : p.toPolynomial ≠ 0) {search : RootSearch}
    (found : p.rootSearch? = some search) : p.Targets search := by
  obtain ⟨⟨k, shifted⟩, constant⟩ := withoutZeros_eq nonzero
  have rest : p.withoutZeros.toPolynomial ≠ 0 := by
    intro zero
    rw [zero, mul_zero] at shifted
    exact nonzero shifted
  obtain ⟨product, -, primitive⟩ := primitive_eq rest
  rw [rootSearch?] at found
  dsimp only at found
  split at found
  · cases found
  cases found
  refine ⟨⟨p.withoutZeros.primitive.1, k, ?_⟩, primitive, fun zero => constant ?_, rfl, rfl⟩
  · rw [shifted, product, mul_left_comm, mul_assoc]
  · rw [product, coeff_C_mul, coeff_toPolynomial, zero, mul_zero]

theorem Targets.eval_zero_ne_zero {search : RootSearch} (targets : p.Targets search) :
    search.target.toPolynomial.eval 0 ≠ 0 := by
  rw [← coeff_zero_eq_eval_zero, coeff_toPolynomial]
  exact targets.constant

/-- What the search looks at has the roots of the polynomial, apart from zero, and no more. -/
theorem Targets.root_iff {search : RootSearch} (targets : p.Targets search) (nonzero : p.toPolynomial ≠ 0)
    (r : ℚ) : search.target.toPolynomial.eval r = 0 ↔ r ≠ 0 ∧ p.toPolynomial.eval r = 0 := by
  obtain ⟨c, k, product⟩ := targets.product
  have scale : c ≠ 0 := by
    rintro rfl
    rw [C_0, zero_mul, zero_mul] at product
    exact nonzero product
  rw [product, eval_mul, eval_mul, eval_pow, eval_X, eval_C]
  constructor
  · intro vanishes
    refine ⟨?_, by rw [vanishes, mul_zero]⟩
    rintro rfl
    exact targets.eval_zero_ne_zero vanishes
  · rintro ⟨proper, vanishes⟩
    simpa [scale, proper] using vanishes

/-- The search for divisors goes through the numbers up to the bound, and notes their cofactors. -/
theorem divisorPairs_eq (n d : ℕ) (small large : List ℕ) :
    divisorPairs n d small large =
      ((List.range' 1 d).filter (fun a => n % a = 0) ++ small,
        ((List.range' 1 d).filter (fun a => n % a = 0 ∧ a * a ≠ n)).map (n / ·) ++ large) := by
  induction d generalizing small large with
  | zero => rfl
  | succ d ih =>
    rw [divisorPairs, List.range'_concat, Nat.one_mul, Nat.add_comm 1 d]
    split
    next divides =>
      rw [ih, List.filter_append, List.filter_append, List.append_assoc, List.map_append,
        List.append_assoc]
      by_cases square : (d + 1) * (d + 1) = n
      · simp [square, divides]
      · simp [square, divides]
    next proper => simp [ih, proper]

/-- The cofactor of a divisor up to the square root is beyond it, unless it is the root itself. -/
theorem sqrt_lt_div {n a : ℕ} (positive : 0 < n) (divides : a ∣ n) (bound : a ≤ Nat.sqrt n)
    (proper : a * a ≠ n) : Nat.sqrt n < n / a := by
  obtain ⟨b, rfl⟩ := divides
  have nonzero : 0 < a := Nat.pos_of_mul_pos_right positive
  rw [Nat.mul_div_cancel_left b nonzero]
  have lower := Nat.sqrt_le (a * b)
  set root := Nat.sqrt (a * b)
  by_contra small
  rw [not_lt] at small
  have first : a = root := by
    by_contra other
    have less : a * b < root * root :=
      (Nat.mul_le_mul_left a small).trans_lt (Nat.mul_lt_mul_of_pos_right (by omega) (by omega))
    omega
  have second : b = root := by
    by_contra other
    have less : a * b < root * root :=
      (Nat.mul_le_mul_right b bound).trans_lt (Nat.mul_lt_mul_of_pos_left (by omega) (by omega))
    omega
  exact proper (by rw [second, ← first])

/-- The numbers up to the square root that pass a test which only divisors pass. -/
theorem mem_filter_range {n a : ℕ} (positive : 0 < n) {test : ℕ → Bool}
    (divides : ∀ a, test a = true → a ∣ n) :
    a ∈ (List.range' 1 (Nat.sqrt n)).filter test ↔ a ≤ Nat.sqrt n ∧ test a = true := by
  rw [List.mem_filter, List.mem_range'_1]
  constructor
  · rintro ⟨⟨-, bound⟩, passes⟩
    exact ⟨by omega, passes⟩
  · rintro ⟨bound, passes⟩
    have atLeast := Nat.pos_of_dvd_of_pos (divides a passes) positive
    exact ⟨⟨atLeast, by omega⟩, passes⟩

theorem mem_small {n a : ℕ} (positive : 0 < n) :
    a ∈ (List.range' 1 (Nat.sqrt n)).filter (fun a => n % a = 0) ↔ a ≤ Nat.sqrt n ∧ a ∣ n := by
  rw [mem_filter_range positive fun a passes => Nat.dvd_of_mod_eq_zero (of_decide_eq_true passes),
    decide_eq_true_eq, ← Nat.dvd_iff_mod_eq_zero]

/-- The divisors whose cofactors are listed behind them. -/
theorem mem_below {n a : ℕ} (positive : 0 < n) :
    a ∈ (List.range' 1 (Nat.sqrt n)).filter (fun a => n % a = 0 ∧ a * a ≠ n) ↔
      a ≤ Nat.sqrt n ∧ a ∣ n ∧ a * a ≠ n := by
  rw [mem_filter_range positive fun a passes => Nat.dvd_of_mod_eq_zero (of_decide_eq_true passes).1,
    decide_eq_true_eq, ← Nat.dvd_iff_mod_eq_zero]

/-- A divisor beyond the square root is the cofactor of one below it. -/
theorem exists_below {n d : ℕ} (positive : 0 < n) (divides : d ∣ n) (high : Nat.sqrt n < d) :
    ∃ b, (b ≤ Nat.sqrt n ∧ b ∣ n ∧ b * b ≠ n) ∧ n / b = d := by
  obtain ⟨b, rfl⟩ := divides
  refine ⟨b, ⟨?_, dvd_mul_left b d, ?_⟩, Nat.mul_div_cancel d (Nat.pos_of_mul_pos_left positive)⟩
  · by_contra large
    have most : (Nat.sqrt (d * b) + 1) * (Nat.sqrt (d * b) + 1) ≤ d * b := Nat.mul_le_mul (by omega) (by omega)
    have upper := Nat.lt_succ_sqrt (d * b)
    exact absurd (upper.trans_le most) (lt_irrefl _)
  · intro square
    have same : b = d := Nat.eq_of_mul_eq_mul_right (Nat.pos_of_mul_pos_left positive) square
    rw [same, Nat.sqrt_eq] at high
    exact lt_irrefl d high

theorem cofactor_injective {n a b : ℕ} (positive : 0 < n) (first : a ∣ n) (second : b ∣ n)
    (same : n / a = n / b) : a = b := by
  rw [← Nat.div_div_self first positive.ne', same, Nat.div_div_self second positive.ne']

/-- The divisors of a number that is not zero are found, each once. -/
theorem divisors?_spec {n : ℕ} {ds : List ℕ} (found : divisors? n = some ds) :
    n ≠ 0 ∧ ds.Nodup ∧ ∀ d, d ∈ ds ↔ d ∣ n := by
  unfold divisors? at found
  dsimp only at found
  split at found
  · cases found
  next proper =>
    have positive : 0 < n := by
      simp only [Bool.or_eq_true, not_or, decide_eq_true_eq] at proper
      omega
    rw [divisorPairs_eq] at found
    simp only [List.append_nil, Option.some.injEq] at found
    subst found
    refine ⟨positive.ne', ?_, fun d => ?_⟩
    · rw [List.nodup_append, List.nodup_reverse]
      refine ⟨(List.nodup_range').filter _, ((List.nodup_range').filter _).map_on ?_, ?_⟩
      · intro a inA b inB
        exact cofactor_injective positive ((mem_below positive).mp inA).2.1 ((mem_below positive).mp inB).2.1
      · intro a inA b inB same
        obtain ⟨c, inC, rfl⟩ := List.mem_map.mp (List.mem_reverse.mp inB)
        obtain ⟨bound, divides, other⟩ := (mem_below positive).mp inC
        have beyond := sqrt_lt_div positive divides bound other
        have within := ((mem_small positive).mp inA).1
        omega
    · rw [List.mem_append, mem_small positive, List.mem_reverse, List.mem_map]
      constructor
      · rintro (⟨-, divides⟩ | ⟨c, inC, rfl⟩)
        · exact divides
        · exact Nat.div_dvd_of_dvd ((mem_below positive).mp inC).2.1
      · intro divides
        rcases le_or_gt d (Nat.sqrt n) with low | high
        · exact .inl ⟨low, divides⟩
        · obtain ⟨b, below, cofactor⟩ := exists_below positive divides high
          exact .inr ⟨b, (mem_below positive).mpr below, cofactor⟩

theorem num_den_mkRat {m : ℤ} {q : ℕ} (positive : 0 < q) (coprime : m.natAbs.gcd q = 1) :
    (mkRat m q).num = m ∧ (mkRat m q).den = q := by
  rw [Rat.num_mkRat, Rat.den_mkRat, if_neg positive.ne', Nat.gcd_comm, coprime,
    Nat.cast_one, Int.ediv_one, Nat.div_one]
  exact ⟨rfl, if_neg positive.ne'⟩

/-- The quotients of two numbers that are in lowest terms, with either sign. -/
theorem mem_quotients {n q : ℕ} (positive : 0 < q) {r : ℚ} :
    r ∈ (if Nat.gcd n q = 1 then [mkRat (n : ℤ) q, mkRat (-(n : ℤ)) q] else []) ↔
      r.num.natAbs = n ∧ r.den = q := by
  constructor
  · intro member
    split at member
    next coprime =>
      have plus := @num_den_mkRat n q positive coprime
      have minus := @num_den_mkRat (-n) q positive (by simpa using coprime)
      simp only [List.mem_cons, List.not_mem_nil, or_false] at member
      rcases member with rfl | rfl
      · rw [plus.1, plus.2]
        exact ⟨rfl, rfl⟩
      · rw [minus.1, minus.2, Int.natAbs_neg]
        exact ⟨rfl, rfl⟩
    next => cases member
  · rintro ⟨rfl, rfl⟩
    rw [if_pos r.reduced]
    rcases Int.natAbs_eq r.num with plus | minus
    · rw [← plus, Rat.mkRat_self]
      exact List.mem_cons_self
    · rw [← minus, Rat.mkRat_self]
      simp

theorem mem_candidates {ns ds : List ℕ} {r : ℚ} (denominators : ∀ d ∈ ds, 0 < d) :
    r ∈ candidates ns ds ↔ r.num.natAbs ∈ ns ∧ r.den ∈ ds := by
  simp only [candidates, List.mem_flatMap]
  constructor
  · rintro ⟨q, inQ, n, inN, member⟩
    obtain ⟨rfl, rfl⟩ := (mem_quotients (denominators q inQ)).mp member
    exact ⟨inN, inQ⟩
  · rintro ⟨inN, inQ⟩
    exact ⟨_, inQ, _, inN, (mem_quotients (denominators _ inQ)).mpr ⟨rfl, rfl⟩⟩

theorem nodup_candidates {ns ds : List ℕ} (distinctN : ns.Nodup) (distinctD : ds.Nodup)
    (numerators : ∀ n ∈ ns, 0 < n) (denominators : ∀ d ∈ ds, 0 < d) : (candidates ns ds).Nodup := by
  rw [candidates, List.nodup_flatMap]
  constructor
  · intro q inQ
    have positive := denominators q inQ
    rw [List.nodup_flatMap]
    constructor
    · intro n inN
      split
      next coprime =>
        rw [List.nodup_cons]
        refine ⟨?_, List.nodup_singleton _⟩
        intro same
        have signs := congrArg Rat.num (List.mem_singleton.mp same)
        rw [(@num_den_mkRat n q positive coprime).1,
          (@num_den_mkRat (-n) q positive (by simpa using coprime)).1] at signs
        have := numerators n inN
        omega
      next => exact List.nodup_nil
    · refine distinctN.pairwise_of_forall_ne fun n _ m _ other r inFirst inSecond => other ?_
      exact ((mem_quotients positive).mp inFirst).1.symm.trans ((mem_quotients positive).mp inSecond).1
  · refine distinctD.pairwise_of_forall_ne fun q inQ d inD other r inFirst inSecond => other ?_
    obtain ⟨n, _, first⟩ := List.mem_flatMap.mp inFirst
    obtain ⟨m, _, second⟩ := List.mem_flatMap.mp inSecond
    exact ((mem_quotients (denominators q inQ)).mp first).2.symm.trans
      ((mem_quotients (denominators d inD)).mp second).2

/-- A polynomial whose coefficients are integers. -/
theorem exists_lift (integral : ∀ n, (p.coeff n).den = 1) :
    ∃ whole : ℤ[X], whole.map (Int.castRingHom ℚ) = p.toPolynomial ∧
      (∀ n, (p.coeff n).num = whole.coeff n) ∧ p.leading.num = whole.leadingCoeff := by
  have lifted : p.toPolynomial ∈ lifts (Int.castRingHom ℚ) := by
    rw [lifts_iff_coeff_lifts]
    intro n
    rw [coeff_toPolynomial]
    exact ⟨(p.coeff n).num, Rat.coe_int_num_of_den_eq_one (integral n)⟩
  obtain ⟨whole, same⟩ := mem_lifts _ |>.mp lifted
  refine ⟨whole, same, fun n => ?_, ?_⟩
  · rw [← coeff_toPolynomial, ← same, coeff_map]
    exact Rat.num_intCast _
  · rw [leading_eq, ← same, leadingCoeff_map_of_injective (RingHom.injective_int _)]
    exact Rat.num_intCast _

/-- By the rational root theorem the numerator divides the constant coefficient and the denominator
the leading one. -/
theorem num_dvd_and_den_dvd_of_root (integral : ∀ n, (p.coeff n).den = 1) {r : ℚ}
    (root : p.toPolynomial.eval r = 0) :
    r.num.natAbs ∣ (p.coeff 0).num.natAbs ∧ r.den ∣ p.leading.num.natAbs := by
  obtain ⟨whole, same, entry, lead⟩ := exists_lift integral
  have vanishes : aeval r whole = 0 := by
    rw [aeval_def, ← eval_map, algebraMap_int_eq, same, root]
  obtain ⟨numerator, denominator⟩ := Rat.associated_num_den r
  constructor
  · rw [entry, Int.natAbs_dvd_natAbs, ← numerator.dvd_iff_dvd_left]
    exact num_dvd_of_is_root vanishes
  · rw [lead, ← Int.natCast_dvd, ← denominator.dvd_iff_dvd_left]
    exact den_dvd_of_is_root vanishes

/-- The search is not given up for the number of candidates. -/
def Searched (p : Poly) (limit : ℤ) : Prop :=
  ∀ search, p.rootSearch? = some search → search.candidates? limit ≠ none

theorem candidates?_spec (nonzero : p.toPolynomial ≠ 0) {search : RootSearch}
    (found : p.rootSearch? = some search) {limit : ℤ} {cs : List ℚ}
    (within : search.candidates? limit = some cs) :
    cs.Nodup ∧ 0 ∉ cs ∧ ∀ r, r ≠ 0 → p.toPolynomial.eval r = 0 → r ∈ cs := by
  have targets := targets_of_rootSearch? nonzero found
  unfold RootSearch.candidates? at within
  split at within
  next ns ds foundN foundD =>
    split at within
    · cases within
    cases within
    obtain ⟨constant, distinctN, memN⟩ := divisors?_spec (targets.numerators.symm.trans foundN)
    obtain ⟨lead, distinctD, memD⟩ := divisors?_spec (targets.denominators.symm.trans foundD)
    have positiveN : ∀ n ∈ ns, 0 < n := fun n member =>
      Nat.pos_of_dvd_of_pos ((memN n).mp member) (Nat.pos_of_ne_zero constant)
    have positiveD : ∀ d ∈ ds, 0 < d := fun d member =>
      Nat.pos_of_dvd_of_pos ((memD d).mp member) (Nat.pos_of_ne_zero lead)
    refine ⟨nodup_candidates distinctN distinctD positiveN positiveD, ?_, ?_⟩
    · intro member
      exact absurd (positiveN _ ((mem_candidates positiveD).mp member).1) (by simp)
    · intro r proper root
      obtain ⟨above, below⟩ := num_dvd_and_den_dvd_of_root targets.primitive.integral
        ((targets.root_iff nonzero r).mpr ⟨proper, root⟩)
      exact (mem_candidates positiveD).mpr ⟨(memN _).mpr above, (memD _).mpr below⟩
  next => cases within

theorem toPolynomial_ne_zero_of_degree (proper : ¬ p.degree < 1) : p.toPolynomial ≠ 0 := by
  intro zero
  rw [degree, (toPolynomial_eq_zero p).mp zero] at proper
  exact proper (by decide)

theorem eval_zero_iff : p.toPolynomial.eval 0 = 0 ↔ p.coeff 0 = 0 := by
  rw [← coeff_zero_eq_eval_zero, coeff_toPolynomial]

/-- The root zero, if it is one. -/
theorem mem_zeros {r : ℚ} :
    r ∈ (if p.coeff 0 = 0 then [0] else []) ↔ r = 0 ∧ p.toPolynomial.eval 0 = 0 := by
  rw [eval_zero_iff]
  split
  next zero => simp [zero]
  next nonzero => simp [nonzero]

/-- What is found are roots, each once. -/
theorem rationalRoots_sound (limit : ℤ) (p : Poly) :
    (p.rationalRoots limit).Nodup ∧ ∀ r ∈ p.rationalRoots limit, p.toPolynomial.eval r = 0 := by
  have zeros : (if p.coeff 0 = 0 then [0] else [] : List ℚ).Nodup ∧
      ∀ r ∈ (if p.coeff 0 = 0 then [0] else []), p.toPolynomial.eval r = 0 := by
    constructor
    · split <;> simp
    · intro r member
      obtain ⟨rfl, root⟩ := mem_zeros.mp member
      exact root
  unfold rationalRoots
  split
  next => simp
  next proper =>
    have nonzero := toPolynomial_ne_zero_of_degree proper
    dsimp only
    split
    next => exact zeros
    next search found =>
      split
      next => exact zeros
      next cs within =>
        have targets := targets_of_rootSearch? nonzero found
        obtain ⟨distinct, withoutZero, -⟩ := candidates?_spec nonzero found within
        constructor
        · rw [(List.mergeSort_perm _ _).nodup_iff, List.nodup_append]
          refine ⟨zeros.1, distinct.filter _, ?_⟩
          rintro a inZeros b inCandidates rfl
          rw [(mem_zeros.mp inZeros).1] at inCandidates
          exact withoutZero (List.mem_of_mem_filter inCandidates)
        · intro r member
          rw [List.mem_mergeSort, List.mem_append, List.mem_filter] at member
          rcases member with isZero | ⟨_, root⟩
          · exact zeros.2 r isZero
          · rw [decide_eq_true_eq, evaluate_eq] at root
            exact ((targets.root_iff nonzero r).mp root).2

/-- Where nothing but powers of the unknown is left there is no search, and zero is the only root. -/
theorem eq_zero_of_unsearched (nonzero : p.toPolynomial ≠ 0) (missing : p.rootSearch? = none) {r : ℚ}
    (root : p.toPolynomial.eval r = 0) : r = 0 := by
  obtain ⟨⟨k, shifted⟩, constant⟩ := withoutZeros_eq nonzero
  have low : p.withoutZeros.degree < 1 := by
    by_contra high
    rw [rootSearch?, if_neg high] at missing
    cases missing
  have rest : p.withoutZeros.toPolynomial ≠ 0 := by
    intro zero
    rw [zero, coeff_zero] at constant
    exact constant rfl
  have flat : p.withoutZeros.toPolynomial.natDegree = 0 := by
    rw [degree_eq rest] at low
    omega
  by_contra other
  have vanishes : p.withoutZeros.toPolynomial.eval r = 0 := by
    rw [shifted, eval_mul, eval_pow, eval_X] at root
    exact (mul_eq_zero.mp root).resolve_left (pow_ne_zero k other)
  rw [eq_C_of_natDegree_eq_zero flat, eval_C] at vanishes
  exact constant vanishes

/-- When the search is not given up, every rational root is found. -/
theorem mem_rationalRoots {limit : ℤ} (searched : p.Searched limit) (proper : ¬ p.degree < 1) {r : ℚ} :
    r ∈ p.rationalRoots limit ↔ p.toPolynomial.eval r = 0 := by
  constructor
  · exact (rationalRoots_sound limit p).2 r
  intro root
  have nonzero := toPolynomial_ne_zero_of_degree proper
  rw [rationalRoots, if_neg proper]
  dsimp only
  split
  next missing =>
    obtain rfl := eq_zero_of_unsearched nonzero missing root
    exact mem_zeros.mpr ⟨rfl, root⟩
  next search found =>
    split
    next given => exact absurd given (searched search found)
    next cs within =>
      have targets := targets_of_rootSearch? nonzero found
      obtain ⟨-, -, complete⟩ := candidates?_spec nonzero found within
      rw [List.mem_mergeSort, List.mem_append, List.mem_filter]
      by_cases isZero : r = 0
      · subst isZero
        exact .inl (mem_zeros.mpr ⟨rfl, root⟩)
      · refine .inr ⟨complete r isZero root, ?_⟩
        rw [decide_eq_true_eq, evaluate_eq]
        exact (targets.root_iff nonzero r).mpr ⟨isZero, root⟩

end ExactAlgebra.Poly
