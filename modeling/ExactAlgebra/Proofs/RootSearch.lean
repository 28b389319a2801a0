import ExactAlgebra.Proofs.Decomposition
import ExactAlgebra.Proofs.RationalRoots
import Mathlib

/-! The search for rational roots. What it returns are roots in rising order. None is missing where the
divisors of the outer coefficients can be listed and the setting allows their quotients as candidates; how
many there are depends on nothing but the polynomial. -/
namespace ExactAlgebra

namespace Datum

theorem places_lt (a b : ℚ) : (some (compareOfLessAndEq b a) == some Ordering.lt) = decide (b < a) := by
  unfold compareOfLessAndEq
  split
  next less => simp [less]
  next other => split <;> simp [other]

/-- A number that is not below `n` is not negative, and its integer part is at least `n`. -/
theorem le_floor_of_places {b : ℚ} {n : ℕ}
    (within : (some (compareOfLessAndEq b n) == some Ordering.lt) = false) :
    (some (compareOfLessAndEq b 0) == some Ordering.lt) = false ∧ (n : ℤ) ≤ b.floor := by
  rw [places_lt, decide_eq_false_iff_not, not_lt] at within
  rw [places_lt, decide_eq_false_iff_not, not_lt]
  exact ⟨n.cast_nonneg.trans within, Rat.le_floor_iff.mpr (by exact_mod_cast within)⟩

/-- A setting that is not below `n` is not negative, and where it can be cut to an integer, that is at
least `n`. -/
theorem le_floor_of_not_isBelow {setting : Datum} {n : ℕ} (allows : setting.isBelow n = .ok false) :
    setting.isBelow 0 = .ok false ∧ ∃ cut, setting.floor? = .ok cut ∧ ∀ k, cut = some k → (n : ℤ) ≤ k := by
  have integer (m : ℤ) (within : (some (compareOfLessAndEq (m : ℚ) n) == some Ordering.lt) = false) :
      (some (compareOfLessAndEq (m : ℚ) 0) == some Ordering.lt) = false ∧ (n : ℤ) ≤ m := by
    have both := le_floor_of_places within
    rwa [Rat.floor_intCast] at both
  cases setting with
  | flag value =>
    obtain ⟨positive, large⟩ := integer _ (Except.ok.inj allows)
    exact ⟨congrArg Except.ok positive, _, rfl, by rintro _ ⟨⟩; exact large⟩
  | whole value =>
    obtain ⟨positive, large⟩ := integer _ (Except.ok.inj allows)
    exact ⟨congrArg Except.ok positive, _, rfl, by rintro _ ⟨⟩; exact large⟩
  | real value =>
    unfold isBelow compareTo floor? at *
    dsimp only at *
    cases exact : Binary64.toRat? value with
    | some b =>
      rw [exact] at allows
      obtain ⟨positive, large⟩ := le_floor_of_places (Except.ok.inj allows)
      exact ⟨congrArg Except.ok positive, _, rfl, by rintro _ ⟨⟩; exact large⟩
    | none =>
      rw [exact] at allows
      exact ⟨allows, _, rfl, by simp⟩
  | _ => cases allows

end Datum

namespace Poly
open Engine Polynomial

variable {p : Poly} {Q R : ℤ[X]} {search : RootSearch} {setting : Datum} {context : Context}

theorem IsPrimitive.lift (primitive : p.IsPrimitive) (same : ∀ n, (p.coeff n).num = Q.coeff n) : Q.IsPrimitive := by
  intro d divides
  rw [C_dvd_iff_dvd_coeff] at divides
  refine Int.isUnit_iff_natAbs_eq.mpr (primitive.coprime d.natAbs fun n => ?_)
  rw [same, Int.natAbs_dvd_natAbs]
  exact divides n

/-- The integer polynomial has coefficients without a common divisor and is not zero at zero; a constant
and a power of the unknown make the polynomial of it. -/
structure Reduces (p : Poly) (Q : ℤ[X]) : Prop where
  primitive : Q.IsPrimitive
  constant : Q.coeff 0 ≠ 0
  product : ∃ c k, p.toPolynomial = C c * X ^ k * Q.map (Int.castRingHom ℚ)

theorem reduces_of_isUnit (unit : IsUnit (Q.coeff 0))
    (product : ∃ c k, p.toPolynomial = C c * X ^ k * Q.map (Int.castRingHom ℚ)) : p.Reduces Q :=
  ⟨fun d divides => isUnit_of_dvd_unit ((C_dvd_iff_dvd_coeff d Q).mp divides 0) unit, unit.ne_zero, product⟩

theorem reduces_cubic : (ofList [0, -1, 1, 2]).Reduces (C 2 * X ^ 2 + C 1 * X + C (-1)) := by
  refine reduces_of_isUnit (by simp) ⟨1, 1, ?_⟩
  rw [toPolynomial_ofList]
  simp only [ofCoefficients, Polynomial.map_add, Polynomial.map_mul, Polynomial.map_pow, map_C, map_X,
    Polynomial.map_neg, Polynomial.map_one, Int.coe_castRingHom, Int.cast_ofNat, C_neg, C_0, C_1]
  ring

theorem Targets.exists_reduces (targets : p.Targets search) :
    ∃ Q, p.Reduces Q ∧ (search.target.coeff 0).num = Q.coeff 0 ∧ search.target.leading.num = Q.leadingCoeff := by
  obtain ⟨whole, same, entry, lead⟩ := exists_lift targets.primitive.integral
  refine ⟨whole, ⟨targets.primitive.lift entry, ?_, ?_⟩, entry 0, lead⟩
  · rw [← entry, Rat.num_ne_zero]
    exact targets.constant
  · rw [same]
    exact targets.product

theorem Reduces.dvd (nonzero : p.toPolynomial ≠ 0) (first : p.Reduces Q) (second : p.Reduces R) : Q ∣ R := by
  obtain ⟨c, k, product⟩ := first.product
  obtain ⟨d, l, other⟩ := second.product
  have unit : IsUnit (C d : ℚ[X]) := by
    refine isUnit_C.mpr (isUnit_iff_ne_zero.mpr ?_)
    rintro rfl
    rw [C_0, zero_mul, zero_mul] at other
    exact nonzero other
  have away : IsCoprime (Q.map (Int.castRingHom ℚ)) (X ^ l) := by
    refine (irreducible_X.coprime_iff_not_dvd.mpr ?_).symm.pow_right
    rw [X_dvd_iff, coeff_map]
    exact Int.cast_ne_zero.mpr first.constant
  have inside : Q.map (Int.castRingHom ℚ) ∣ C d * (X ^ l * R.map (Int.castRingHom ℚ)) := by
    rw [← mul_assoc, ← other, product]
    exact dvd_mul_left _ _
  rw [unit.dvd_mul_left] at inside
  rw [IsPrimitive.Int.dvd_iff_map_cast_dvd_map_cast _ _ first.primitive]
  exact away.dvd_of_dvd_mul_left inside

/-- What is left of a polynomial without its content and its powers of the unknown is known up to the
sign. -/
theorem Reduces.natAbs_eq (nonzero : p.toPolynomial ≠ 0) (first : p.Reduces Q) (second : p.Reduces R) :
    (Q.coeff 0).natAbs = (R.coeff 0).natAbs ∧ Q.leadingCoeff.natAbs = R.leadingCoeff.natAbs := by
  have constant {Q R : ℤ[X]} (divides : Q ∣ R) : Q.coeff 0 ∣ R.coeff 0 := by
    obtain ⟨S, rfl⟩ := divides
    rw [mul_coeff_zero]
    exact dvd_mul_right _ _
  have forth := first.dvd nonzero second
  have back := second.dvd nonzero first
  exact ⟨Int.natAbs_eq_of_dvd_dvd (constant forth) (constant back),
    Int.natAbs_eq_of_dvd_dvd (leadingCoeff_dvd_leadingCoeff forth) (leadingCoeff_dvd_leadingCoeff back)⟩

theorem length_divisors? {n : ℕ} {ds : List ℕ} (found : divisors? n = some ds) : ds.length = n.divisors.card := by
  obtain ⟨nonzero, distinct, each⟩ := divisors?_spec found
  rw [← List.toFinset_card_of_nodup distinct]
  congr 1
  ext d
  rw [List.mem_toFinset, each, Nat.mem_divisors, and_iff_left nonzero]

theorem length_divisors?_le {n : ℕ} {ds : List ℕ} (found : divisors? n = some ds) :
    ds.length ≤ 2 * divisorBound := by
  unfold divisors? at found
  dsimp only at found
  split at found
  · cases found
  next proper =>
    simp only [Bool.or_eq_true, not_or, decide_eq_true_eq, not_lt] at proper
    rw [divisorPairs_eq] at found
    cases found
    have small := (List.range' 1 (Nat.sqrt n)).length_filter_le (fun a => n % a = 0)
    have large := (List.range' 1 (Nat.sqrt n)).length_filter_le (fun a => n % a = 0 ∧ a * a ≠ n)
    simp only [List.append_nil, List.length_append, List.length_reverse, List.length_map]
    rw [List.length_range'] at small large
    omega

theorem exists_divisors? {n : ℕ} (nonzero : n ≠ 0) (small : Nat.sqrt n ≤ divisorBound) :
    ∃ ds, divisors? n = some ds := by
  unfold divisors?
  dsimp only
  rw [if_neg]
  · exact ⟨_, rfl⟩
  · simpa [nonzero] using small

/-- The divisors are listed, and the setting allows as many candidates as they give. -/
def RootSearch.Allowed (search : RootSearch) (setting : Datum) : Prop :=
  ∃ numerators denominators, search.numerators = some numerators ∧ search.denominators = some denominators ∧
    setting.isBelow (numerators.length * denominators.length : ℕ) = .ok false

def Unskipped (p : Poly) (setting : Datum) : Prop :=
  ∀ search, p.rootSearch? = some search → search.Allowed setting

theorem candidates?_of_allowed {limit : ℤ} (targets : p.Targets search) (allowed : search.Allowed setting)
    (bound : candidateBound search setting = .ok limit) : search.candidates? limit ≠ none := by
  obtain ⟨numerators, denominators, foundN, foundD, allows⟩ := allowed
  obtain ⟨positive, cut, floor, large⟩ := Datum.le_floor_of_not_isBelow allows
  have shortN := length_divisors?_le (targets.numerators.symm.trans foundN)
  have shortD := length_divisors?_le (targets.denominators.symm.trans foundD)
  have least : ((numerators.length * denominators.length : ℕ) : ℤ) ≤ limit := by
    obtain ⟨target, _, _⟩ := search
    dsimp only at foundN foundD
    subst foundN foundD
    rw [candidateBound, positive, floor] at bound
    cases bound
    cases cut with
    | some k => exact large k rfl
    | none =>
      -- A setting beyond all integers allows what can be listed.
      have most := Nat.mul_le_mul shortN shortD
      have room : 2 * divisorBound * (2 * divisorBound) ≤ 4 * (divisorBound + 1) * (divisorBound + 1) := by decide
      exact Int.ofNat_le.mpr (most.trans room)
  rw [Nat.cast_mul] at least
  rw [RootSearch.candidates?, foundN, foundD]
  dsimp only
  rw [if_neg (not_lt.mpr least)]
  exact Option.some_ne_none _

/-- With the limit that the setting gives, a search that is not skipped goes through all candidates. -/
theorem IsLimit.searched {limit : ℤ} (given : p.IsLimit setting limit) (proper : ¬ p.degree < 1)
    (unskipped : p.Unskipped setting) : p.Searched limit := by
  intro search found
  have targets := targets_of_rootSearch? (toPolynomial_ne_zero_of_degree proper) found
  exact candidates?_of_allowed targets (unskipped search found) (given search proper found)

/-- Whether the search is skipped depends on the outer coefficients of what is left without content and
powers of the unknown. -/
theorem Reduces.unskipped (nonzero : p.toPolynomial ≠ 0) (reduces : p.Reduces Q)
    (constant : Nat.sqrt (Q.coeff 0).natAbs ≤ divisorBound) (lead : Nat.sqrt Q.leadingCoeff.natAbs ≤ divisorBound)
    (allows : setting.isBelow
      ((Q.coeff 0).natAbs.divisors.card * Q.leadingCoeff.natAbs.divisors.card : ℕ) = .ok false) :
    p.Unskipped setting := by
  intro search found
  have targets := targets_of_rootSearch? nonzero found
  obtain ⟨R, other, sameConstant, sameLead⟩ := targets.exists_reduces
  obtain ⟨constants, leads⟩ := reduces.natAbs_eq nonzero other
  have proper : Q ≠ 0 := by
    rintro rfl
    exact reduces.constant rfl
  obtain ⟨numerators, foundN⟩ := exists_divisors? (Int.natAbs_ne_zero.mpr reduces.constant) constant
  obtain ⟨denominators, foundD⟩ :=
    exists_divisors? (Int.natAbs_ne_zero.mpr (leadingCoeff_ne_zero.mpr proper)) lead
  refine ⟨numerators, denominators, ?_, ?_, ?_⟩
  · rw [targets.numerators, sameConstant, ← constants, foundN]
  · rw [targets.denominators, sameLead, ← leads, foundD]
  · rw [length_divisors? foundN, length_divisors? foundD]
    exact allows

theorem rationalRoots_rising (limit : ℤ) (p : Poly) : (p.rationalRoots limit).Pairwise (· < ·) := by
  have zeros : (if p.coeff 0 = 0 then [0] else [] : List ℚ).Pairwise (· ≤ ·) := by split <;> simp
  have sorted : (p.rationalRoots limit).SortedLE := by
    unfold rationalRoots
    split
    · exact List.Pairwise.nil.sortedLE
    dsimp only
    split
    · exact zeros.sortedLE
    split
    · exact zeros.sortedLE
    · exact List.sortedLE_mergeSort
  exact (sorted.sortedLT_of_nodup (rationalRoots_sound limit p).1).pairwise

/-- The search for the rational roots of a polynomial that is no constant. Nothing stops it but a deadline or
a setting that is no number. What it returns are roots in rising order, and all of them if the outer
coefficients, without content and powers of the unknown, have no more pairs of divisors than the setting
allows and are small enough for these to be listed. -/
theorem findRoots_sound_and_complete (context : Context) (proper : 1 ≤ p.degree) :
    Meets context (fun fault => Interrupted context fault ∨ IsUnlimited context fault) p.findRoots fun roots =>
      roots.Pairwise (· < ·) ∧ (∀ r ∈ roots, p.toPolynomial.eval r = 0) ∧
        ∀ Q : ℤ[X], p.Reduces Q →
          Nat.sqrt (Q.coeff 0).natAbs ≤ 10 ^ 6 → Nat.sqrt Q.leadingCoeff.natAbs ≤ 10 ^ 6 →
          (context.scope.settings.get .maxRationalRootCandidates).isBelow
            ((Q.coeff 0).natAbs.divisors.card * Q.leadingCoeff.natAbs.divisors.card : ℕ) = .ok false →
          ∀ r, r ∈ roots ↔ p.toPolynomial.eval r = 0 := by
  have high := not_lt.mpr proper
  unfold findRoots
  refine Meets.bind _ (meets_isLimit p) fun limit given => Meets.pure ⟨?_, ?_, ?_⟩
  · exact rationalRoots_rising limit p
  · exact (rationalRoots_sound limit p).2
  · intro Q reduces constant lead allows r
    have unskipped := reduces.unskipped (toPolynomial_ne_zero_of_degree high) constant lead allows
    exact mem_rationalRoots (given.searched high unskipped) high

/-- Without its power of `x`, the polynomial `2*x^3+x^2-x` has the candidates one and one half with either
sign. -/
theorem roots_of_cubic_found :
    1 ≤ (ofList [0, -1, 1, 2]).degree ∧
      Yields ⟨Session.initial.scope, callWithin maxCallDepth⟩ (ofList [0, -1, 1, 2]).findRoots [-1, 0, 1 / 2] := by
  set context : Context := ⟨Session.initial.scope, callWithin maxCallDepth⟩
  have proper : 1 ≤ (ofList [0, -1, 1, 2]).degree := by decide
  obtain ⟨roots, found⟩ := Option.isSome_iff_exists.mp
    (show (((ofList [0, -1, 1, 2]).findRoots context).run.run 0).1.toOption.isSome = true by decide +kernel)
  have allows : (context.scope.settings.get .maxRationalRootCandidates).isBelow (2 : ℕ) = .ok false := by
    decide +kernel
  clear_value context
  obtain ⟨later, run⟩ := exists_run found
  obtain ⟨rising, -, complete⟩ := (findRoots_sound_and_complete context proper).returned run
  have constant : (C 2 * X ^ 2 + C 1 * X + C (-1) : ℤ[X]).coeff 0 = -1 := by simp
  have lead : (C 2 * X ^ 2 + C 1 * X + C (-1) : ℤ[X]).leadingCoeff = 2 := leadingCoeff_quadratic two_ne_zero
  have counts : (Int.natAbs (-1)).divisors.card * (Int.natAbs 2).divisors.card = 2 := by decide
  have all := complete _ reduces_cubic ((Nat.sqrt_le_self _).trans (by rw [constant]; decide))
    ((Nat.sqrt_le_self _).trans (by rw [lead]; decide))
    (by rw [constant, lead, counts]; exact allows)
  have listed : roots = [-1, 0, 1 / 2] := by
    refine rising.eq_of_mem_iff (by decide +kernel) fun r => (all r).trans ?_
    rw [← evaluate_eq]
    change ((((0 * r + 2) * r + 1) * r + -1) * r + 0 = 0) ↔ _
    have factored : (((0 * r + 2) * r + 1) * r + -1) * r + 0 = (r + 1) * (r * (2 * r - 1)) := by ring
    rw [factored, mul_eq_zero, mul_eq_zero]
    simp only [List.mem_cons, List.not_mem_nil, or_false]
    refine or_congr (by constructor <;> intro h <;> linarith) (or_congr Iff.rfl ?_)
    constructor <;> intro h <;> linarith
  exact ⟨proper, 0, later, listed ▸ run⟩

end Poly
end ExactAlgebra
