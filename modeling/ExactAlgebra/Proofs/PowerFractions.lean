import ExactAlgebra.Proofs.Decomposition
import ExactAlgebra.Proofs.PowerSums
import ExactAlgebra.Proofs.Verdicts
import Mathlib

/-! Fractions over powers of one name. Over the highest power they are a polynomial, a power of the name has
no other factor, and the partial fractions are the fractions again. -/
namespace ExactAlgebra.Poly
open Engine Polynomial

variable {p : Poly} {n : ℕ} {context : Context}

theorem isUnit_of_dvd_power {f : ℚ[X]} (divides : f ∣ X ^ n) (undivided : ¬ X ∣ f) : IsUnit f :=
  ((prime_X.irreducible.coprime_iff_not_dvd.mpr undivided).pow_left).isUnit_of_dvd' divides dvd_rfl

/-- Without the root zero nothing is left of a power of the unknown. -/
theorem rootSearch?_power (power : Associated p.toPolynomial (X ^ n)) : p.rootSearch? = none := by
  have nonzero := power.ne_zero_iff.mpr (pow_ne_zero n X_ne_zero)
  obtain ⟨⟨k, product⟩, away⟩ := withoutZeros_eq nonzero
  have unit : IsUnit p.withoutZeros.toPolynomial := by
    refine isUnit_of_dvd_power (n := n) ?_ fun divides => away (X_dvd_iff.mp divides)
    exact (Dvd.intro_left _ product.symm).trans power.dvd
  have low : p.withoutZeros.degree < 1 := by
    rw [degree_eq unit.ne_zero, natDegree_eq_zero_of_isUnit unit]
    decide
  rw [rootSearch?]
  exact if_pos low

theorem rationalRoots_power (limit : ℤ) (power : Associated p.toPolynomial (X ^ (n + 1))) :
    p.rationalRoots limit = [0] := by
  have nonzero := power.ne_zero_iff.mpr (pow_ne_zero (n + 1) X_ne_zero)
  have degree : p.toPolynomial.natDegree = n + 1 := by
    rw [natDegree_eq_of_degree_eq (degree_eq_degree_of_associated power), natDegree_X_pow]
  have root : p.coeff 0 = 0 := by
    rw [← coeff_toPolynomial, ← X_dvd_iff]
    exact (dvd_pow_self X n.succ_ne_zero).trans power.symm.dvd
  rw [rationalRoots, if_neg (by rw [degree_eq nonzero, degree]; omega), if_pos root, rootSearch?_power power]

theorem deflate_power (power : Associated p.toPolynomial (X ^ (n + 1))) :
    (deflate [0] p).1 = [(linear 0 1, n + 1)] ∧ (deflate [0] p).2.degree = 0 := by
  have nonzero := power.ne_zero_iff.mpr (pow_ne_zero (n + 1) X_ne_zero)
  have degree : p.toPolynomial.natDegree = n + 1 := by
    rw [natDegree_eq_of_degree_eq (degree_eq_degree_of_associated power), natDegree_X_pow]
  have fuel : p.toPolynomial.natDegree < p.coefficients.length := by
    rw [natDegree_toPolynomial] at degree ⊢
    omega
  have factor : (linear 0 1).toPolynomial = X := by rw [toPolynomial_linear, C_0, sub_zero]
  have proper : 0 < (linear 0 1).toPolynomial.degree := by
    rw [factor, degree_X]
    exact one_pos
  obtain ⟨product, undivided⟩ :=
    (dividesOut_divideOut proper _ nonzero fuel).eq (Polynomial.ne_zero_of_degree_gt proper)
  rw [factor] at product undivided
  change (if (divideOut (linear 0 1) p.coefficients.length p).2 = 0 then []
      else [(linear 0 1, (divideOut (linear 0 1) p.coefficients.length p).2)]) = _ ∧
    (divideOut (linear 0 1) p.coefficients.length p).1.degree = 0
  set rest := (divideOut (linear 0 1) p.coefficients.length p).1
  set multiplicity := (divideOut (linear 0 1) p.coefficients.length p).2
  have unit : IsUnit rest.toPolynomial :=
    isUnit_of_dvd_power ((Dvd.intro _ product.symm).trans power.dvd) undivided
  have low := natDegree_eq_zero_of_isUnit unit
  have count : multiplicity = n + 1 := by
    rw [product, natDegree_mul unit.ne_zero (pow_ne_zero _ X_ne_zero), low, natDegree_X_pow, zero_add] at degree
    exact degree
  refine ⟨?_, ?_⟩
  · rw [count, if_neg n.succ_ne_zero]
  · rw [degree_eq unit.ne_zero, low]
    rfl

/-- A power of the unknown has one factor, whether or not roots are looked for. -/
theorem factorization_power (limit : ℤ) (power : p.toPolynomial = X ^ (n + 1)) :
    (p.factorization limit).2 = [(linear 0 1, n + 1)] := by
  have nonzero : p.toPolynomial ≠ 0 := power ▸ pow_ne_zero (n + 1) X_ne_zero
  have same : Associated p.primitive.2.toPolynomial (X ^ (n + 1)) := power ▸ associated_primitive nonzero
  obtain ⟨factors, rest⟩ := deflate_power same
  rw [factorization, rationalRoots_power limit same]
  dsimp only
  rw [factors, rest, if_neg (lt_irrefl 0), List.append_nil]

/-- There is nothing to be looked for, so no limit is read. -/
theorem meets_findFactors_power (power : p.toPolynomial = X ^ (n + 1)) :
    Meets context (Interrupted context) p.findFactors fun found => found.2 = [(linear 0 1, n + 1)] := by
  have nonzero : p.toPolynomial ≠ 0 := power ▸ pow_ne_zero (n + 1) X_ne_zero
  have same : Associated p.primitive.2.toPolynomial (X ^ (n + 1)) := power ▸ associated_primitive nonzero
  have limits : Meets context (Interrupted context) p.primitive.2.searchLimit fun _ => True := by
    unfold searchLimit
    split
    · exact Meets.pure trivial
    · rw [rootSearch?_power same]
      exact Meets.pure trivial
  refine Meets.bind _ limits fun limit _ => ?_
  exact Meets.bind _ (meets_pollSteps _) fun _ _ => Meets.pure (factorization_power limit power)

/-- A constant over a power of the unknown, from the first to the last. -/
structure IsPole (last : ℕ) (part : Part) : Prop where
  power : ∃ k ≤ last, part.2 = (linear 0 1, k + 1)
  constant : part.1.toPolynomial = C (part.1.coeff 0)

theorem isPole_of_low {parts : List Part} (low : Low parts)
    (powers : parts.map Prod.snd = factorPowers [(linear 0 1, n + 1)]) : ∀ part ∈ parts, IsPole n part := by
  intro part member
  have listed : part.2 ∈ factorPowers [(linear 0 1, n + 1)] := powers ▸ List.mem_map_of_mem member
  rw [factorPowers, List.flatMap_singleton] at listed
  obtain ⟨k, small, same⟩ := List.mem_map.mp listed
  refine ⟨⟨k, Nat.lt_succ_iff.mp (List.mem_range.mp small), same.symm⟩, ?_⟩
  have below := low part member
  rw [← same, toPolynomial_linear, C_0, sub_zero, degree_X] at below
  rw [← coeff_toPolynomial]
  exact eq_C_of_degree_le_zero (Nat.WithBot.lt_one_iff_le_zero.mp below)

/-- The fractions over the last power of the unknown. -/
theorem above_of_total {parts : List Part} {q : Poly} (poles : ∀ part ∈ parts, IsPole n part)
    (power : q.toPolynomial = X ^ (n + 1))
    (sum : algebraMap ℚ[X] (RatFunc ℚ) p.toPolynomial = algebraMap ℚ[X] (RatFunc ℚ) q.toPolynomial * total parts) :
    p.toPolynomial = (parts.map fun part => monomial (n + 1 - part.2.2) (part.1.coeff 0)).sum := by
  refine RatFunc.algebraMap_injective ℚ ?_
  rw [sum, total, ← List.sum_map_mul_left, map_list_sum, List.map_map]
  refine congrArg List.sum (List.map_congr_left fun part member => ?_)
  obtain ⟨⟨k, bound, same⟩, constant⟩ := poles part member
  have unknown := map_ne_zero_ratFunc (X_ne_zero (R := ℚ))
  obtain ⟨j, rfl⟩ := Nat.exists_eq_add_of_le bound
  rw [Function.comp_apply, fraction, same, toPolynomial_linear, C_0, sub_zero, constant, power,
    ← C_mul_X_pow_eq_monomial, show k + j + 1 - (k + 1) = j by omega, map_mul, map_pow, map_pow]
  field_simp
  ring

end ExactAlgebra.Poly

namespace ExactAlgebra.Expr
open Engine ExactAlgebra.Poly
open scoped Polynomial

variable {x : String} {e : Expr} {context : Context} {p q : Poly} {items others : List (ℕ × ℚ)} {m : ℕ}
  {parts : List Part}

section

variable (named : Identifier x) (unknown : isVariableName x = true)

include named unknown

theorem mul_symbols {k l : ℤ} (nonzeroK : k ≠ 0) (nonzeroL : l ≠ 0) :
    mul (symbol 1 x k) (symbol 1 x l) = .ok (powerTerm x 1 (k + l)) := by
  have plainK := plainFactor_symbol named unknown nonzeroK
  have plainL := plainFactor_symbol named unknown nonzeroL
  have keys : (symbol 1 x l).baseKey = (symbol 1 x k).baseKey := rfl
  have keyed (p : ℚ) : (symbol 1 x p).hasBaseKey = true := rfl
  have enough : 2 * (1 + 1) + 5 ≤ workLimit (symbol 1 x k) (symbol 1 x l) :=
    @enough_work (symbol 1 x k) (symbol 1 x l)
  obtain ⟨n, limit⟩ : ∃ n, workLimit (symbol 1 x k) (symbol 1 x l) = n + 6 :=
    ⟨workLimit (symbol 1 x k) (symbol 1 x l) - 6, by omega⟩
  have merged : mergeWithin (n + 5) [symbol 1 x k, symbol 1 x l] [] 1 =
      mergeWithin (n + 3) (mergedFactors (mergedPower (symbol 1 x k) (symbol 1 x l))) [] 1 := by
    rw [mergeWithin_fresh (keyed _) rfl, mergeWithin_alike plainL plainK (keyed _)]
    · rfl
    · simp [removeFactor, keys]
  have product : mul (symbol 1 x k) (symbol 1 x l) =
      mergeWithin (n + 5) [symbol 1 x k, symbol 1 x l] [] 1 >>= fun found =>
        .ok (ofFactors (found.1.map (·.2)) found.2) := by
    rw [mul, limit]
    unfold mulWithin
    simp only [coeff, mul_one]
    rfl
  rw [product, merged, (mergedFactors_mergedPower plainL plainK).2]
  simp only [power, ← Int.cast_add, Int.cast_eq_zero]
  split
  next zero =>
    rw [zero, powerTerm_zero]
    rfl
  next other =>
    rw [powerTerm_of_ne other, withPower, mergeWithin_fresh (keyed _) rfl]
    rfl

omit named unknown in
theorem mul_number_powerTerm {c d : ℚ} (nonzeroC : c ≠ 0) (nonzeroD : d ≠ 0) (k : ℤ) :
    mul (number c) (powerTerm x d k) = .ok (powerTerm x (d * c) k) := by
  obtain ⟨n, limit⟩ := enough_for_one (number c) (powerTerm x d k)
  rw [mul, limit, mulWithin_number _ nonzeroC (isZero_powerTerm nonzeroD x k), scale_powerTerm x nonzeroC]

theorem div_symbols {k l : ℤ} (nonzeroK : k ≠ 0) (nonzeroL : l ≠ 0) :
    div (symbol 1 x k) (symbol 1 x l) = .ok (powerTerm x 1 (k - l)) := by
  have inverted := powRat_symbol named unknown nonzeroL (show (-1 : ℤ) ≠ 0 by decide)
  rw [Int.cast_neg, Int.cast_one] at inverted
  change ((symbol 1 x l).powRat (-1) >>= mul (symbol 1 x k)) = _
  rw [inverted]
  change mul (symbol 1 x k) (symbol 1 x _) = _
  rw [mul_symbols named unknown nonzeroK (mul_ne_zero nonzeroL (by decide)), mul_neg_one, sub_eq_add_neg]

theorem div_number_symbol {c : ℚ} (nonzero : c ≠ 0) {k : ℤ} (power : k ≠ 0) :
    div (number c) (symbol 1 x k) = .ok (powerTerm x c (-k)) := by
  have inverted := powRat_symbol named unknown power (show (-1 : ℤ) ≠ 0 by decide)
  rw [Int.cast_neg, Int.cast_one] at inverted
  change ((symbol 1 x k).powRat (-1) >>= mul (number c)) = _
  rw [inverted]
  change mul (number c) (symbol 1 x _) = _
  rw [← powerTerm_of_ne (mul_ne_zero power (by decide)), mul_number_powerTerm nonzero one_ne_zero,
    one_mul, mul_neg_one]

omit named unknown in
theorem mul_powerTerm_number {c d : ℚ} (nonzeroC : c ≠ 0) (nonzeroD : d ≠ 0) (k : ℤ) :
    mul (powerTerm x c k) (number d) = .ok (powerTerm x (c * d) k) := by
  obtain ⟨n, limit⟩ := enough_for_one (powerTerm x c k) (number d)
  have some : ((powerTerm x c k).isZero || (number d).isZero) = false := by
    rw [isZero_powerTerm nonzeroC, Bool.false_or]
    simpa [isZero] using nonzeroD
  rw [mul, limit]
  unfold mulWithin
  rw [some, if_neg Bool.false_ne_true]
  by_cases zero : k = 0
  · subst zero
    rw [powerTerm_zero, powerTerm_zero]
    change Except.ok ((number d).scale c) = _
    rw [Expr.scale, if_neg nonzeroC]
    exact congrArg (Except.ok ∘ number) (mul_comm d c)
  · rw [powerTerm_of_ne zero, powerTerm_of_ne zero]
    change Except.ok ((symbol c x k).scale d) = _
    rw [Expr.scale, if_neg nonzeroD]
    rfl

omit named unknown in
theorem div_powerTerm_number {c d : ℚ} (nonzeroC : c ≠ 0) (nonzeroD : d ≠ 0) (k : ℤ) :
    div (powerTerm x c k) (number d) = .ok (powerTerm x (c / d) k) := by
  have some : (number d).isZero = false := by simpa [isZero] using nonzeroD
  have inverted : inv (number d) = .ok (number d⁻¹) := by
    rw [inv, Rational.invert, if_neg nonzeroD]
    rfl
  unfold div
  rw [if_neg (by rw [some]; exact Bool.false_ne_true), inverted]
  exact (mul_powerTerm_number nonzeroC (inv_ne_zero nonzeroD) k).trans (by rw [div_eq_mul_inv])

end

/-- The powers of the reciprocal, from the first on. -/
def reciprocal (n : ℕ) : ℤ := -(n + 1)

theorem reciprocal_injective : Function.Injective reciprocal := fun n m same => by
  unfold reciprocal at same
  omega

theorem reciprocal_ne_zero (n : ℕ) : reciprocal n ≠ 0 := by
  unfold reciprocal
  omega

theorem powerTerm_reciprocal (x : String) (c : ℚ) (n : ℕ) :
    powerTerm x c (reciprocal n) = symbol c x (reciprocal n) :=
  powerTerm_of_ne (reciprocal_ne_zero n) x c

theorem isWritable_reciprocal (n : ℕ) :
    Rational.isWritable (reciprocal n) = decide (n + 1 < Rational.digitBound) := by
  have same : ((reciprocal n : ℤ) : ℚ) = -((n + 1 : ℕ) : ℚ) := by
    rw [reciprocal, Int.cast_neg]
    norm_cast
  rw [← isWritable_natCast, same, Rational.isWritable, Rational.isWritable, Rat.neg_num, Int.natAbs_neg,
    Rat.neg_den]

/-- What such a power stands for below the line. -/
def denominator (x : String) (n : ℕ) : Expr := symbol 1 x ((n + 1 : ℤ) : ℚ)

theorem denominator_eq (x : String) (n : ℕ) : denominator x n = powerTerm x 1 ((n + 1 : ℕ) : ℤ) := by
  rw [powerTerm_of_ne (by exact_mod_cast n.succ_ne_zero)]
  rfl

theorem mem_iff_coeff (distinct : (items.map Prod.fst).Nodup) (nonzero : ∀ i ∈ items, i.2 ≠ 0) (i : ℕ × ℚ) :
    i ∈ items ↔ i.2 ≠ 0 ∧ (monomials items).coeff i.1 = i.2 := by
  induction items generalizing i with
  | nil => simp [eq_comm]
  | cons j rest ih =>
    rw [List.map_cons, List.nodup_cons] at distinct
    have others := ih distinct.2 fun k later => nonzero k (List.mem_cons_of_mem _ later)
    rw [monomials_cons, Polynomial.coeff_add, Polynomial.coeff_monomial, List.mem_cons, others]
    by_cases same : j.1 = i.1
    · have absent : (monomials rest).coeff i.1 = 0 := by
        by_contra present
        have member := (others (i.1, _)).mpr ⟨present, rfl⟩
        exact distinct.1 (same ▸ List.mem_map.mpr ⟨_, member, rfl⟩)
      rw [if_pos same, absent, add_zero]
      constructor
      · rintro (rfl | ⟨some, none⟩)
        · exact ⟨nonzero i List.mem_cons_self, rfl⟩
        · exact absurd none.symm some
      · rintro ⟨-, equal⟩
        exact .inl (Prod.ext same.symm equal.symm)
    · rw [if_neg same, zero_add]
      constructor
      · rintro (rfl | right)
        · exact absurd rfl same
        · exact right
      · exact .inr

/-- The terms of a sum of monomials are known from the sum. -/
theorem perm_of_monomials (distinct : (items.map Prod.fst).Nodup)
    (distinctOthers : (others.map Prod.fst).Nodup) (nonzero : ∀ i ∈ items, i.2 ≠ 0)
    (nonzeroOthers : ∀ i ∈ others, i.2 ≠ 0) (same : monomials items = monomials others) :
    items.Perm others := by
  refine (List.perm_ext_iff_of_nodup (.of_map _ distinct) (.of_map _ distinctOthers)).mpr fun i => ?_
  rw [mem_iff_coeff distinct nonzero, mem_iff_coeff distinctOthers nonzeroOthers, same]

/-- The multiples of powers counted down from the highest. -/
def descending (m : ℕ) (items : List (ℕ × ℚ)) : List (ℕ × ℚ) := items.map fun i => (m - i.1, i.2)

theorem descending_descending (bound : ∀ i ∈ items, i.1 ≤ m) : descending m (descending m items) = items := by
  rw [descending, descending, List.map_map]
  refine (List.map_congr_left fun i member => ?_).trans (List.map_id items)
  exact Prod.ext (Nat.sub_sub_self (bound i member)) rfl

theorem indices_descending (m : ℕ) (items : List (ℕ × ℚ)) :
    (descending m items).map Prod.fst = (items.map Prod.fst).map (m - ·) := by
  rw [descending, List.map_map, List.map_map]
  rfl

theorem highest_index (bound : ∀ i ∈ items, i.1 ≤ m) {n : ℕ} (listed : n ∈ items.map Prod.fst) : n ≤ m := by
  obtain ⟨i, member, rfl⟩ := List.mem_map.mp listed
  exact bound i member

theorem nodup_descending (bound : ∀ i ∈ items, i.1 ≤ m) (distinct : (items.map Prod.fst).Nodup) :
    ((descending m items).map Prod.fst).Nodup := by
  rw [indices_descending]
  refine distinct.map_on fun k memberK l memberL equal => ?_
  have boundK := highest_index bound memberK
  have boundL := highest_index bound memberL
  omega

theorem nonzero_descending (nonzero : ∀ i ∈ items, i.2 ≠ 0) : ∀ i ∈ descending m items, i.2 ≠ 0 := by
  intro i member
  obtain ⟨j, inside, rfl⟩ := List.mem_map.mp member
  exact nonzero j inside

/-- Powers that can be written out can be written out over the highest one. -/
theorem Legible.over (legible : Legible reciprocal (items.map Prod.fst)) (reached : m ∈ items.map Prod.fst) :
    Legible (fun n => n) ((descending m items).map Prod.fst) := by
  rw [indices_descending]
  rcases legible with short | writable
  · exact .inl (by rwa [List.length_map])
  · refine .inr fun n listed => ?_
    obtain ⟨k, -, rfl⟩ := List.mem_map.mp listed
    have bound := writable m reached
    rw [isWritable_reciprocal, decide_eq_true_eq] at bound
    rw [Int.cast_natCast, isWritable_natCast, decide_eq_true_eq]
    omega

/-- Of powers of one name the highest is kept. -/
theorem raise_denominators (x : String) (ns : List ℕ) (n : ℕ) :
    ∃ m, (ns.map (denominator x)).foldl raiseCommon [((bare x).baseKey, denominator x n)] =
        [((bare x).baseKey, denominator x m)] ∧ (∀ k ∈ n :: ns, k ≤ m) ∧ m ∈ n :: ns := by
  induction ns generalizing n with
  | nil => exact ⟨n, rfl, by simp, by simp⟩
  | cons k ns ih =>
    have step : raiseCommon [((bare x).baseKey, denominator x n)] (denominator x k) =
        [((bare x).baseKey, denominator x (max n k))] := by
      have key : (denominator x k).baseKey = (bare x).baseKey := rfl
      have found : List.lookup (bare x).baseKey [((bare x).baseKey, denominator x n)] = some (denominator x n) :=
        List.lookup_cons_self
      have order : (denominator x n).power < (denominator x k).power ↔ n < k := by
        simp [denominator, power]
      unfold raiseCommon
      simp only [key, found, order]
      split
      next higher => rw [max_eq_right higher.le, Table.insert, if_pos (beq_self_eq_true _)]
      next lower => rw [max_eq_left (not_lt.mp lower)]
    obtain ⟨m, raised, bound, reached⟩ := ih (max n k)
    refine ⟨m, ?_, ?_, ?_⟩
    · rw [List.map_cons, List.foldl_cons, step, raised]
    · simp only [List.forall_mem_cons, max_le_iff] at bound ⊢
      exact ⟨bound.1.1, bound.1.2, bound.2⟩
    · rcases List.mem_cons.mp reached with same | later
      · rcases max_choice n k with left | right
        · simp [same, left]
        · simp [same, right]
      · simp [later]

/-- The common denominator is the highest of all. -/
theorem common_denominators (x : String) {ns : List ℕ} (highest : ∀ n ∈ ns, n ≤ m) (reached : m ∈ ns) :
    (ns.map (denominator x)).foldl raiseCommon [] = [((bare x).baseKey, denominator x m)] := by
  cases ns with
  | nil => cases reached
  | cons n ns =>
    obtain ⟨k, raised, bound, inside⟩ := raise_denominators x ns n
    rw [List.map_cons, List.foldl_cons, ← le_antisymm (highest k inside) (bound m reached)]
    exact raised

section

variable (named : Identifier x) (unknown : isVariableName x = true)

include named unknown

theorem splitFraction_reciprocal (c : ℚ) (n : ℕ) :
    splitFraction (powerTerm x c (reciprocal n)) = .ok (number c, denominator x n) := by
  have inverted := powRat_symbol named unknown (reciprocal_ne_zero n) (show (-1 : ℤ) ≠ 0 by decide)
  rw [reciprocal, neg_mul_neg, mul_one, Int.cast_neg (R := ℚ) 1, Int.cast_one] at inverted
  have below : (symbol c x (reciprocal n : ℚ)).isBelow = true := by
    have negative : (reciprocal n : ℚ) < 0 := by
      unfold reciprocal
      exact_mod_cast Int.neg_neg_of_pos (Int.natCast_succ_pos n)
    simp [isBelow, isExponential, power, negative]
  rw [powerTerm_reciprocal]
  change (if (symbol c x (reciprocal n : ℚ)).isBelow then
    (symbol 1 x (reciprocal n : ℚ)).powRat (-1) >>= fun d => .ok (number c, d) else _) = _
  rw [if_pos below]
  unfold reciprocal
  rw [inverted]
  rfl

/-- Over the highest power, a sum of reciprocals is a polynomial. -/
theorem PowerSum.meets_together (sum : PowerSum x reciprocal items e) (highest : ∀ i ∈ items, i.1 ≤ m)
    (reached : m ∈ items.map Prod.fst) :
    Meets context (Interrupted context) e.together fun parts =>
      PowerSum x (fun n => n) (descending m items) parts.1 ∧ parts.2 = denominator x m := by
  have filled : items ≠ [] := List.ne_nil_of_mem (List.mem_map.mp reached).choose_spec.1
  unfold together
  have expands : Meets context (Interrupted context) (expand e) (PowerSum x reciprocal items) :=
    (sum.meets_expand named unknown reciprocal_injective).accept fun _ => interrupted_of_unset
  refine Meets.bind _ expands fun expanded same => ?_
  obtain ⟨others, listed, terms⟩ := same.spread filled
  have indices := listed.map Prod.fst
  have bound : ∀ i ∈ others, i.1 ≤ m := fun i member => highest i (listed.mem_iff.mp member)
  have reachedOthers := indices.mem_iff.mpr reached
  have distinct := indices.nodup_iff.mpr sum.distinct
  have nonzero : ∀ i ∈ others, i.2 ≠ 0 := fun i member => sum.nonzero i (listed.mem_iff.mp member)
  rw [terms]
  refine Meets.bind (· = others.map fun i => (number i.2, denominator x i.1)) ?_ ?_
  · exact Meets.mapM_map fun i _ => Meets.of_ok (splitFraction_reciprocal named unknown i.2 i.1)
  rintro _ rfl
  have under : (others.map fun i => (number i.2, denominator x i.1)).flatMap (fun part => part.2.factors) =
      (others.map Prod.fst).map (denominator x) := by
    rw [List.flatMap_map, List.map_map, List.map_eq_flatMap]
    rfl
  have keyed : ((others.map Prod.fst).map (denominator x)).any (!·.hasBaseKey) = false := by
    refine List.any_eq_false.mpr fun d member => ?_
    obtain ⟨n, -, rfl⟩ := List.mem_map.mp member
    exact Bool.false_ne_true
  dsimp only
  rw [under, keyed, if_neg Bool.false_ne_true,
    common_denominators x (fun n member => highest_index bound member) reachedOthers]
  refine Meets.bind (· = denominator x m) (Meets.of_ok ?_) ?_
  · change (mul (number 1) (denominator x m) >>= fun r => Except.ok r) = _
    rw [denominator_eq, mul_number_powerTerm one_ne_zero one_ne_zero, one_mul]
    rfl
  rintro _ rfl
  obtain ⟨r, added, powers⟩ := @PowerSum.exists_addAll x (fun n => n) (descending m others) named unknown
    Nat.cast_injective (nodup_descending bound distinct) (nonzero_descending nonzero)
    ((sum.legible.perm indices.symm).over reachedOthers)
  rw [Expr.addAll, descending, List.foldlM_map, List.foldlM_map] at added
  refine Meets.bind (· = r) ?_ ?_
  · rw [List.foldlM_map]
    refine (Meets.foldlM_lift (f := fun total i => Expr.add total (powerTerm x i.2 ((m - i.1 : ℕ) : ℤ)))
      (fun total i member refuses => ?_) fun fault failed => ?_).imp fun other computed => ?_
    · have shift : ((m : ℤ) + 1) - (i.1 + 1) = (m - i.1 : ℕ) := by
        have small := bound i member
        omega
      refine Meets.bind _ Engine.meets_poll fun _ _ => ?_
      refine Meets.bind _ (Meets.of_ok (div_symbols named unknown (by omega) (by omega))) ?_
      rintro _ rfl
      refine Meets.bind _ (Meets.of_ok (mul_number_powerTerm (nonzero i member) one_ne_zero _)) ?_
      rintro _ rfl
      rw [one_mul, shift]
      refine Meets.bind _ ((meets_expand_powerTerm x i.2 _).accept fun _ => interrupted_of_unset) ?_
      rintro _ rfl
      exact Meets.lift (fun _ => id) refuses
    · cases added.symm.trans failed
    · exact Except.ok.inj (computed.symm.trans added)
  · rintro _ rfl
    exact Meets.pure ⟨powers.perm (listed.map _), rfl⟩

end

theorem toExpr_constant (x : String) {c : ℚ} (nonzero : c ≠ 0) (constant : p.toPolynomial = Polynomial.C c) :
    p.toExpr x = .ok (number c) := by
  have same : p = ofList [c] := by
    refine toPolynomial_injective ?_
    rw [constant, toPolynomial_ofList]
    simp [ofCoefficients]
  have single : (ofList [c]).coefficients = [c] := if_neg nonzero
  rw [same, toExpr, single, addTerms, if_neg nonzero]
  change Except.ok (one.scale c) = _
  rw [Expr.scale, if_neg nonzero]
  exact congrArg (Except.ok ∘ number) (one_mul c)

/-- The multiples of powers that fractions over powers of the unknown are. -/
def poleItems (parts : List Part) : List (ℕ × ℚ) :=
  (parts.filter fun part => !part.1.isZero).map fun part => (part.2.2 - 1, part.1.coeff 0)

section

variable (named : Identifier x) (unknown : isVariableName x = true)

include named unknown

theorem toExpr_unknown : (linear 0 1).toExpr x = .ok (bare x) := by
  have raised : (bare x).powRat ((0 + 1 : ℕ) : ℚ) = .ok (bare x) := powRat_bare named unknown one_ne_zero
  have coefficients : (linear 0 1).coefficients = [-0, 1] := by decide
  rw [toExpr, coefficients, addTerms, if_pos neg_zero, addTerms, if_neg one_ne_zero, if_neg Nat.one_ne_zero]
  dsimp only
  rw [raised]
  change Except.ok ((bare x).scale 1) = _
  rw [Expr.scale, if_neg one_ne_zero, mul_one]
  rfl

theorem fraction?_pole {part : Part} (isPole : IsPole m part) (some : part.1.coeff 0 ≠ 0) :
    fraction? x part = .ok (powerTerm x (part.1.coeff 0) (reciprocal (part.2.2 - 1))) := by
  obtain ⟨⟨k, -, same⟩, constant⟩ := isPole
  unfold fraction?
  rw [same, toExpr_unknown named unknown, toExpr_constant x some constant]
  change ((bare x).powRat ((k + 1 : ℕ) : ℚ) >>= fun below => (number (part.1.coeff 0)).div below) = _
  rw [powRat_bare named unknown k.succ_ne_zero]
  have divided := div_number_symbol named unknown some (show ((k + 1 : ℕ) : ℤ) ≠ 0 by omega)
  rw [Int.cast_natCast] at divided
  exact divided

theorem addFractions_poles (poles : ∀ part ∈ parts, IsPole m part) (start : Expr) :
    addFractions x start parts = addAll start ((poleItems parts).map fun i => powerTerm x i.2 (reciprocal i.1)) := by
  induction parts generalizing start with
  | nil => rfl
  | cons part rest ih =>
    obtain ⟨isPole, later⟩ := List.forall_mem_cons.mp poles
    have zero_iff : part.1.isZero = true ↔ part.1.coeff 0 = 0 := by
      rw [isZero_iff, isPole.constant, Polynomial.C_eq_zero]
    rw [addFractions_cons]
    split
    next zero =>
      rw [ih later, poleItems, poleItems, List.filter_cons_of_neg (by simp [zero])]
    next some =>
      rw [fraction?_pole named unknown isPole (mt zero_iff.mpr some), poleItems,
        List.filter_cons_of_pos (by simpa using some), List.map_cons, List.map_cons]
      change (add start _ >>= fun sum => addFractions x sum rest) = (add start _ >>= fun sum => addAll sum _)
      exact congrArg _ (funext fun sum => ih later sum)

end

theorem sum_poles (poles : ∀ part ∈ parts, IsPole m part) :
    (parts.map fun part => Polynomial.monomial (m + 1 - part.2.2) (part.1.coeff 0)).sum =
      monomials (descending m (poleItems parts)) := by
  induction parts with
  | nil => rfl
  | cons part rest ih =>
    obtain ⟨isPole, later⟩ := List.forall_mem_cons.mp poles
    obtain ⟨⟨k, -, same⟩, constant⟩ := isPole
    have zero_iff : part.1.isZero = true ↔ part.1.coeff 0 = 0 := by
      rw [isZero_iff, constant, Polynomial.C_eq_zero]
    rw [List.map_cons, List.sum_cons, ih later, poleItems, poleItems]
    by_cases zero : part.1.isZero = true
    · rw [List.filter_cons_of_neg (by simp [zero]), zero_iff.mp zero, map_zero, zero_add]
    · have shift : m + 1 - part.2.2 = m - (part.2.2 - 1) := by
        rw [same]
        omega
      rw [List.filter_cons_of_pos (by simpa using zero), shift]
      rfl

theorem nodup_poleItems (powers : parts.map Prod.snd = factorPowers [(linear 0 1, m + 1)]) :
    ((poleItems parts).map Prod.fst).Nodup := by
  have indices : (parts.map Prod.snd).map (fun power => power.2 - 1) = List.range (m + 1) := by
    rw [powers, factorPowers, List.flatMap_singleton]
    simp [List.map_map, Function.comp_def]
  rw [List.map_map] at indices
  rw [poleItems, List.map_map]
  refine List.Nodup.sublist (List.filter_sublist.map _) ?_
  exact indices ▸ List.nodup_range

theorem poleItems_bound (poles : ∀ part ∈ parts, IsPole m part) : ∀ i ∈ poleItems parts, i.1 ≤ m ∧ i.2 ≠ 0 := by
  intro i member
  obtain ⟨part, inside, rfl⟩ := List.mem_map.mp member
  obtain ⟨listed, some⟩ := List.mem_filter.mp inside
  obtain ⟨⟨k, bound, same⟩, constant⟩ := poles part listed
  refine ⟨by rw [same]; exact bound, fun zero => ?_⟩
  rw [show part.1.coeff 0 = 0 from zero, Polynomial.C_0] at constant
  rw [(isZero_iff part.1).mpr constant] at some
  cases some

/-- The highest index. -/
theorem exists_highest (some : items ≠ []) : ∃ m, (∀ i ∈ items, i.1 ≤ m) ∧ m ∈ items.map Prod.fst := by
  induction items with
  | nil => exact absurd rfl some
  | cons i rest ih =>
    by_cases none : rest = []
    · subst none
      exact ⟨i.1, by simp, by simp⟩
    · obtain ⟨m, bound, reached⟩ := ih none
      rcases le_total i.1 m with below | above
      · exact ⟨m, by simpa using ⟨below, fun a b => bound (a, b)⟩, List.mem_cons_of_mem _ reached⟩
      · refine ⟨i.1, ?_, List.mem_cons_self⟩
        exact List.forall_mem_cons.mpr ⟨le_rfl, fun j later => (bound j later).trans above⟩

/-- What is smaller than the divisor is the remainder. -/
theorem quot_of_degree_lt (low : p.toPolynomial.degree < q.toPolynomial.degree) :
    quot p q = Poly.zero ∧ rem p q = p := by
  have nonzero : q.toPolynomial ≠ 0 := Polynomial.ne_zero_of_degree_gt low
  obtain ⟨division, smaller⟩ := quot_mul_add_rem p nonzero
  have none : (quot p q).toPolynomial = 0 := by
    by_contra quotient
    have rest : ((quot p q).toPolynomial * q.toPolynomial).degree < q.toPolynomial.degree := by
      rw [← add_sub_cancel_right ((quot p q).toPolynomial * q.toPolynomial) (rem p q).toPolynomial, ← division]
      exact (Polynomial.degree_sub_le _ _).trans_lt (max_lt low smaller)
    rw [mul_comm] at rest
    exact absurd rest (not_lt.mpr (Polynomial.degree_le_mul_left _ quotient))
  rw [none, zero_mul, zero_add] at division
  exact ⟨toPolynomial_injective (none.trans ((toPolynomial_eq_zero Poly.zero).mpr rfl).symm),
    (toPolynomial_injective division).symm⟩

/-- A sum of reciprocals of powers has itself as its partial fractions. -/
theorem PowerSum.meets_partfrac (named : Identifier x) (unknown : isVariableName x = true)
    (sum : PowerSum x reciprocal items e) (filled : items ≠ []) :
    Meets context (Interrupted context) (e.partfrac (some x)) (PowerSum x reciprocal items) := by
  obtain ⟨m, highest, reached⟩ := exists_highest filled
  have distinct := nodup_descending highest sum.distinct
  have nonzero : ∀ i ∈ descending m items, i.2 ≠ 0 := nonzero_descending sum.nonzero
  have coefficients := mem_iff_coeff distinct nonzero
  obtain ⟨p, above⟩ : ∃ p : Poly,
      p.toPolynomial = monomials (descending m items) := by
    obtain ⟨cs, -, -, value⟩ := @collect_powers x (descending m items) []
    exact ⟨ofList cs, by rw [toPolynomial_ofList, value, ofCoefficients, zero_add]⟩
  obtain ⟨q, below⟩ : ∃ q : Poly, q.toPolynomial = Polynomial.X ^ (m + 1) :=
    ⟨shift (m + 1), toPolynomial_shift (m + 1)⟩
  rw [← above] at coefficients
  have some : p.toPolynomial ≠ 0 := by
    intro zero
    obtain ⟨i, inside, -⟩ := List.mem_map.mp reached
    have member : (m - i.1, i.2) ∈ descending m items := List.mem_map_of_mem inside
    have value := (coefficients _).mp member
    rw [zero, Polynomial.coeff_zero] at value
    exact value.1 value.2.symm
  have low : p.toPolynomial.degree < q.toPolynomial.degree := by
    rw [below, Polynomial.degree_X_pow, Polynomial.degree_lt_iff_coeff_zero]
    intro n large
    by_contra present
    obtain ⟨i, -, same⟩ := List.mem_map.mp ((coefficients (n, _)).mpr ⟨present, rfl⟩)
    have index : m - i.1 = n := congrArg Prod.fst same
    omega
  obtain ⟨quotient, remainder⟩ := quot_of_degree_lt low
  have written : (quot p q).toExpr x = .ok Expr.zero := by
    rw [quotient]
    rfl
  refine @Expr.meets_partfrac context e x p q (Interrupted context) (PowerSum x reciprocal items)
    (· = [(linear 0 1, m + 1)]) (fun _ => id) ?_ (fun guard _ => ?_) ?_ ?_ (fun fault refused => ?_)
    (fun guard opens => ?_) fun start factors same known => ?_
  · exact checkOpen_of_wellFormed sum.formed
  · refine (sum.meets_together named unknown highest reached).imp ?_
    rintro ⟨numerator, _⟩ ⟨powers, rfl⟩
    have single := @PowerSum.single x (fun n => n) named unknown (m + 1) 1 one_ne_zero
    rw [← denominator_eq] at single
    refine ⟨((powers.meets_poly? named unknown).accept fun _ => interrupted_of_unset).imp ?_,
      ((single.meets_poly? named unknown).accept fun _ => interrupted_of_unset).imp ?_⟩
    · rintro _ ⟨other, rfl, value⟩
      exact congrArg Option.some (toPolynomial_injective (value.trans above.symm))
    · rintro _ ⟨other, rfl, value⟩
      refine congrArg Option.some (toPolynomial_injective (value.trans ?_))
      rw [monomials_cons, monomials_nil, add_zero, below, Polynomial.X_pow_eq_monomial]
  · rw [degree_eq (Polynomial.ne_zero_of_degree_gt low), below, Polynomial.natDegree_X_pow]
    omega
  · exact fun divides => some (Polynomial.eq_zero_of_dvd_of_degree_lt divides low)
  · cases written.symm.trans refused
  · exact (meets_findFactors_power below).accept fun _ => Interrupted.of_block opens
  · obtain rfl := Except.ok.inj (written.symm.trans same)
    subst known
    have split := factorization_split 0 (Polynomial.ne_zero_of_degree_gt low)
    rw [factorization_power 0 below] at split
    obtain ⟨parts, solved, powers, small, total⟩ := exists_partialNumerators split low
    have poles := isPole_of_low small powers
    have bounds := poleItems_bound poles
    have distinctPoles := nodup_poleItems powers
    have value := above_of_total poles below total
    rw [sum_poles poles, above] at value
    have listed : items.Perm (poleItems parts) := by
      have reversed := perm_of_monomials distinct
        (nodup_descending (fun i member => (bounds i member).1) distinctPoles) nonzero
        (nonzero_descending fun i member => (bounds i member).2) value
      have back := reversed.map fun i => (m - i.1, i.2)
      rwa [← descending, ← descending, descending_descending highest,
        descending_descending fun i member => (bounds i member).1] at back
    obtain ⟨r, added, result⟩ := @PowerSum.exists_addAll x reciprocal (poleItems parts) named unknown
      reciprocal_injective distinctPoles (fun i member => (bounds i member).2) (sum.legible.perm (listed.map _))
    have all := addFractions_poles named unknown poles Expr.zero
    rw [added] at all
    refine ⟨parts, by rw [remainder, solved], fun other returned => ?_, fun fault failed => ?_⟩
    · obtain rfl := Except.ok.inj (all.symm.trans returned)
      exact result.perm listed.symm
    · cases all.symm.trans failed

end ExactAlgebra.Expr
