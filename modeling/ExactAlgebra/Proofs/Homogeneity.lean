import ExactAlgebra.Proofs.PowerSums
import ExactAlgebra.Proofs.Separation
import ExactAlgebra.Proofs.Tidiness
import Mathlib

/-! Multiples. A factor in front of an expression stays in front: products carry it along, and sums of
multiples are multiples of sums, up to the order of the terms. -/
namespace ExactAlgebra.Expr

variable {a b e r : Expr} {k l : Rat}

theorem size_withCoeff (e : Expr) (c : Rat) : (e.withCoeff c).size = e.size := by
  cases e <;> rfl

theorem scale_of_ne (e : Expr) (nonzero : k ≠ 0) : e.scale k = e.withCoeff (e.coeff * k) := if_neg nonzero

theorem isZero_scale (nonzero : k ≠ 0) (e : Expr) : (e.scale k).isZero = e.isZero := by
  rw [scale_of_ne e nonzero]
  cases e with
  | number c =>
    rw [Bool.eq_iff_iff]
    simp [withCoeff, isZero, coeff, nonzero]
  | _ => rfl

theorem scale_scale (formed : e.WellFormed) (nonzeroK : k ≠ 0) (nonzeroL : l ≠ 0) :
    (e.scale k).scale l = e.scale (k * l) := by
  rw [scale_of_ne e nonzeroK, scale_of_ne _ nonzeroL, scale_of_ne e (mul_ne_zero nonzeroK nonzeroL),
    withCoeff_withCoeff, formed.coeff_withCoeff, mul_assoc]

theorem mergeWithin_times (n : ℕ) (pending : List Expr) (factors : List (String × Expr)) (c k : Rat) :
    mergeWithin n pending factors (c * k) =
      (mergeWithin n pending factors c).map fun merged => (merged.1, merged.2 * k) := by
  induction n generalizing pending factors c with
  | zero => cases pending <;> rfl
  | succ n ih =>
    cases pending with
    | nil => rfl
    | cons f rest =>
      unfold mergeWithin
      dsimp only
      split
      · rfl
      split
      · exact ih _ _ _
      next g others _ =>
        cases add (exponentOf g) (exponentOf f) with
        | error => rfl
        | ok exponent =>
          cases power : powWithin n (baseOf g) exponent with
          | error => simp only [bind, Except.bind, power, Except.map]
          | ok merged =>
            simp only [bind, Except.bind, power]
            rw [mul_right_comm]
            exact ih _ _ _

theorem coeff_ofFactors {factors : List Expr} {c : Rat} (nonzero : c ≠ 0)
    (formed : (ofFactors factors c).WellFormed) : (ofFactors factors c).coeff = c := by
  unfold ofFactors at formed ⊢
  rw [if_neg nonzero] at formed ⊢
  match factors, formed with
  | [], _ => rfl
  | [f], formed =>
    cases f with
    | foreign => exact formed.elim
    | _ => rfl
  | f :: g :: rest, _ => rfl

theorem ofFactors_times (nonzero : k ≠ 0) {factors : List Expr} {c : Rat}
    (formed : (ofFactors factors c).WellFormed) : ofFactors factors (c * k) = (ofFactors factors c).scale k := by
  by_cases none : c = 0
  · have zeroed (factors : List Expr) : ofFactors factors 0 = zero := by
      unfold ofFactors
      exact if_pos rfl
    rw [none, zero_mul, zeroed, scale_of_ne _ nonzero]
    exact congrArg number (zero_mul k).symm
  rw [scale_of_ne _ nonzero, coeff_ofFactors none formed, withCoeff_ofFactors none (mul_ne_zero none nonzero)]

theorem zero_scale (nonzero : k ≠ 0) : zero.scale k = zero := by
  rw [scale_of_ne zero nonzero]
  exact congrArg number (zero_mul k)

/-- The product of two expressions other than numbers, by their factors. -/
theorem mulWithin_factors {n : ℕ} (numberA : a.isNumber = false) (numberB : b.isNumber = false) :
    mulWithin (n + 1) a b = (mergeWithin n (a.factors ++ b.factors) [] (a.coeff * b.coeff)).map
      fun merged => ofFactors (merged.1.map (·.2)) merged.2 := by
  have some {e : Expr} (number : e.isNumber = false) : e.isZero = false := by
    cases e with
    | number => cases number
    | _ => rfl
  unfold mulWithin
  rw [some numberA, some numberB]
  split
  next zero => cases zero
  split
  · cases numberA
  · cases numberB
  · cases mergeWithin n (a.factors ++ b.factors) [] (a.coeff * b.coeff) <;> rfl

/-- A factor in front of the left side is one in front of the product. -/
theorem mul_scale (formedA : a.WellFormed) (formedB : b.WellFormed) (nonzero : k ≠ 0) :
    mul (a.scale k) b = (mul a b).map fun r => r.scale k := by
  by_cases vanishes : (a.isZero || b.isZero) = true
  · rw [mul_of_isZero vanishes, mul_of_isZero (by rw [isZero_scale nonzero, vanishes])]
    exact congrArg Except.ok (zero_scale nonzero).symm
  obtain ⟨zeroA, zeroB⟩ : a.isZero = false ∧ b.isZero = false := by simpa using vanishes
  have work : workLimit (a.scale k) b = workLimit a b := by
    rw [workLimit, scale_of_ne a nonzero, size_withCoeff, workLimit]
  obtain ⟨n, limit⟩ := enough_for_one a b
  by_cases numberA : a.isNumber = true
  · obtain ⟨c, rfl⟩ : ∃ c, a = number c := by
      cases a with
      | number c => exact ⟨c, rfl⟩
      | _ => cases numberA
    have some : c ≠ 0 := by simpa [isZero] using zeroA
    rw [mul, work, limit, scale_of_ne _ nonzero]
    refine (mulWithin_number _ (mul_ne_zero some nonzero) zeroB).trans ?_
    rw [mul, limit, mulWithin_number _ some zeroB]
    exact congrArg Except.ok (scale_scale formedB some nonzero).symm
  replace numberA : a.isNumber = false := by simpa using numberA
  have numberS : (a.scale k).isNumber = false := WellFormed.isNumber_scale numberA nonzero
  by_cases numberB : b.isNumber = true
  · obtain ⟨d, rfl⟩ : ∃ d, b = number d := by
      cases b with
      | number d => exact ⟨d, rfl⟩
      | _ => cases numberB
    have some : d ≠ 0 := by simpa [isZero] using zeroB
    rw [mul, work, limit, mulWithin_number_right _ numberS some, mul, limit, mulWithin_number_right _ numberA some]
    have turned : (a.scale k).scale d = (a.scale d).scale k := by
      rw [scale_scale formedA nonzero some, scale_scale formedA some nonzero, mul_comm]
    exact congrArg Except.ok turned
  replace numberB : b.isNumber = false := by simpa using numberB
  have coeffs : (a.scale k).coeff * b.coeff = a.coeff * b.coeff * k := by
    rw [scale_of_ne a nonzero, formedA.coeff_withCoeff, mul_right_comm]
  have factors : (a.scale k).factors = a.factors := by rw [scale_of_ne a nonzero, factors_withCoeff]
  have formed (r : Expr) (returned : mul a b = .ok r) : r.WellFormed := mul_wellFormed formedA formedB returned
  rw [mul, limit, mulWithin_factors numberA numberB] at formed
  rw [mul, work, limit, mulWithin_factors numberS numberB, factors, coeffs, mergeWithin_times, mul, limit,
    mulWithin_factors numberA numberB]
  cases known : mergeWithin (n + 1) (a.factors ++ b.factors) [] (a.coeff * b.coeff) with
  | error => rfl
  | ok result =>
    rw [known] at formed
    exact congrArg Except.ok (ofFactors_times nonzero (formed _ rfl))

theorem div_scale (formedA : a.WellFormed) (formedB : b.WellFormed) (nonzero : k ≠ 0) :
    div (a.scale k) b = (div a b).map fun r => r.scale k := by
  unfold div
  split
  · rfl
  · cases inverse : inv b with
    | error => rfl
    | ok c => exact mul_scale formedA (inv_wellFormed formedB inverse) nonzero

theorem mulAll_scale (formed : a.WellFormed) {factors : List Expr} (each : ∀ f ∈ factors, f.WellFormed)
    (nonzero : k ≠ 0) : mulAll (a.scale k) factors = (mulAll a factors).map fun r => r.scale k := by
  unfold mulAll
  induction factors generalizing a with
  | nil => rfl
  | cons f rest ih =>
    rw [List.foldlM_cons, List.foldlM_cons, mul_scale formed (each f List.mem_cons_self) nonzero]
    cases first : mul a f with
    | error => rfl
    | ok b =>
      exact ih (mul_wellFormed formed (each f List.mem_cons_self) first) fun g later =>
        each g (List.mem_cons_of_mem f later)

/-- To multiply with a number is to take a multiple. -/
theorem number_mul (nonzero : k ≠ 0) (e : Expr) : mul (number k) e = .ok (e.scale k) := by
  obtain ⟨n, limit⟩ := enough_for_one (number k) e
  cases zero : e.isZero with
  | true =>
    rw [mul_of_isZero (by rw [zero, Bool.or_true]), eq_zero_of_isZero zero]
    exact congrArg Except.ok (zero_scale nonzero).symm
  | false => rw [mul, limit, mulWithin_number _ nonzero zero]

theorem weights_scale (formed : e.WellFormed) (nonzero : k ≠ 0) : weights (e.scale k) = k • weights e := by
  rw [weights, weights, summands_scale formed nonzero, List.smul_sum, List.map_map, List.map_map]
  refine congrArg List.sum (List.map_congr_left fun t member => ?_)
  simp only [Function.comp_apply, termKey_withCoeff, coeff_summands formed member, Finsupp.smul_single, smul_eq_mul]
  rw [mul_comm]

theorem IsReduced.scale (reduced : IsReduced e) (nonzero : k ≠ 0) : IsReduced (e.scale k) := by
  refine ⟨reduced.formed.scale k, fun proper t member => ?_⟩
  rw [isZero_scale nonzero] at proper
  rw [summands_scale reduced.formed nonzero] at member
  obtain ⟨u, inside, rfl⟩ := List.mem_map.mp member
  rw [coeff_summands reduced.formed inside]
  exact mul_ne_zero (reduced.nonzero proper u inside) nonzero

theorem isKeyed_scale (formed : e.WellFormed) (nonzero : k ≠ 0) : IsKeyed (e.scale k) ↔ IsKeyed e := by
  rw [IsKeyed, IsKeyed, summands_scale formed nonzero, List.forall_mem_map]
  simp only [hasTermKey_withCoeff]

/-- A sum from the left is a sum in brackets. -/
theorem exists_bracketing (first : Expr) (terms : List Expr) :
    ∃ t : Bracketing, t.leaves = first :: terms ∧ t.total = addAll first terms := by
  have extend (t : Bracketing) (terms : List Expr) : ∃ u : Bracketing, u.leaves = t.leaves ++ terms ∧
      u.total = t.total >>= fun first => addAll first terms := by
    induction terms generalizing t with
    | nil => exact ⟨t, (List.append_nil _).symm, (bind_pure t.total).symm⟩
    | cons e rest ih =>
      obtain ⟨u, leaves, total⟩ := ih (.node t (.leaf e))
      refine ⟨u, by simpa [Bracketing.leaves] using leaves, total.trans ?_⟩
      rw [Bracketing.total]
      cases t.total <;> rfl
  obtain ⟨t, leaves, total⟩ := extend (.leaf first) terms
  exact ⟨t, leaves, total⟩

structure SumOf (es : List Expr) (r : Expr) : Prop where
  reduced : IsReduced r
  weights : weights r = (es.map weights).sum
  keyed : (∀ e ∈ es, IsKeyed e) → IsKeyed r
  keyless : ∀ e ∈ es, ¬ IsKeyed e → r = e

theorem SumOf.of_addAll {es : List Expr} (reduced : ∀ e ∈ es, IsReduced e) (returned : addAll zero es = .ok r) :
    SumOf es r := by
  obtain ⟨t, leaves, total⟩ := exists_bracketing zero es
  have none : IsKeyed zero := fun t member => List.mem_singleton.mp member ▸ rfl
  have reducedAll : ∀ e ∈ t.leaves, IsReduced e := by
    rw [leaves]
    exact List.forall_mem_cons.mpr ⟨(Tidy.number 0).isReduced, reduced⟩
  obtain ⟨reducedR, weightsR⟩ := Bracketing.weights_total reducedAll (total.trans returned)
  refine ⟨reducedR, ?_, fun keyed => ?_, fun e member keyless => ?_⟩
  · rw [weightsR, leaves, List.map_cons, List.sum_cons, weights_of_isZero rfl, zero_add]
  · obtain ⟨s, same, keyedS⟩ := Bracketing.total_keyed reducedAll (leaves ▸ List.forall_mem_cons.mpr ⟨none, keyed⟩)
    obtain rfl : s = r := Except.ok.inj (same.symm.trans (total.trans returned))
    exact keyedS
  · exact Bracketing.total_eq_of_keyless (leaves ▸ List.mem_cons_of_mem zero member) keyless (total.trans returned)

namespace SumOf

variable {es fs gs hs : List Expr} {f g h s : Expr}

theorem weights_scale (sum : SumOf es e) (formed : ∀ u ∈ es, u.WellFormed) (nonzero : k ≠ 0) :
    ((es.map fun u => u.scale k).map Expr.weights).sum = (e.scale k).weights := by
  rw [Expr.weights_scale sum.reduced.formed nonzero, sum.weights, List.smul_sum, List.map_map, List.map_map]
  exact congrArg List.sum (List.map_congr_left fun u member => Expr.weights_scale (formed u member) nonzero)

/-- A summand without a key is the whole sum, so that all others cancel. -/
theorem rest_isZero (sumE : SumOf es e) (sumH : SumOf hs h) (formed : ∀ u ∈ es, u.WellFormed) (nonzero : k ≠ 0)
    (included : ∀ u ∈ es, u.scale k ∈ hs) {u : Expr} (member : u ∈ es) (keyless : ¬ IsKeyed u)
    (reduced : IsReduced s) (weighted : h.weights = (e.scale k).weights + s.weights) :
    (e.scale k).isZero = false ∧ s.isZero = true ∧ h = e.scale k := by
  obtain rfl := sumE.keyless u member keyless
  have scaled : ¬ IsKeyed (e.scale k) := fun keyed => keyless ((isKeyed_scale (formed e member) nonzero).mp keyed)
  obtain rfl := sumH.keyless _ (included e member) scaled
  refine ⟨Bool.eq_false_iff.mpr fun none => scaled ?_, reduced.isZero_of_weights (by simpa using weighted), rfl⟩
  rw [eq_zero_of_isZero none]
  exact fun t member => List.mem_singleton.mp member ▸ rfl

/-- The sum of multiples from two lists is the sum of the multiples of their sums. -/
theorem combination (sumF : SumOf fs f) (sumG : SumOf gs g) (sumH : SumOf hs h)
    (formedF : ∀ e ∈ fs, e.WellFormed) (formedG : ∀ e ∈ gs, e.WellFormed) (nonzeroK : k ≠ 0) (nonzeroL : l ≠ 0)
    (perm : hs.Perm (fs.map (fun e => e.scale k) ++ gs.map fun e => e.scale l)) :
    ∃ r, add (f.scale k) (g.scale l) = .ok r ∧ h.render = r.render := by
  have reducedF := sumF.reduced.scale nonzeroK
  have reducedG := sumG.reduced.scale nonzeroL
  have weighted : h.weights = (f.scale k).weights + (g.scale l).weights := by
    rw [sumH.weights, (perm.map Expr.weights).sum_eq, List.map_append, List.sum_append,
      sumF.weights_scale formedF nonzeroK, sumG.weights_scale formedG nonzeroL]
  have includedF : ∀ e ∈ fs, e.scale k ∈ hs := fun e member =>
    perm.mem_iff.mpr (List.mem_append_left _ (List.mem_map_of_mem member))
  have includedG : ∀ e ∈ gs, e.scale l ∈ hs := fun e member =>
    perm.mem_iff.mpr (List.mem_append_right _ (List.mem_map_of_mem member))
  by_cases keyed : (∀ e ∈ fs, IsKeyed e) ∧ ∀ e ∈ gs, IsKeyed e
  · have keyedF := (isKeyed_scale sumF.reduced.formed nonzeroK).mpr (sumF.keyed keyed.1)
    have keyedG := (isKeyed_scale sumG.reduced.formed nonzeroL).mpr (sumG.keyed keyed.2)
    have keyedH : IsKeyed h := by
      refine sumH.keyed fun e member => ?_
      rcases List.mem_append.mp (perm.mem_iff.mp member) with inside | inside
      · obtain ⟨u, there, rfl⟩ := List.mem_map.mp inside
        exact (isKeyed_scale (formedF u there) nonzeroK).mpr (keyed.1 u there)
      · obtain ⟨u, there, rfl⟩ := List.mem_map.mp inside
        exact (isKeyed_scale (formedG u there) nonzeroL).mpr (keyed.2 u there)
    rcases add_outcome (f.scale k) (g.scale l) with ⟨r, returned⟩ | ⟨_, t, member, keyless⟩
    · refine ⟨r, returned, render_eq_of_weights sumH.reduced (reducedF.add reducedG returned) keyedH
        (keyedF.add reducedF.formed reducedG.formed keyedG returned) ?_⟩
      rw [weighted, weights_add reducedF.formed reducedG.formed returned]
    · rcases List.mem_append.mp member with inside | inside
      · rw [keyedF t inside] at keyless
        cases keyless
      · rw [keyedG t inside] at keyless
        cases keyless
  · rw [not_and_or] at keyed
    push Not at keyed
    rcases keyed with ⟨e, member, keyless⟩ | ⟨e, member, keyless⟩
    · obtain ⟨some, none, rfl⟩ := sumF.rest_isZero sumH formedF nonzeroK includedF member keyless reducedG weighted
      exact ⟨f.scale k, (if_neg (Bool.eq_false_iff.mp some)).trans (if_pos none), rfl⟩
    · obtain ⟨-, none, rfl⟩ := sumG.rest_isZero sumH formedG nonzeroL includedG member keyless reducedF
        (weighted.trans (add_comm _ _))
      exact ⟨g.scale l, if_pos none, rfl⟩

end SumOf

end ExactAlgebra.Expr
