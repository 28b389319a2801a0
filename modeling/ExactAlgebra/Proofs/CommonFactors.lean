import ExactAlgebra.Algebra.Factor
import ExactAlgebra.Proofs.ProductFactors
import ExactAlgebra.Proofs.SmoothArithmetic
import Mathlib

/-! Factors common to all terms of a polynomial. What all terms share is taken out without a rest, and what
is left over is lighter: at least one term has lost a factor. So nothing but the keys of what is multiplied
back in can be too long, and taking out factors comes to an end. -/
namespace ExactAlgebra.Expr

variable {a b e f g r t : Expr}

mutual
/-- The number of names and sums in a tree, whatever their powers. -/
def bulk : Expr → ℕ
  | symbol .. | call .. | exponential .. => 1
  | sum _ terms _ => bulkAll terms + 1
  | product _ factors => bulkAll factors
  | number _ | foreign _ => 0

def bulkAll : List Expr → ℕ
  | [] => 0
  | e :: es => e.bulk + bulkAll es
end

theorem bulkAll_eq (es : List Expr) : bulkAll es = (es.map bulk).sum := by
  induction es with
  | nil => rfl
  | cons e es ih => simp [bulkAll, ih]

@[simp] theorem bulk_withCoeff (e : Expr) (c : ℚ) : (e.withCoeff c).bulk = e.bulk := by
  cases e <;> simp [withCoeff, bulk]

@[simp] theorem bulk_withPower (e : Expr) (p : ℚ) : (e.withPower p).bulk = e.bulk := by
  cases e <;> simp [withPower, bulk]

theorem bulk_le_size (e : Expr) : e.bulk ≤ e.size := by
  have all {es : List Expr} (each : ∀ e ∈ es, e.bulk ≤ e.size) : bulkAll es ≤ sizeAll es := by
    induction es with
    | nil => rfl
    | cons e es ih =>
      obtain ⟨first, later⟩ := List.forall_mem_cons.mp each
      exact Nat.add_le_add first (ih later)
  induction e using Expr.induction with
  | number | symbol | foreign | call | exponential => simp [bulk, size]
  | sum c terms p ih => exact Nat.succ_le_succ (all ih)
  | product c factors ih => exact (all ih).trans (Nat.le_succ _)

/-- The weight of an expression is that of its factors. -/
theorem bulk_factors (e : Expr) : (e.factors.map bulk).sum = e.bulk := by
  cases e with
  | product c factors =>
    rw [Expr.factors, ((sortFactors_perm factors).map bulk).sum_eq, bulk, bulkAll_eq]
  | _ => simp [Expr.factors, Expr.unit, withCoeff, bulk]

def spread (e : Expr) : ℕ := (e.summands.map bulk).sum

theorem spread_sum (c : ℚ) (terms : List Expr) : (sum c terms 1).spread + 1 = (sum c terms 1).bulk := by
  rw [spread, summands_plain, bulk, bulkAll_eq, List.map_map]
  simp [Function.comp_def]

theorem spread_cases (e : Expr) : e.spread = e.bulk ∨ e.spread + 1 = e.bulk := by
  rcases summands_cases e with single | ⟨c, terms, rfl⟩
  · rw [spread, single, List.map_singleton, List.sum_singleton]
    exact .inl rfl
  · exact .inr (spread_sum c terms)

theorem bulk_insertTerm_le (terms : List RankedTerm) (new : RankedTerm) :
    ((insertTerm terms new).map (·.2.bulk)).sum ≤ (terms.map (·.2.bulk)).sum + new.2.bulk := by
  induction terms with
  | nil => simp [insertTerm]
  | cons t rest ih =>
    rw [insertTerm]
    split
    · simp only [List.map_cons, List.sum_cons, bulk_withCoeff]
      omega
    · simp only [List.map_cons, List.sum_cons]
      omega

/-- Merging like terms makes nothing heavier. -/
theorem bulk_foldl_insertTerm_le (terms collected : List RankedTerm) :
    ((terms.foldl insertTerm collected).map (·.2.bulk)).sum ≤
      (collected.map (·.2.bulk)).sum + (terms.map (·.2.bulk)).sum := by
  induction terms generalizing collected with
  | nil => simp
  | cons t rest ih =>
    have step := bulk_insertTerm_le collected t
    have later := ih (insertTerm collected t)
    simp only [List.foldl_cons, List.map_cons, List.sum_cons]
    omega

theorem bulk_remaining_le (terms : List RankedTerm) :
    ((remaining terms).map (·.2.bulk)).sum ≤ (terms.map (·.2.bulk)).sum :=
  (List.filter_sublist.map _).sum_le_sum fun _ _ => Nat.zero_le _

theorem spread_ofTerms_le (terms : List RankedTerm) :
    (ofTerms terms).spread ≤ (terms.map (·.2.bulk)).sum := by
  refine le_trans ?_ (bulk_remaining_le terms)
  match left : remaining terms with
  | [] =>
    rw [ofTerms_of_remaining_nil left]
    exact Nat.le_refl 0
  | [t] =>
    rw [ofTerms_of_remaining_single left]
    have cases := spread_cases t.2
    simp only [List.map_singleton, List.sum_singleton]
    omega
  | t :: u :: rest =>
    rw [ofTerms_of_remaining_several left, spread, summands_plain]
    simp [Function.comp_def]

/-- A sum is no heavier than its parts. -/
theorem spread_add_le (returned : add a b = .ok r) : r.spread ≤ a.spread + b.spread := by
  rcases add_cases returned with ⟨-, rfl⟩ | ⟨-, rfl⟩ | ⟨x, y, rfl, rfl, rfl⟩ | ⟨-, rfl⟩
  · exact Nat.le_add_left _ _
  · exact Nat.le_add_right _ _
  · exact Nat.zero_le _
  · refine (spread_ofTerms_le _).trans ((bulk_foldl_insertTerm_le _ _).trans (le_of_eq ?_))
    simp [spread, rankTerm, Function.comp_def]

theorem PlainFactor.legible_eq {scheme : Scheme} (plain : PlainFactor scheme f) :
    (f.face.isLegible && f.face.hasKey) = (f.hasBaseKey && Rational.isWritable f.power) := by
  obtain ⟨name, p, rfl, -⟩ | ⟨terms, p, rfl, -⟩ := plain.cases
  · simp [hasBaseKey, face, singleFace, power]
  · by_cases one : p = 1
    · subst one
      simp [hasBaseKey, face, power, isWritable_one]
    · simp only [hasBaseKey, face, singleFace, power, if_neg one]
      rw [Bool.and_right_comm, Bool.and_self]

/-- The key of a term can be written out when the keys and powers of its factors can. -/
theorem hasTermKey_eq {scheme : Scheme} (formed : t.WellFormed) (built : BuiltBy scheme t) :
    t.hasTermKey = t.factors.all fun f => f.hasBaseKey && Rational.isWritable f.power := by
  have plain := plainFactor_factors formed built
  cases built with
  | number => rfl
  | symbol => simp [hasTermKey_symbol, Expr.factors, Expr.unit, withCoeff, hasBaseKey, face, singleFace, power]
  | @sum c terms p =>
    by_cases one : p = 1
    · subst one
      simp [hasTermKey, termRank, isNumber, Expr.factors, Expr.unit, withCoeff, hasBaseKey, face,
        Face.isLegibleTimes, power, isWritable_one]
    · simp [hasTermKey, termRank, isNumber, Expr.factors, Expr.unit, withCoeff, hasBaseKey, face, singleFace,
        Face.isLegibleTimes, Layout.isWritable, power, one, isWritable_one]
  | @product c factors =>
    have same : (factors.all fun f => f.face.isLegible && f.face.hasKey) =
        factors.all fun f => f.hasBaseKey && Rational.isWritable f.power := by
      refine Bool.eq_iff_iff.mpr ?_
      simp only [List.all_eq_true]
      exact forall₂_congr fun f member => by
        rw [(plain f ((sortFactors_perm factors).mem_iff.mpr member)).legible_eq]
    rw [hasTermKey_product, same]
    exact ((sortFactors_perm factors).all_eq).symm

theorem isWritable_of_le {p q : ℚ} (powerP : Scheme.polynomial.powers p) (powerQ : Scheme.polynomial.powers q)
    (le : q ≤ p) (short : Rational.isWritable p = true) : Rational.isWritable q = true := by
  have nonneg : 0 < q.num := Rat.num_pos.mpr powerQ.2
  have nums : q.num ≤ p.num := by
    rwa [← Rat.coe_int_num_of_den_eq_one powerP.1, ← Rat.coe_int_num_of_den_eq_one powerQ.1, Int.cast_le] at le
  simp only [Rational.isWritable, Bool.and_eq_true, decide_eq_true_eq] at short ⊢
  rw [powerQ.1, ← powerP.1]
  exact ⟨by omega, short.2⟩

theorem not_hasLongTerm_sum {c : ℚ} {terms : List Expr} (formed : (sum c terms 1).WellFormed) :
    ¬ HasLongTerm (sum c terms 1) := by
  rintro ⟨s, member, keyless⟩
  rw [summands_plain] at member
  obtain ⟨t, inside, rfl⟩ := List.mem_map.mp member
  rw [hasTermKey_withCoeff, formed.2.2.1.keyed t inside] at keyless
  cases keyless

/-- The keys of what is left of a term are no longer than that of the term. -/
theorem Leaves.not_hasLongTerm (leaves : Leaves t b r) (polyT : IsPolynomial t) (keyed : t.hasTermKey = true) :
    ¬ HasLongTerm r := by
  obtain ⟨formed, built⟩ := leaves.poly
  cases plain : r.isPlainSum with
  | true =>
    cases r with
    | sum c terms p =>
      obtain rfl : p = 1 := by simpa [isPlainSum] using plain
      exact not_hasLongTerm_sum formed
    | _ => cases plain
  | false =>
    rintro ⟨s, member, keyless⟩
    rw [summands_flat plain, List.mem_singleton] at member
    rw [member] at keyless
    rw [hasTermKey_eq polyT.formed polyT.built, List.all_eq_true] at keyed
    suffices short : r.hasTermKey = true by cases short.symm.trans keyless
    rw [hasTermKey_eq formed built, List.all_eq_true]
    intro h inside
    obtain ⟨g, factor, shape, lower, -⟩ := leaves.factor h inside
    have key := keyed g factor
    rw [Bool.and_eq_true] at key ⊢
    refine ⟨by rw [shape, hasBaseKey_withPower, key.1], ?_⟩
    exact isWritable_of_le (plainFactor_factors polyT.formed polyT.built g factor).powers
      (plainFactor_factors formed built h inside).powers lower key.2

def isTaken (common g : Expr) : Bool := common.factors.any fun f => f.baseKey == g.baseKey && f.power == g.power

/-- The factors of a term that are not. -/
def leftOver (common t : Expr) : List Expr := t.factors.filter fun g => !isTaken common g

/-- What is left of a term has no other factors. -/
theorem Leaves.spread_le (leaves : Leaves t b r) : r.spread ≤ ((leftOver b t).map bulk).sum := by
  set whole : Expr → Expr := fun f => f.withPower 1
  have weights (factors : List Expr) : ((factors.map whole).map bulk).sum = (factors.map bulk).sum := by
    rw [List.map_map]
    simp [whole, Function.comp_def]
  have keys : (r.factors.map whole).map baseKey = r.factors.map baseKey := by
    rw [List.map_map]
    simp [whole, Function.comp_def]
  have distinct : (r.factors.map whole).Nodup := .of_map baseKey (keys ▸ leaves.poly.formed.distinct_factors)
  have subset : r.factors.map whole ⊆ (leftOver b t).map whole := by
    intro _ member
    obtain ⟨h, inside, rfl⟩ := List.mem_map.mp member
    obtain ⟨g, factor, shape, -, taken⟩ := leaves.factor h inside
    refine List.mem_map.mpr ⟨g, List.mem_filter.mpr ⟨factor, ?_⟩, by rw [shape]; simp [whole]⟩
    -- What is taken out of a factor that is still there is less than the factor.
    rw [Bool.not_eq_true', isTaken, List.any_eq_false]
    rintro f divisor alike
    rw [Bool.and_eq_true, beq_iff_eq, beq_iff_eq] at alike
    have rest := taken f divisor alike.1
    have present := (plainFactor_factors leaves.poly.formed leaves.poly.built h inside).power_ne_zero
    exact present (by linarith)
  obtain ⟨same, perm, sub⟩ := List.subperm_of_subset distinct subset
  have cases := spread_cases r
  calc r.spread ≤ r.bulk := by omega
    _ = ((r.factors.map whole).map bulk).sum := by rw [weights, bulk_factors]
    _ = (same.map bulk).sum := ((perm.map bulk).sum_eq).symm
    _ ≤ (((leftOver b t).map whole).map bulk).sum := (sub.map bulk).sum_le_sum fun _ _ => Nat.zero_le _
    _ = ((leftOver b t).map bulk).sum := weights _

theorem leftOver_le (common t : Expr) : ((leftOver common t).map bulk).sum ≤ t.bulk := by
  rw [← bulk_factors t]
  exact (List.filter_sublist.map bulk).sum_le_sum fun _ _ => Nat.zero_le _

theorem PlainFactor.bulk_pos {scheme : Scheme} (plain : PlainFactor scheme f) : 0 < f.bulk := by
  obtain ⟨name, p, rfl, -⟩ | ⟨terms, p, rfl, -⟩ := plain.cases
  · exact one_pos
  · exact Nat.succ_pos _

/-- A term that is rid of a factor becomes lighter. -/
theorem leftOver_lt {common : Expr} (plain : PlainFactor .polynomial g) (factor : g ∈ t.factors)
    (member : f ∈ common.factors) (alike : f.baseKey = g.baseKey) (whole : f.power = g.power) :
    ((leftOver common t).map bulk).sum < t.bulk := by
  have gone : isTaken common g = true := List.any_eq_true.mpr ⟨f, member, by simp [alike, whole]⟩
  have positive := plain.bulk_pos
  have lighter (factors : List Expr) :
      ((factors.filter fun g => !isTaken common g).map bulk).sum ≤ (factors.map bulk).sum :=
    (List.filter_sublist.map bulk).sum_le_sum fun _ _ => Nat.zero_le _
  obtain ⟨before, after, shape⟩ := List.append_of_mem factor
  have left := lighter before
  have right := lighter after
  rw [← bulk_factors t, leftOver, shape, List.filter_append, List.filter_cons_of_neg (by simp [gone])]
  simp only [List.map_append, List.sum_append, List.map_cons, List.sum_cons]
  omega

/-- What some terms share: powers of different bases, each a factor of one of the terms and no higher than in
any of them. -/
structure SharedBy (terms : List Expr) (shared : List (String × Expr)) : Prop where
  keyed : ∀ entry ∈ shared, entry.1 = entry.2.baseKey
  distinct : (shared.map (·.1)).Nodup
  source : ∀ entry ∈ shared, ∃ t ∈ terms, entry.2 ∈ t.factors
  lowest : ∀ entry ∈ shared, ∀ t ∈ terms, ∃ g ∈ t.factors, g.baseKey = entry.2.baseKey ∧ entry.2.power ≤ g.power

/-- Of a polynomial every factor can be taken out. -/
theorem removable_eq (poly : IsPolynomial t) : removable t = t.factors.map fun f => (f.baseKey, f) := by
  rw [removable, List.filter_eq_self.mpr]
  intro f member
  have plain := plainFactor_factors poly.formed poly.built f member
  have single : f.isExponential = false := by
    obtain ⟨name, p, rfl, -⟩ | ⟨terms, p, rfl, -⟩ := plain.cases <;> rfl
  simp [single, plain.powers.2]

theorem SharedBy.first (poly : IsPolynomial t) : SharedBy [t] (removable t) := by
  have entries : ∀ entry ∈ removable t, ∃ f ∈ t.factors, entry = (f.baseKey, f) := by
    intro entry member
    rw [removable_eq poly] at member
    obtain ⟨f, inside, rfl⟩ := List.mem_map.mp member
    exact ⟨f, inside, rfl⟩
  refine ⟨fun entry member => ?_, ?_, fun entry member => ?_, fun entry member s single => ?_⟩
  · obtain ⟨f, -, rfl⟩ := entries entry member
    rfl
  · rw [removable_eq poly, List.map_map]
    exact poly.formed.distinct_factors
  · obtain ⟨f, inside, rfl⟩ := entries entry member
    exact ⟨t, List.mem_singleton_self t, inside⟩
  · obtain ⟨f, inside, rfl⟩ := entries entry member
    rw [List.mem_singleton.mp single]
    exact ⟨f, inside, rfl, le_rfl⟩

theorem keys_sharedFactors (shared current : List (String × Expr)) :
    ((sharedFactors shared current).map (·.1)).Sublist (shared.map (·.1)) := by
  induction shared with
  | nil => exact List.Sublist.refl _
  | cons first rest ih =>
    obtain ⟨key, f⟩ := first
    rw [sharedFactors, List.filterMap_cons]
    dsimp only
    cases current.lookup key with
    | none => exact ih.cons _
    | some g => exact ih.cons_cons _

/-- One more term lowers some of the powers and drops others. -/
theorem SharedBy.next {terms : List Expr} {shared : List (String × Expr)} (sharedBy : SharedBy terms shared)
    (poly : IsPolynomial t) : SharedBy (terms ++ [t]) (sharedFactors shared (removable t)) := by
  have entries : ∀ entry ∈ sharedFactors shared (removable t), ∃ f g, (entry.1, f) ∈ shared ∧ g ∈ t.factors ∧
      g.baseKey = entry.1 ∧ entry.2 = if f.power ≤ g.power then f else g := by
    intro entry member
    obtain ⟨⟨key, f⟩, old, found⟩ := List.mem_filterMap.mp member
    obtain ⟨g, here, rfl⟩ := Option.map_eq_some_iff.mp found
    obtain ⟨before, after, shape, -⟩ := List.lookup_eq_some_iff.mp here
    have stored : (key, g) ∈ removable t := shape ▸ by simp
    rw [removable_eq poly] at stored
    obtain ⟨_, inside, same⟩ := List.mem_map.mp stored
    cases same
    exact ⟨f, g, old, inside, rfl, rfl⟩
  refine ⟨fun entry member => ?_, sharedBy.distinct.sublist (keys_sharedFactors _ _), fun entry member => ?_,
    fun entry member s inside => ?_⟩
  · obtain ⟨f, g, old, -, same, power⟩ := entries entry member
    rw [power]
    split
    · exact sharedBy.keyed _ old
    · exact same.symm
  · obtain ⟨f, g, old, factor, -, power⟩ := entries entry member
    rw [power]
    split
    · obtain ⟨s, inside, source⟩ := sharedBy.source _ old
      exact ⟨s, List.mem_append_left _ inside, source⟩
    · exact ⟨t, List.mem_append_right _ (List.mem_singleton_self t), factor⟩
  · obtain ⟨f, g, old, factor, same, power⟩ := entries entry member
    have key : entry.2.baseKey = entry.1 := by
      rw [power]
      split
      · exact (sharedBy.keyed _ old).symm
      · exact same
    have lower : entry.2.power ≤ f.power ∧ entry.2.power ≤ g.power := by
      rw [power]
      split
      next below => exact ⟨le_rfl, below⟩
      next above => exact ⟨(not_le.mp above).le, le_rfl⟩
    rcases List.mem_append.mp inside with before | last
    · obtain ⟨h, here, alike, bound⟩ := sharedBy.lowest _ old s before
      exact ⟨h, here, alike.trans ((sharedBy.keyed _ old).symm.trans key.symm), lower.1.trans bound⟩
    · rw [List.mem_singleton.mp last]
      exact ⟨g, factor, same.trans key.symm, lower.2⟩

theorem sharedBy_foldl {terms : List Expr} (each : ∀ s ∈ terms, IsPolynomial s) (poly : IsPolynomial t) :
    SharedBy (t :: terms)
      (terms.foldl (fun shared t => sharedFactors shared (removable t)) (removable t)) := by
  have loop {seen : List Expr} {shared : List (String × Expr)} (sharedBy : SharedBy seen shared) :
      SharedBy (seen ++ terms) (terms.foldl (fun shared t => sharedFactors shared (removable t)) shared) := by
    induction terms generalizing seen shared with
    | nil => simpa using sharedBy
    | cons s rest ih =>
      obtain ⟨first, later⟩ := List.forall_mem_cons.mp each
      simpa using ih later (sharedBy.next first)
  exact loop (.first poly)

structure CommonTo (terms : List Expr) (common : Expr) : Prop where
  poly : IsPolynomial common
  unit : common.coeff = 1
  keyed : ∀ f ∈ common.factors, f.hasBaseKey = true
  source : ∀ f ∈ common.factors, ∃ t ∈ terms, f ∈ t.factors
  lowest : ∀ f ∈ common.factors, ∀ t ∈ terms, ∃ g ∈ t.factors, g.baseKey = f.baseKey ∧ f.power ≤ g.power

theorem commonFactor_outcome {terms : List Expr} (some : terms ≠ []) (each : ∀ t ∈ terms, IsPolynomial t)
    (keyed : ∀ t ∈ terms, t.hasTermKey = true) :
    ∃ common, commonFactor terms = .ok common ∧ CommonTo terms common := by
  obtain ⟨head, rest, rfl⟩ := List.exists_cons_of_ne_nil some
  obtain ⟨first, later⟩ := List.forall_mem_cons.mp each
  have sharedBy := sharedBy_foldl later first
  set shared := rest.foldl (fun shared t => sharedFactors shared (removable t)) (removable head)
  have plain : ∀ entry ∈ shared, PlainFactor .polynomial entry.2 := by
    intro entry member
    obtain ⟨t, inside, factor⟩ := sharedBy.source entry member
    exact plainFactor_factors (each t inside).formed (each t inside).built entry.2 factor
  have legible : ∀ entry ∈ shared, entry.2.hasBaseKey = true := by
    intro entry member
    obtain ⟨t, inside, factor⟩ := sharedBy.source entry member
    have key := keyed t inside
    rw [hasTermKey_eq (each t inside).formed (each t inside).built, List.all_eq_true] at key
    exact (Bool.and_eq_true_iff.mp (key entry.2 factor)).1
  obtain ⟨common, returned, poly, unit, perm⟩ := mulAll_table sharedBy.keyed sharedBy.distinct plain legible
  have stored : ∀ f ∈ common.factors, ∃ entry ∈ shared, entry.2 = f := fun f member =>
    List.mem_map.mp (perm.mem_iff.mp member)
  refine ⟨common, returned, poly, unit, fun f member => ?_, fun f member => ?_, fun f member => ?_⟩ <;>
    obtain ⟨entry, inside, rfl⟩ := stored f member
  · exact legible entry inside
  · exact sharedBy.source entry inside
  · exact sharedBy.lowest entry inside

/-- The sum of what is left of the terms when each is divided by the common factor. -/
def besides (common : Expr) (terms : List Expr) : Except Fault Expr :=
  terms.foldlM (fun rest t => do add rest (← div t common)) zero

/-- Taking out the common factor of some of the terms, after those before them. -/
theorem besides_outcome {common : Expr} {terms items : List Expr} (each : ∀ t ∈ terms, IsPolynomial t)
    (keyed : ∀ t ∈ terms, t.hasTermKey = true) (commonTo : CommonTo terms common) (inside : items ⊆ terms)
    (poly : IsPolynomial e) (short : ¬ HasLongTerm e) :
    ∃ r, items.foldlM (fun rest t => do add rest (← div t common)) e = .ok r ∧ IsPolynomial r ∧
      denote r * denote common = denote e * denote common + (items.map denote).sum ∧
      r.spread ≤ e.spread + (items.map fun t => ((leftOver common t).map bulk).sum).sum := by
  induction items generalizing e with
  | nil => exact ⟨e, rfl, poly, by simp, by simp⟩
  | cons t rest ih =>
    have member : t ∈ terms := inside List.mem_cons_self
    have polyT := each t member
    have legible : ∀ f ∈ t.factors ++ common.factors, f.hasBaseKey = true := by
      have key := keyed t member
      rw [hasTermKey_eq polyT.formed polyT.built, List.all_eq_true] at key
      exact fun f factor => (List.mem_append.mp factor).elim
        (fun left => (Bool.and_eq_true_iff.mp (key f left)).1) (commonTo.keyed f)
    obtain ⟨q, divided, leaves⟩ := div_matched polyT commonTo.poly commonTo.unit legible
      fun f factor => commonTo.lowest f factor t member
    have shortQ := leaves.not_hasLongTerm polyT (keyed t member)
    rcases add_outcome e q with ⟨next, added⟩ | ⟨-, u, summand, keyless⟩
    · obtain ⟨polyNext, value⟩ := denote_add poly leaves.poly added
      have shortNext : ¬ HasLongTerm next := fun long =>
        (HasLongTerm.of_add poly.formed leaves.poly.formed added long).elim short shortQ
      obtain ⟨r, returned, polyR, total, light⟩ :=
        ih (fun u later => inside (List.mem_cons_of_mem _ later)) polyNext shortNext
      refine ⟨r, ?_, polyR, ?_, ?_⟩
      · rw [List.foldlM_cons, divided]
        change (add e q >>= _) = _
        rw [added]
        exact returned
      · rw [total, value, add_mul, leaves.value, List.map_cons, List.sum_cons, add_assoc]
      · have lighter := spread_add_le added
        have left := leaves.spread_le
        rw [List.map_cons, List.sum_cons]
        omega
    · exact absurd ((List.mem_append.mp summand).elim (fun left => short ⟨u, left, keyless⟩)
        fun right => shortQ ⟨u, right, keyless⟩) id

/-- A polynomial is the product of what is taken out and a lighter rest. -/
structure TakesOut (e common rest : Expr) : Prop where
  polyCommon : IsPolynomial common
  polyRest : IsPolynomial rest
  value : denote common * denote rest = denote e
  lighter : rest.bulk < e.bulk

theorem exists_factor {common : Expr} (built : BuiltBy .polynomial common) (unit : common.coeff = 1)
    (other : common.isOne = false) (formed : common.WellFormed) : ∃ f, f ∈ common.factors := by
  refine List.exists_mem_of_ne_nil _ fun none => ?_
  cases built with
  | number c => simp [isOne, show c = 1 from unit] at other
  | symbol | sum => cases none
  | product =>
    have several := formed.2.1.several
    rw [← (sortFactors_perm _).length_eq] at several
    rw [show sortFactors _ = [] from none] at several
    cases several

/-- From every sum what its terms share can be taken out. -/
theorem takesOut_outcome {c : ℚ} {terms : List Expr} (poly : IsPolynomial (sum c terms 1)) :
    ∃ common, commonFactor (sum c terms 1).spreadTerms = .ok common ∧ CommonTo (sum c terms 1).spreadTerms common ∧
      (common.isOne = false → ∃ rest, besides common (sum c terms 1).spreadTerms = .ok rest ∧
        TakesOut (sum c terms 1) common rest) := by
  set e := sum c terms 1
  have perm := spreadTerms_perm e
  have each : ∀ t ∈ e.spreadTerms, IsPolynomial t := fun t member =>
    ⟨WellFormed.summand poly.formed (perm.mem_iff.mp member),
      forall_summands BuiltBy.withCoeff BuiltBy.terms poly.built t (perm.mem_iff.mp member)⟩
  have keyed : ∀ t ∈ e.spreadTerms, t.hasTermKey = true := by
    intro t member
    by_contra keyless
    exact not_hasLongTerm_sum poly.formed ⟨t, perm.mem_iff.mp member, by simpa using keyless⟩
  have some : e.spreadTerms ≠ [] := fun none => WellFormed.summands_ne_nil poly.formed (none ▸ perm).nil_eq.symm
  obtain ⟨common, returned, commonTo⟩ := commonFactor_outcome some each keyed
  refine ⟨common, returned, commonTo, fun other => ?_⟩
  obtain ⟨rest, divided, polyRest, value, light⟩ := besides_outcome each keyed commonTo (List.Subset.refl _)
    (show IsPolynomial zero from ⟨trivial, .number 0⟩) (not_hasLongTerm_number 0)
  refine ⟨rest, divided, commonTo.poly, polyRest, ?_, ?_⟩
  · rw [mul_comm, value, (perm.map denote).sum_eq, denote_summands, zero, denote, MvPolynomial.C_0, zero_mul, zero_add]
  · obtain ⟨f, member⟩ := exists_factor commonTo.poly.built commonTo.unit other commonTo.poly.formed
    obtain ⟨t, source, factor⟩ := commonTo.source f member
    have lighter : (e.spreadTerms.map fun t => ((leftOver common t).map bulk).sum).sum < (e.spreadTerms.map bulk).sum :=
      List.sum_lt_sum _ _ (fun t _ => leftOver_le common t) ⟨t, source, leftOver_lt
        (plainFactor_factors (each t source).formed (each t source).built f factor) factor member rfl rfl⟩
    have total : (e.spreadTerms.map bulk).sum = e.spread := (perm.map bulk).sum_eq
    have whole : e.spread + 1 = e.bulk := spread_sum c terms
    have cases := spread_cases rest
    have none : zero.spread = 0 := rfl
    omega

end ExactAlgebra.Expr
