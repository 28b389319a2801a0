import ExactAlgebra.Proofs.AdditionOrder
import ExactAlgebra.Proofs.Agreement
import ExactAlgebra.Proofs.Collection
import ExactAlgebra.Proofs.PolynomialTerms
import Mathlib

/-! Sums of powers of one name. The exponents may be of either sign; what matters of such a sum is which
multiple of each power it holds. -/
namespace ExactAlgebra.Expr

variable {x : String} {a b e r : Expr}

theorem foldl_insertTerm_of_distinct {terms done : List RankedTerm}
    (distinct : ((done ++ terms).map (·.1.key)).Nodup) : terms.foldl insertTerm done = done ++ terms := by
  induction terms generalizing done with
  | nil => simp
  | cons t rest ih =>
    have fresh : insertTerm done t = done ++ [t] := by
      have others : t.1.key ∉ done.map (·.1.key) := by
        rw [List.map_append, List.map_cons] at distinct
        exact fun member => (List.nodup_append.mp distinct).2.2 _ member _ List.mem_cons_self rfl
      clear distinct
      induction done with
      | nil => rfl
      | cons u done ih =>
        obtain ⟨rank, u⟩ := u
        rw [List.map_cons, List.mem_cons, not_or] at others
        rw [insertTerm, if_neg (by simpa using Ne.symm others.1), ih others.2, List.cons_append]
    rw [List.foldl_cons, fresh, ih (by simpa using distinct), List.append_assoc, List.singleton_append]

/-- A sum of expressions of which no terms are alike has the terms of both. -/
theorem summands_add_of_distinct (reducedA : IsReduced a) (reducedB : IsReduced b) (properA : a.isZero = false)
    (properB : b.isZero = false) (distinct : ((a.summands ++ b.summands).map termKey).Nodup)
    (returned : add a b = .ok r) : r.isZero = false ∧ r.summands = a.summands ++ b.summands := by
  rcases add_cases returned with ⟨zero, rfl⟩ | ⟨zero, rfl⟩ | ⟨c, d, rfl, rfl, rfl⟩ | ⟨keyed, rfl⟩
  · rw [properA] at zero
    cases zero
  · rw [properB] at zero
    cases zero
  · exact absurd distinct (by simp [summands, termKey, isNumber])
  · have apart : (((a.summands ++ b.summands).map rankTerm).map (·.1.key)).Nodup := by
      rw [List.map_map]
      exact (List.map_congr_left fun t _ => termRank_key t).symm ▸ distinct
    have collected := collected_summands reducedA.formed reducedB.formed keyed
    rw [foldl_insertTerm_of_distinct (by simpa using apart), List.nil_append] at collected
    rw [mergeTerms, foldl_insertTerm_of_distinct (by simpa using apart), List.nil_append]
    have all : remaining ((a.summands ++ b.summands).map rankTerm) = (a.summands ++ b.summands).map rankTerm := by
      refine List.filter_eq_self.mpr fun t member => decide_eq_true ?_
      obtain ⟨u, inside, rfl⟩ := List.mem_map.mp member
      rcases List.mem_append.mp inside with left | right
      · exact reducedA.nonzero properA u left
      · exact reducedB.nonzero properB u right
    have proper : (ofTerms ((a.summands ++ b.summands).map rankTerm)).isZero = false := by
      have several : 2 ≤ ((a.summands ++ b.summands).map rankTerm).length := by
        have left := List.length_pos_iff.mpr reducedA.formed.summands_ne_nil
        have right := List.length_pos_iff.mpr reducedB.formed.summands_ne_nil
        rw [List.length_map, List.length_append]
        omega
      rcases ofTerms_cases collected with ⟨left, -⟩ | ⟨t, left, -⟩ | ⟨c, -, same, -⟩
      · rw [← all, left] at several
        exact absurd several (by decide)
      · rw [← all, left, List.length_singleton] at several
        omega
      · rw [same]
        rfl
    refine ⟨proper, ?_⟩
    rw [summands_ofTerms collected proper, all, List.map_map]
    exact List.map_id _

theorem add_zero_right (proper : a.isZero = false) : add a zero = .ok a := by
  unfold add
  rw [if_neg (by rw [proper]; exact Bool.false_ne_true)]
  exact if_pos rfl

/-- A multiple of a power of a name, which is a number for the power zero. -/
def powerTerm (x : String) (c : ℚ) (k : ℤ) : Expr := if k = 0 then number c else symbol c x k

@[simp] theorem powerTerm_zero (x : String) (c : ℚ) : powerTerm x c 0 = number c := if_pos rfl

theorem powerTerm_of_ne {k : ℤ} (nonzero : k ≠ 0) (x : String) (c : ℚ) : powerTerm x c k = symbol c x k :=
  if_neg nonzero

@[simp] theorem coeff_powerTerm (x : String) (c : ℚ) (k : ℤ) : (powerTerm x c k).coeff = c := by
  unfold powerTerm
  split <;> rfl

@[simp] theorem withCoeff_powerTerm (x : String) (c d : ℚ) (k : ℤ) :
    (powerTerm x c k).withCoeff d = powerTerm x d k := by
  unfold powerTerm
  split <;> rfl

@[simp] theorem isPlainSum_powerTerm (x : String) (c : ℚ) (k : ℤ) : (powerTerm x c k).isPlainSum = false := by
  unfold powerTerm
  split <;> rfl

theorem summands_powerTerm (x : String) (c : ℚ) (k : ℤ) : (powerTerm x c k).summands = [powerTerm x c k] :=
  summands_flat (isPlainSum_powerTerm x c k)

theorem scale_powerTerm (x : String) {c d : ℚ} (nonzero : d ≠ 0) (k : ℤ) :
    (powerTerm x c k).scale d = powerTerm x (c * d) k := by
  rw [Expr.scale, if_neg nonzero, coeff_powerTerm, withCoeff_powerTerm]

theorem isZero_powerTerm {c : ℚ} (nonzero : c ≠ 0) (x : String) (k : ℤ) : (powerTerm x c k).isZero = false := by
  unfold powerTerm
  split
  · simpa [isZero] using nonzero
  · rfl

theorem hasTermKey_powerTerm (x : String) (c : ℚ) (k : ℤ) :
    (powerTerm x c k).hasTermKey = Rational.isWritable k := by
  unfold powerTerm
  split
  next zero =>
    have two := two_le_digitBound
    rw [zero, Int.cast_zero, ← Nat.cast_zero, isWritable_natCast, decide_eq_true (by omega)]
    rfl
  next => exact hasTermKey_symbol c x k

section

variable (named : Identifier x) (unknown : isVariableName x = true)

include named unknown

theorem wellFormed_powerTerm {c : ℚ} (nonzero : c ≠ 0) (k : ℤ) : (powerTerm x c k).WellFormed := by
  unfold powerTerm
  split
  · trivial
  next other => exact wellFormed_symbol named unknown nonzero other

omit named in
theorem builtBy_powerTerm (c : ℚ) (k : ℤ) : BuiltBy .rational (powerTerm x c k) := by
  unfold powerTerm
  split
  · exact .number c
  · exact .symbol unknown (Rat.den_intCast k)

/-- Terms of the same key hold the same power. -/
theorem eq_of_termKey_powerTerm {c d : ℚ} (nonzeroC : c ≠ 0) (nonzeroD : d ≠ 0) {k l : ℤ}
    (same : (powerTerm x c k).termKey = (powerTerm x d l).termKey) : k = l := by
  have value (c : ℚ) (k : ℤ) : eval (fun _ => 2) (powerTerm x c k).unit = 2 ^ k := by
    rw [unit, withCoeff_powerTerm, powerTerm]
    split
    next zero => rw [zero, zpow_zero, eval]
    next => rw [eval, one_mul, Rat.num_intCast]
  have equal := eval_unit_eq_of_termKey_eq (builtBy_powerTerm unknown c k)
    (wellFormed_powerTerm named unknown nonzeroC k) (builtBy_powerTerm unknown d l) (wellFormed_powerTerm named unknown nonzeroD l) same fun _ => 2
  rw [value, value] at equal
  exact zpow_right_injective₀ two_pos (by norm_num) equal

end

/-- The multiples of powers that a sum is made of; `φ` tells the power that an index stands for. -/
structure PowerSum (x : String) (φ : ℕ → ℤ) (items : List (ℕ × ℚ)) (e : Expr) : Prop where
  formed : e.WellFormed
  nonzero : ∀ i ∈ items, i.2 ≠ 0
  terms : e = zero ∧ items = [] ∨ e.isZero = false ∧ e.summands.Perm (items.map fun i => powerTerm x i.2 (φ i.1))

/-- The powers with these indices can be written out, or there is only one. -/
def Legible (φ : ℕ → ℤ) (indices : List ℕ) : Prop :=
  indices.length ≤ 1 ∨ ∀ n ∈ indices, Rational.isWritable (φ n) = true

variable {φ : ℕ → ℤ} {items others : List (ℕ × ℚ)}

theorem Legible.perm {indices others : List ℕ} (legible : Legible φ indices) (perm : indices.Perm others) :
    Legible φ others := by
  rcases legible with short | writable
  · exact .inl (perm.length_eq ▸ short)
  · exact .inr fun n member => writable n (perm.mem_iff.mpr member)

theorem Legible.sublist {indices others : List ℕ} (legible : Legible φ indices) (sublist : others.Sublist indices) :
    Legible φ others := by
  rcases legible with short | writable
  · exact .inl (sublist.length_le.trans short)
  · exact .inr fun n member => writable n (sublist.subset member)

namespace PowerSum

theorem zero (x : String) (φ : ℕ → ℤ) : PowerSum x φ [] zero := ⟨trivial, by simp, .inl ⟨rfl, rfl⟩⟩

theorem perm (sum : PowerSum x φ items e) (perm : items.Perm others) : PowerSum x φ others e := by
  refine ⟨sum.formed, fun i member => sum.nonzero i (perm.mem_iff.mpr member), ?_⟩
  rcases sum.terms with ⟨same, none⟩ | ⟨proper, terms⟩
  · subst none
    exact .inl ⟨same, perm.nil_eq.symm⟩
  · exact .inr ⟨proper, terms.trans (perm.map _)⟩

theorem eq_zero (sum : PowerSum x φ [] e) : e = Expr.zero := by
  rcases sum.terms with ⟨same, -⟩ | ⟨-, terms⟩
  · exact same
  · exact absurd terms.eq_nil sum.formed.summands_ne_nil

variable (named : Identifier x) (unknown : isVariableName x = true)

theorem mem_summands (sum : PowerSum x φ items e) (proper : e.isZero = false) {t : Expr} (member : t ∈ e.summands) :
    ∃ i ∈ items, t = powerTerm x i.2 (φ i.1) := by
  rcases sum.terms with ⟨rfl, -⟩ | ⟨-, terms⟩
  · cases proper
  · obtain ⟨i, inside, rfl⟩ := List.mem_map.mp (terms.mem_iff.mp member)
    exact ⟨i, inside, rfl⟩

theorem isReduced (sum : PowerSum x φ items e) : IsReduced e := by
  refine ⟨sum.formed, fun proper t member => ?_⟩
  obtain ⟨i, inside, rfl⟩ := sum.mem_summands proper member
  rw [coeff_powerTerm]
  exact sum.nonzero i inside

theorem distinct (sum : PowerSum x φ items e) : (items.map Prod.fst).Nodup := by
  rcases sum.terms with ⟨-, rfl⟩ | ⟨-, terms⟩
  · exact List.nodup_nil
  · have keys := (terms.map termKey).nodup_iff.mp sum.formed.distinct_summands
    have same : (items.map fun i => powerTerm x i.2 (φ i.1)).map termKey =
        (items.map Prod.fst).map fun n => (powerTerm x 1 (φ n)).termKey := by
      rw [List.map_map, List.map_map]
      refine List.map_congr_left fun i _ => ?_
      rw [Function.comp_apply, Function.comp_apply, ← withCoeff_powerTerm x 1 i.2, termKey_withCoeff]
    exact List.Nodup.of_map _ (same ▸ keys)

/-- Several powers in a sum have been written out. -/
theorem legible (sum : PowerSum x φ items e) : Legible φ (items.map Prod.fst) := by
  rcases sum.terms with ⟨-, rfl⟩ | ⟨-, terms⟩
  · exact .inl (Nat.zero_le 1)
  rcases summands_cases e with single | ⟨c, es, rfl⟩
  · refine .inl ?_
    have count := terms.length_eq
    rw [single, List.length_map] at count
    rw [List.length_map]
    exact count.symm.le
  · refine .inr fun n listed => ?_
    obtain ⟨i, inside, rfl⟩ := List.mem_map.mp listed
    have member := terms.mem_iff.mpr (List.mem_map_of_mem inside)
    rw [summands_plain] at member
    obtain ⟨t, below, same⟩ := List.mem_map.mp member
    have keyed := sum.formed.2.2.1.keyed t below
    rwa [← hasTermKey_withCoeff t (t.coeff * c), same, hasTermKey_powerTerm] at keyed

theorem isKeyed (sum : PowerSum x φ items e) (writable : ∀ n ∈ items.map Prod.fst, Rational.isWritable (φ n) = true) :
    IsKeyed e := by
  intro t member
  cases zero : e.isZero with
  | true =>
    rw [eq_zero_of_isZero zero] at member
    obtain rfl := List.mem_singleton.mp member
    rfl
  | false =>
    obtain ⟨i, inside, rfl⟩ := sum.mem_summands zero member
    rw [hasTermKey_powerTerm]
    exact writable i.1 (List.mem_map_of_mem inside)

include named unknown

theorem single {n : ℕ} {c : ℚ} (nonzero : c ≠ 0) : PowerSum x φ [(n, c)] (powerTerm x c (φ n)) := by
  refine ⟨wellFormed_powerTerm named unknown nonzero _, by simpa using nonzero,
    .inr ⟨isZero_powerTerm nonzero x _, ?_⟩⟩
  rw [summands_powerTerm]
  rfl

/-- Sums of different powers are put together. -/
theorem add (injective : Function.Injective φ) (sumA : PowerSum x φ items a) (sumB : PowerSum x φ others b)
    (distinct : ((items ++ others).map Prod.fst).Nodup) (returned : add a b = .ok r) :
    PowerSum x φ (items ++ others) r := by
  have formed := add_wellFormed sumA.formed sumB.formed returned
  have nonzero : ∀ i ∈ items ++ others, i.2 ≠ 0 := fun i member =>
    (List.mem_append.mp member).elim (sumA.nonzero i) (sumB.nonzero i)
  refine ⟨formed, nonzero, ?_⟩
  rcases sumA.terms with ⟨rfl, rfl⟩ | ⟨properA, termsA⟩
  · obtain rfl : b = r := Except.ok.inj returned
    exact sumB.terms
  rcases sumB.terms with ⟨rfl, rfl⟩ | ⟨properB, termsB⟩
  · obtain rfl : a = r := Except.ok.inj ((add_zero_right properA).symm.trans returned)
    rw [List.append_nil]
    exact .inr ⟨properA, termsA⟩
  have both : (a.summands ++ b.summands).Perm ((items ++ others).map fun i => powerTerm x i.2 (φ i.1)) := by
    rw [List.map_append]
    exact termsA.append termsB
  have keys : ((a.summands ++ b.summands).map termKey).Nodup := by
    refine (both.map termKey).nodup_iff.mpr ?_
    rw [List.map_map]
    refine (List.Nodup.of_map _ distinct).map_on fun i memberI j memberJ same => ?_
    have indices := injective (eq_of_termKey_powerTerm named unknown (nonzero i memberI) (nonzero j memberJ) same)
    exact List.inj_on_of_nodup_map distinct memberI memberJ indices
  obtain ⟨proper, terms⟩ := summands_add_of_distinct sumA.isReduced sumB.isReduced properA properB keys returned
  exact .inr ⟨proper, terms ▸ both⟩

/-- Different powers are put together unless one of several cannot be written out. -/
theorem add_outcome (injective : Function.Injective φ) (sumA : PowerSum x φ items a) (sumB : PowerSum x φ others b)
    (distinct : ((items ++ others).map Prod.fst).Nodup) :
    (∃ r, Expr.add a b = .ok r ∧ PowerSum x φ (items ++ others) r) ∨
      (Expr.add a b = .error .unsupported ∧ ¬ Legible φ ((items ++ others).map Prod.fst)) := by
  rcases Expr.add_outcome a b with ⟨r, returned⟩ | ⟨refused, t, member, keyless⟩
  · exact .inl ⟨r, returned, sumA.add named unknown injective sumB distinct returned⟩
  · refine .inr ⟨refused, ?_⟩
    have filled : items ≠ [] ∧ others ≠ [] := by
      refine ⟨?_, ?_⟩
      · rintro rfl
        rw [sumA.eq_zero] at refused
        cases refused
      · rintro rfl
        rw [sumB.eq_zero] at refused
        cases zero : a.isZero with
        | true =>
          rw [eq_zero_of_isZero zero] at refused
          cases refused
        | false => cases (add_zero_right zero).symm.trans refused
    rintro (short | writable)
    · have left := List.length_pos_iff.mpr filled.1
      have right := List.length_pos_iff.mpr filled.2
      rw [List.length_map, List.length_append] at short
      omega
    · rw [List.map_append] at writable
      rcases List.mem_append.mp member with left | right
      · rw [sumA.isKeyed (fun n inside => writable n (List.mem_append_left _ inside)) t left] at keyless
        cases keyless
      · rw [sumB.isKeyed (fun n inside => writable n (List.mem_append_right _ inside)) t right] at keyless
        cases keyless

/-- Different powers are added up unless one of several cannot be written out. -/
theorem addAll_outcome (injective : Function.Injective φ) (sum : PowerSum x φ items e)
    (distinct : ((items ++ others).map Prod.fst).Nodup) (nonzero : ∀ i ∈ others, i.2 ≠ 0) :
    (∃ r, addAll e (others.map fun i => powerTerm x i.2 (φ i.1)) = .ok r ∧ PowerSum x φ (items ++ others) r) ∨
      (addAll e (others.map fun i => powerTerm x i.2 (φ i.1)) = .error .unsupported ∧
        ¬ Legible φ ((items ++ others).map Prod.fst)) := by
  induction others generalizing items e with
  | nil => exact .inl ⟨e, rfl, by rwa [List.append_nil]⟩
  | cons i rest ih =>
    have grown : items ++ i :: rest = (items ++ [i]) ++ rest := by simp
    have single := @single x φ named unknown i.1 i.2 (nonzero i List.mem_cons_self)
    rw [grown] at distinct ⊢
    have first : ((items ++ [i]).map Prod.fst).Sublist ((items ++ [i] ++ rest).map Prod.fst) :=
      (List.sublist_append_left _ _).map _
    rw [Expr.addAll, List.map_cons, List.foldlM_cons]
    rcases sum.add_outcome named unknown injective single (distinct.sublist first) with
      ⟨next, added, total⟩ | ⟨refused, illegible⟩
    · rw [added]
      exact ih total distinct fun j later => nonzero j (List.mem_cons_of_mem _ later)
    · rw [refused]
      exact .inr ⟨rfl, fun legible => illegible (legible.sublist first)⟩

theorem exists_addAll (injective : Function.Injective φ) (distinct : (items.map Prod.fst).Nodup)
    (nonzero : ∀ i ∈ items, i.2 ≠ 0) (legible : Legible φ (items.map Prod.fst)) :
    ∃ r, Expr.addAll Expr.zero (items.map fun i => powerTerm x i.2 (φ i.1)) = .ok r ∧ PowerSum x φ items r :=
  (addAll_outcome named unknown injective (zero x φ) distinct nonzero).resolve_right fun refused => refused.2 legible

omit named unknown in
theorem summands_perm (sum : PowerSum x φ items e) (some : items ≠ []) :
    e.isZero = false ∧ e.summands.Perm (items.map fun i => powerTerm x i.2 (φ i.1)) :=
  sum.terms.resolve_left fun none => some none.2

omit named unknown in
theorem eq_single {i : ℕ × ℚ} (sum : PowerSum x φ [i] e) : e = powerTerm x i.2 (φ i.1) := by
  obtain ⟨-, terms⟩ := sum.summands_perm (List.cons_ne_nil i [])
  have single := List.perm_singleton.mp terms
  rcases summands_cases e with same | ⟨c, es, rfl⟩
  · exact (List.singleton_inj.mp (same.symm.trans single))
  · have several := sum.formed.several_summands
    rw [single, List.length_singleton] at several
    omega

omit named unknown in
/-- A sum of powers is zero, one power, or a plain sum. -/
theorem cases (sum : PowerSum x φ items e) :
    (items = [] ∧ e = Expr.zero) ∨ (∃ i, items = [i] ∧ e = powerTerm x i.2 (φ i.1)) ∨
      ∃ c es, e = Expr.sum c es 1 := by
  by_cases some : items = []
  · subst some
    exact .inl ⟨rfl, sum.eq_zero⟩
  rcases summands_cases e with single | plain
  · have count := (sum.summands_perm some).2.length_eq
    rw [single, List.length_singleton, List.length_map] at count
    obtain ⟨i, rfl⟩ := List.length_eq_one_iff.mp count.symm
    exact .inr (.inl ⟨i, rfl, sum.eq_single⟩)
  · exact .inr (.inr plain)

omit named unknown in
/-- Sums of the same powers look alike. -/
theorem render_eq (sumA : PowerSum x φ items a) (sumB : PowerSum x φ items b) : a.render = b.render := by
  by_cases some : items = []
  · subst some
    rw [sumA.eq_zero, sumB.eq_zero]
  rcases sumA.legible with short | writable
  · obtain ⟨i, rfl⟩ : ∃ i, items = [i] := by
      refine List.length_eq_one_iff.mp ?_
      have positive := List.length_pos_iff.mpr some
      rw [List.length_map] at short
      omega
    rw [sumA.eq_single, sumB.eq_single]
  · refine render_eq_of_weights sumA.isReduced sumB.isReduced (sumA.isKeyed writable) (sumB.isKeyed writable) ?_
    have same := (sumA.summands_perm some).2.trans (sumB.summands_perm some).2.symm
    rw [weights, weights, (same.map _).sum_eq]

omit named unknown in
theorem scale (sum : PowerSum x φ items e) {c : ℚ} (nonzero : c ≠ 0) :
    PowerSum x φ (items.map fun i => (i.1, i.2 * c)) (e.scale c) := by
  refine ⟨sum.formed.scale c, fun i member => ?_, ?_⟩
  · obtain ⟨j, inside, rfl⟩ := List.mem_map.mp member
    exact mul_ne_zero (sum.nonzero j inside) nonzero
  · rcases sum.terms with ⟨rfl, rfl⟩ | ⟨proper, terms⟩
    · refine .inl ⟨?_, rfl⟩
      rw [Expr.scale, if_neg nonzero]
      exact congrArg number (zero_mul c)
    · refine .inr ⟨?_, ?_⟩
      · rw [Expr.scale, if_neg nonzero]
        cases e with
        | number d => 
          simp only [isZero, withCoeff, coeff, beq_eq_false_iff_ne] at proper ⊢
          exact mul_ne_zero proper nonzero
        | foreign => exact sum.formed.elim
        | _ => rfl
      · rw [summands_scale sum.formed nonzero, List.map_map]
        have scaled := terms.map fun t => t.withCoeff (t.coeff * c)
        rw [List.map_map] at scaled
        refine scaled.trans (List.Perm.of_eq (List.map_congr_left fun i _ => ?_))
        rw [Function.comp_apply, Function.comp_apply, withCoeff_powerTerm, coeff_powerTerm]

end PowerSum

theorem exists_of_perm_map {α β : Type} {f : α → β} {bs : List β} {as : List α} (perm : bs.Perm (as.map f)) :
    ∃ others : List α, others.Perm as ∧ bs = others.map f := by
  have images : List.Forall₂ (fun b a => b = f a) (as.map f) as := by
    rw [List.forall₂_map_left_iff, List.forall₂_same]
    exact fun _ _ => rfl
  obtain ⟨others, same, listed⟩ := List.perm_comp_forall₂ perm images
  refine ⟨others, listed, ?_⟩
  rw [← List.forall₂_eq_eq_eq, List.forall₂_map_right_iff]
  exact same

theorem PowerSum.spread (sum : PowerSum x φ items e) (some : items ≠ []) :
    ∃ others : List (ℕ × ℚ), others.Perm items ∧ e.spreadTerms = others.map fun i => powerTerm x i.2 (φ i.1) :=
  exists_of_perm_map ((spreadTerms_perm e).trans (sum.summands_perm some).2)

theorem PowerSum.terms_plain {c : ℚ} {es : List Expr} (sum : PowerSum x φ items (sum c es 1)) :
    ∃ others : List (ℕ × ℚ), others.Perm items ∧ es = others.map fun i => powerTerm x (i.2 / c) (φ i.1) := by
  rcases sum.terms with ⟨same, -⟩ | ⟨-, terms⟩
  · cases same
  rw [summands_plain] at terms
  obtain ⟨others, listed, same⟩ := exists_of_perm_map terms
  refine ⟨others, listed, ?_⟩
  have divided := congrArg (List.map fun t => t.withCoeff (t.coeff / c)) same
  rw [List.map_map, List.map_map] at divided
  refine (List.map_id es).symm.trans ((List.map_congr_left fun t member => ?_).trans (divided.trans
    (List.map_congr_left fun i _ => ?_)))
  · have formed := allWellFormed_iff.mp sum.formed.2.2.2 t member
    rw [Function.comp_apply, formed.coeff_withCoeff, withCoeff_withCoeff, mul_div_cancel_right₀ _ sum.formed.1,
      withCoeff_coeff, id]
  · rw [Function.comp_apply, coeff_powerTerm, withCoeff_powerTerm]

def powerOf? (x : String) : Expr → Option (ℚ × ℤ)
  | number c => some (c, 0)
  | symbol c name p => if name = x ∧ p.den = 1 ∧ p ≠ 0 then some (c, p.num) else none
  | _ => none

theorem powerTerm_of_powerOf? {i : ℚ × ℤ} (read : e.powerOf? x = some i) : powerTerm x i.1 i.2 = e := by
  unfold powerOf? at read
  split at read
  · cases read
    rfl
  · split at read
    next shape =>
      obtain ⟨rfl, whole, nonzero⟩ := shape
      cases read
      rw [powerTerm_of_ne (Rat.num_ne_zero.mpr nonzero), Rat.coe_int_num_of_den_eq_one whole]
    next => cases read
  · cases read

def isSumOf (x : String) (items : List (ℚ × ℤ)) : Expr → Bool
  | sum c terms p => (c == 1 && p == 1) && terms.map (powerOf? x) == items.map some
  | _ => false

theorem eq_of_isSumOf {items : List (ℚ × ℤ)} (shape : e.isSumOf x items = true) :
    e = sum 1 (items.map fun i => powerTerm x i.1 i.2) 1 := by
  unfold isSumOf at shape
  split at shape
  next c terms p =>
    simp only [Bool.and_eq_true, beq_iff_eq] at shape
    obtain ⟨⟨rfl, rfl⟩, same⟩ := shape
    have each : List.Forall₂ (fun i t => powerTerm x i.1 i.2 = t) items terms := by
      have read : List.Forall₂ (fun t i => powerOf? x t = some i) terms items := by
        rw [← List.forall₂_map_left_iff (f := powerOf? x) (R := fun a i => a = some i), same,
          List.forall₂_map_left_iff, List.forall₂_same]
        exact fun _ _ => rfl
      exact read.flip.imp fun _ _ => powerTerm_of_powerOf?
    rw [← List.forall₂_map_left_iff, List.forall₂_eq_eq_eq] at each
    rw [each]
  next => cases shape

section

open Engine

variable {context : Context} {accepts : Fault → Prop}

/-- A loop does what it does without the looks at the clock. -/
theorem Meets.foldlM_lift {α β : Type} {step : β → α → Engine β} {f : β → α → Except Fault β} {as : List α} {init : β}
    (steps : ∀ b, ∀ a ∈ as, (∀ fault, f b a = .error fault → accepts fault) →
      Meets context accepts (step b a) (f b a = .ok ·))
    (fails : ∀ fault, as.foldlM f init = .error fault → accepts fault) :
    Meets context accepts (as.foldlM step init) (as.foldlM f init = .ok ·) := by
  induction as generalizing init with
  | nil => exact Meets.pure rfl
  | cons a rest ih =>
    rw [List.foldlM_cons] at fails ⊢
    rw [List.foldlM_cons]
    refine Meets.bind _ (steps init a List.mem_cons_self fun fault failed => fails fault (by rw [failed]; rfl)) ?_
    intro next first
    rw [first] at fails ⊢
    exact ih (fun b c inside => steps b c (List.mem_cons_of_mem _ inside)) fails

theorem expandTree_powerTerm (x : String) (c : ℚ) (k : ℤ) :
    expandTree (powerTerm x c k) = (pure (powerTerm x c k) : Engine Expr) := by
  unfold powerTerm
  split
  · rw [expandTree]
  · rw [expandTree]

theorem meets_expand_powerTerm (x : String) (c : ℚ) (k : ℤ) :
    Meets context (Unset context) (expand (powerTerm x c k)) (· = powerTerm x c k) := by
  refine meets_opened (fun _ => id) fun guard _ => ?_
  rw [expandTree_powerTerm]
  exact Meets.pure rfl

/-- Sums of powers are expanded already, and no deadline can pass meanwhile. -/
theorem PowerSum.meets_expand (named : Identifier x) (unknown : isVariableName x = true)
    (injective : Function.Injective φ) (sum : PowerSum x φ items e) :
    Meets context (Unset context) (expand e) (PowerSum x φ items) := by
  rcases sum.cases with ⟨rfl, rfl⟩ | ⟨i, rfl, rfl⟩ | ⟨c, es, rfl⟩
  · exact meets_opened (fun _ => id) fun guard _ => Meets.pure (zero x φ)
  · refine (meets_expand_powerTerm x i.2 (φ i.1)).imp ?_
    rintro _ rfl
    exact single named unknown (sum.nonzero i (List.mem_singleton_self i))
  · have nonzero := sum.formed.1
    obtain ⟨others, listed, shape⟩ := sum.terms_plain
    have same : es = (others.map fun i => (i.1, i.2 / c)).map fun i => powerTerm x i.2 (φ i.1) := by
      rw [List.map_map]
      exact shape
    have indices : (others.map fun i => (i.1, i.2 / c)).map Prod.fst = others.map Prod.fst := by
      rw [List.map_map]
      rfl
    obtain ⟨r, added, total⟩ := @exists_addAll x φ (others.map fun i => (i.1, i.2 / c)) named unknown injective
      (by rw [indices]; exact (listed.map _).nodup_iff.mpr sum.distinct)
      (fun i member => by
        obtain ⟨j, inside, rfl⟩ := List.mem_map.mp member
        exact div_ne_zero (sum.nonzero j (listed.mem_iff.mp inside)) nonzero)
      (by rw [indices]; exact sum.legible.perm (listed.map _).symm)
    rw [← same] at added
    refine meets_opened (fun _ => id) fun guard _ => ?_
    have loop : Meets (block context guard) (Unset context) (expandSum Expr.zero es)
        (Expr.addAll Expr.zero es = .ok ·) := by
      rw [expandSum_eq]
      refine Meets.foldlM_lift (fun b t member refuses => ?_) fun fault failed => ?_
      · rw [same] at member
        obtain ⟨i, -, rfl⟩ := List.mem_map.mp member
        rw [expandTree_powerTerm]
        exact Meets.lift (fun _ => id) refuses
      · cases added.symm.trans failed
    rw [expandTree]
    refine Meets.bind _ loop fun sum computed => ?_
    obtain rfl := Except.ok.inj (added.symm.trans computed)
    rw [expandPower, if_pos rfl]
    refine Meets.bind (· = r) (Meets.pure rfl) ?_
    rintro r rfl
    refine Meets.pure ((total.scale nonzero).perm ?_)
    rw [List.map_map]
    refine (List.Perm.of_eq ?_).trans listed
    refine (List.map_congr_left fun i _ => ?_).trans (List.map_id _)
    exact Prod.ext rfl (div_mul_cancel₀ i.2 nonzero)

noncomputable def monomials (items : List (ℕ × ℚ)) : Polynomial ℚ :=
  (items.map fun i => Polynomial.monomial i.1 i.2).sum

@[simp] theorem monomials_nil : monomials [] = 0 := rfl

@[simp] theorem monomials_cons (i : ℕ × ℚ) (items : List (ℕ × ℚ)) :
    monomials (i :: items) = Polynomial.monomial i.1 i.2 + monomials items := by
  rw [monomials, List.map_cons, List.sum_cons, monomials]

theorem addAt_numbers (c : ℚ) (n : ℕ) (cs : List ℚ) :
    ∃ ds : List ℚ, addAt n (number c) (cs.map number) = .ok (ds.map number) ∧ ds ≠ [] ∧
      Poly.ofCoefficients ds = Poly.ofCoefficients cs + Polynomial.monomial n c := by
  induction n generalizing cs with
  | zero =>
    cases cs with
    | nil => exact ⟨[c], rfl, List.cons_ne_nil _ _, by simp [Poly.ofCoefficients]⟩
    | cons d cs =>
      refine ⟨(d + c) :: cs, ?_, List.cons_ne_nil _ _, ?_⟩
      · rw [List.map_cons, addAt, add_numbers]
        rfl
      · simp only [Poly.ofCoefficients, map_add, Polynomial.monomial_zero_left]
        ring
  | succ n ih =>
    cases cs with
    | nil =>
      obtain ⟨ds, added, -, value⟩ := ih []
      refine ⟨0 :: ds, ?_, List.cons_ne_nil _ _, ?_⟩
      · rw [List.map_nil, addAt]
        rw [List.map_nil] at added
        rw [added]
        rfl
      · simp only [Poly.ofCoefficients, value, mul_add, Polynomial.X_mul_monomial]
        simp
    | cons d cs =>
      obtain ⟨ds, added, -, value⟩ := ih cs
      refine ⟨d :: ds, ?_, List.cons_ne_nil _ _, ?_⟩
      · rw [List.map_cons, addAt, added]
        rfl
      · rw [Poly.ofCoefficients, value, Poly.ofCoefficients, mul_add, Polynomial.X_mul_monomial, add_assoc]

theorem termDegree?_powerTerm (x : String) (c : ℚ) (n : ℕ) :
    termDegree? x (powerTerm x c (n : ℤ)) = .ok (some (number c, n)) := by
  by_cases zero : n = 0
  · subst zero
    rfl
  · have positive : (0 : ℚ) < n := Nat.cast_pos.mpr (Nat.pos_of_ne_zero zero)
    rw [powerTerm_of_ne (Nat.cast_ne_zero.mpr zero), Int.cast_natCast]
    simp [termDegree?, contains, naturalPower?, Rational.isInteger, positive]

theorem collect_powers (items : List (ℕ × ℚ)) (cs : List ℚ) :
    ∃ ds : List ℚ, collect x (cs.map number) (items.map fun i => powerTerm x i.2 (i.1 : ℤ)) =
        .ok (some (ds.map number)) ∧ (items ≠ [] ∨ cs ≠ [] → ds ≠ []) ∧
      Poly.ofCoefficients ds = Poly.ofCoefficients cs + monomials items := by
  induction items generalizing cs with
  | nil => exact ⟨cs, rfl, by simp, by simp⟩
  | cons i rest ih =>
    obtain ⟨next, added, present, value⟩ := addAt_numbers i.2 i.1 cs
    obtain ⟨ds, collected, some, total⟩ := ih next
    refine ⟨ds, ?_, fun _ => some (.inr present), ?_⟩
    · rw [List.map_cons, collect, termDegree?_powerTerm]
      change (addAt i.1 (number i.2) (cs.map number) >>= fun cs => collect x cs _) = _
      rw [added]
      exact collected
    · rw [total, value, monomials_cons, add_assoc]

/-- At most one coefficient is a zero at the end. -/
theorem dropZeroTail_numbers (cs : List ℚ) :
    ∃ ds : List ℚ, dropZeroTail (cs.map number) = ds.map number ∧
      Poly.ofCoefficients ds = Poly.ofCoefficients cs ∧ (cs ≠ [] → ds ≠ []) ∧
      (2 ≤ ds.length → ds.getLastD 0 ≠ 0) := by
  induction cs with
  | nil => exact ⟨[], rfl, rfl, id, by simp⟩
  | cons c cs ih =>
    obtain ⟨ds, dropped, value, -, last⟩ := ih
    rw [List.map_cons, dropZeroTail, dropped]
    rcases ds with _ | ⟨d, _ | ⟨d', ds⟩⟩
    · exact ⟨[c], rfl, by rw [Poly.ofCoefficients, value, ← Poly.ofCoefficients], by simp, by simp⟩
    · simp only [List.map_cons, List.map_nil]
      split
      next zero =>
        have none : d = 0 := by simpa [isZero] using zero
        refine ⟨[c], rfl, ?_, by simp, by simp⟩
        simp [Poly.ofCoefficients, ← value, none]
      next proper =>
        refine ⟨[c, d], rfl, by rw [Poly.ofCoefficients, value, ← Poly.ofCoefficients], by simp, fun _ => ?_⟩
        simpa [isZero] using proper
    · exact ⟨c :: d :: d' :: ds, rfl, by rw [Poly.ofCoefficients, value, ← Poly.ofCoefficients], by simp,
        fun _ => last (by simp)⟩

/-- The coefficients of an expression that is expanded to powers of the unknown, up to the leading one. -/
theorem meets_coeffs?_of_powers {accepts : Fault → Prop} {p : Polynomial ℚ}
    (expands : Meets context accepts (expand e) fun expanded => ∃ items : List (ℕ × ℚ), items ≠ [] ∧
      expanded.spreadTerms = items.map (fun i => powerTerm x i.2 (i.1 : ℤ)) ∧ monomials items = p) :
    Meets context accepts (e.coeffs? x) fun cs? => ∃ cs : List ℚ, cs? = some (cs.map number) ∧
      Poly.ofCoefficients cs = p ∧ cs.length = p.natDegree + 1 ∧ cs.getLastD 0 = p.leadingCoeff := by
  unfold coeffs?
  refine Meets.bind _ expands ?_
  rintro expanded ⟨items, some, terms, rfl⟩
  obtain ⟨cs, collected, present, value⟩ := @collect_powers x items []
  obtain ⟨ds, dropped, kept, proper, last⟩ := dropZeroTail_numbers cs
  have total : Poly.ofCoefficients ds = monomials items := by
    rw [kept, value, Poly.ofCoefficients, zero_add]
  obtain ⟨length, leading⟩ := Poly.degree_ofCoefficients (proper (present (.inl some))) last
  refine Meets.bind _ (Meets.of_ok (terms ▸ collected)) ?_
  rintro _ rfl
  exact Meets.pure ⟨ds, by rw [dropped], total, total ▸ length, total ▸ leading⟩

theorem mapM_value?_numbers (cs : List ℚ) : (cs.map number).mapM value? = some cs := by
  induction cs with
  | nil => rfl
  | cons c cs ih => 
    rw [List.map_cons, List.mapM_cons, ih]
    rfl

/-- An expression that is expanded to powers of the unknown is read as their polynomial. -/
theorem meets_poly?_of_powers {accepts : Fault → Prop} {p : Polynomial ℚ}
    (expands : Meets context accepts (expand e) fun expanded => ∃ items : List (ℕ × ℚ), items ≠ [] ∧
      expanded.spreadTerms = items.map (fun i => powerTerm x i.2 (i.1 : ℤ)) ∧ monomials items = p) :
    Meets context accepts (e.poly? x) fun p? => ∃ q : Poly, p? = some q ∧ q.toPolynomial = p := by
  unfold poly?
  refine Meets.bind _ (meets_coeffs?_of_powers expands) ?_
  rintro _ ⟨cs, rfl, value, -⟩
  refine Meets.pure ⟨Poly.ofList cs, ?_, (Poly.toPolynomial_ofList cs).trans value⟩
  rw [mapM_value?_numbers]
  rfl

/-- The terms of a sum of powers, if only a zero. -/
theorem PowerSum.exists_spread (sum : PowerSum x (fun n => n) items e) :
    ∃ others : List (ℕ × ℚ), others ≠ [] ∧ e.spreadTerms = others.map (fun i => powerTerm x i.2 (i.1 : ℤ)) ∧
      monomials others = monomials items := by
  by_cases some : items = []
  · subst some
    rw [sum.eq_zero]
    exact ⟨[(0, 0)], List.cons_ne_nil _ _, rfl, by simp⟩
  · obtain ⟨others, listed, terms⟩ := sum.spread some
    refine ⟨others, fun none => some ?_, terms, by rw [monomials, (listed.map _).sum_eq, monomials]⟩
    exact (none ▸ listed).nil_eq.symm

/-- A sum of powers that are not negative is read as the polynomial that it is. -/
theorem PowerSum.meets_poly? (named : Identifier x) (unknown : isVariableName x = true)
    (sum : PowerSum x (fun n => n) items e) :
    Meets context (Unset context) (e.poly? x) fun p? =>
      ∃ p : Poly, p? = some p ∧ p.toPolynomial = monomials items :=
  meets_poly?_of_powers ((sum.meets_expand named unknown Nat.cast_injective).imp fun _ => PowerSum.exists_spread)

end

end ExactAlgebra.Expr
