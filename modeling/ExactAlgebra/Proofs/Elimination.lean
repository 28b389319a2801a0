import ExactAlgebra.Proofs.Interruption
import ExactAlgebra.Solve.System
import Mathlib

/-! Elimination on rows of numbers. A step takes the row at some place for the next column and clears the
column in all other rows. The rows that were taken vanish at the same columns of numbers as the equations
they come from; where they vanish, so do the other rows exactly when their equations do. -/
namespace ExactAlgebra.LinearSystem
open Engine ExactAlgebra.Expr

/-- A row of numbers times a column of `k` numbers. -/
def pairing (k : ℕ) (row w : ℕ → ℚ) : ℚ := ∑ c ∈ Finset.range k, row c * w c

/-- The row at a place goes to the column's own place, scaled to one there, and is subtracted from the
others so that they are zero there. -/
def sweep (A : ℕ → ℕ → ℚ) (place column r c : ℕ) : ℚ :=
  if r = column then A place c / A place column
  else A (Equiv.swap place column r) c -
    A (Equiv.swap place column r) column * (A place c / A place column)

/-- The rows `A` after the first columns were swept, from the `m` rows `O` of an order that `σ` tells. -/
structure Swept (m k : ℕ) (O : ℕ → ℕ → ℚ) (σ : Equiv.Perm ℕ) (column : ℕ) (A : ℕ → ℕ → ℚ) : Prop where
  inside : ∀ r, σ r < m ↔ r < m
  unit : ∀ r < m, ∀ c < column, A r c = if r = c then 1 else 0
  pivots : ∀ w, (∀ r < column, pairing k (A r) w = 0) ↔ ∀ r < column, pairing k (O (σ r)) w = 0
  rest : ∀ w, (∀ r < column, pairing k (A r) w = 0) →
    ∀ r, column ≤ r → r < m → pairing k (A r) w = pairing k (O (σ r)) w

/-- At a column of numbers that is not zero in the first `n` places and zero behind, all rows vanish. -/
def Degenerate (m n k : ℕ) (O : ℕ → ℕ → ℚ) : Prop :=
  ∃ w : ℕ → ℚ, (∃ c < n, w c ≠ 0) ∧ (∀ c, n ≤ c → w c = 0) ∧ ∀ r < m, pairing k (O r) w = 0

variable {m n k column place : ℕ} {O A : ℕ → ℕ → ℚ} {σ : Equiv.Perm ℕ}

theorem pairing_sweep (k : ℕ) (A : ℕ → ℕ → ℚ) (place column r : ℕ) (w : ℕ → ℚ) :
    pairing k (sweep A place column r) w =
      if r = column then pairing k (A place) w / A place column
      else pairing k (A (Equiv.swap place column r)) w -
        A (Equiv.swap place column r) column * (pairing k (A place) w / A place column) := by
  unfold pairing sweep
  split
  · rw [Finset.sum_div]
    exact Finset.sum_congr rfl fun c _ => by ring
  · rw [Finset.sum_div, Finset.mul_sum, ← Finset.sum_sub_distrib]
    exact Finset.sum_congr rfl fun c _ => by ring

theorem Swept.initial (m k : ℕ) (O : ℕ → ℕ → ℚ) : Swept m k O 1 0 O where
  inside _ := Iff.rfl
  unit _ _ _ small := absurd small (Nat.not_lt_zero _)
  pivots _ := Iff.rfl
  rest _ _ _ _ _ := rfl

/-- The swept row vanishes exactly where the taken one does, and there the others stay as they are. -/
theorem pairing_sweep_eq_zero_iff (nonzero : A place column ≠ 0) (w : ℕ → ℚ) :
    pairing k (sweep A place column column) w = 0 ↔ pairing k (A place) w = 0 := by
  rw [pairing_sweep, if_pos rfl, div_eq_zero_iff, or_iff_left nonzero]

theorem pairing_sweep_of_vanishes {r : ℕ} (other : r ≠ column) {w : ℕ → ℚ}
    (vanishes : pairing k (A place) w = 0) :
    pairing k (sweep A place column r) w = pairing k (A (Equiv.swap place column r)) w := by
  rw [pairing_sweep, if_neg other, vanishes, zero_div, mul_zero, sub_zero]

theorem swap_of_lt {r : ℕ} (least : column ≤ place) (below : r < column) :
    Equiv.swap place column r = r :=
  Equiv.swap_apply_of_ne_of_ne (below.trans_le least).ne below.ne

/-- What a step keeps. -/
theorem Swept.step (swept : Swept m k O σ column A) (least : column ≤ place) (inside : place < m)
    (nonzero : A place column ≠ 0) :
    Swept m k O ((Equiv.swap place column).trans σ) (column + 1) (sweep A place column) := by
  have here : column < m := least.trans_lt inside
  have swapped (r : ℕ) : Equiv.swap place column r < m ↔ r < m := by
    rcases eq_or_ne r place with rfl | notPlace
    · simp [inside, here]
    rcases eq_or_ne r column with rfl | notColumn
    · simp [inside, here]
    rw [Equiv.swap_apply_of_ne_of_ne notPlace notColumn]
  -- Where the rows taken so far vanish together with the one at the place.
  have vanish (w : ℕ → ℚ) : (∀ r < column + 1, pairing k (sweep A place column r) w = 0) ↔
      (∀ r < column, pairing k (A r) w = 0) ∧ pairing k (A place) w = 0 := by
    rw [Nat.forall_lt_succ_right, pairing_sweep_eq_zero_iff nonzero]
    refine and_congr_left fun vanishes => forall₂_congr fun r below => ?_
    rw [pairing_sweep_of_vanishes below.ne vanishes, swap_of_lt least below]
  refine ⟨fun r => (swept.inside _).trans (swapped r), fun r small c below => ?_, fun w => ?_,
    fun w vanishes r above small => ?_⟩
  · rcases Nat.lt_succ_iff_lt_or_eq.mp below with before | rfl
    · have pivot : A place c = 0 := by
        rw [swept.unit place inside c before, if_neg (before.trans_le least).ne']
      rw [sweep, pivot, zero_div, mul_zero, sub_zero]
      split
      next same => rw [if_neg (by omega)]
      next other =>
        rw [swept.unit _ ((swapped r).mpr small) c before]
        refine if_congr ?_ rfl rfl
        rw [← swap_of_lt least before, Equiv.apply_eq_iff_eq, swap_of_lt least before]
    · rw [sweep, div_self nonzero, mul_one, sub_self]
  · rw [vanish, Nat.forall_lt_succ_right, swept.pivots w]
    have others : (∀ r < column, pairing k (O (((Equiv.swap place column).trans σ) r)) w = 0) ↔
        ∀ r < column, pairing k (O (σ r)) w = 0 := by
      refine forall₂_congr fun r below => ?_
      rw [Equiv.trans_apply, swap_of_lt least below]
    rw [others]
    refine and_congr_right fun zeros => ?_
    rw [swept.rest w ((swept.pivots w).mpr zeros) place least inside, Equiv.trans_apply,
      Equiv.swap_apply_right]
  · obtain ⟨zeros, pivot⟩ := (vanish w).mp vanishes
    have other : r ≠ column := by omega
    have later : column ≤ Equiv.swap place column r := by
      rcases eq_or_ne r place with rfl | notPlace
      · rw [Equiv.swap_apply_left]
      · rw [Equiv.swap_apply_of_ne_of_ne notPlace other]
        omega
    rw [pairing_sweep_of_vanishes other pivot, Equiv.trans_apply]
    exact swept.rest w zeros _ later ((swapped r).mpr small)

/-- Where all rows vanish, all equations do. -/
theorem Swept.vanish (swept : Swept m k O σ column A) (bound : column ≤ m) (w : ℕ → ℚ) :
    (∀ r < m, pairing k (A r) w = 0) ↔ ∀ r < m, pairing k (O r) w = 0 := by
  have order : (∀ r < m, pairing k (O (σ r)) w = 0) ↔ ∀ r < m, pairing k (O r) w = 0 := by
    constructor
    · intro zeros r small
      have back := zeros (σ.symm r) ((swept.inside _).mp (by rwa [Equiv.apply_symm_apply]))
      rwa [Equiv.apply_symm_apply] at back
    · intro zeros r small
      exact zeros (σ r) ((swept.inside r).mpr small)
  rw [← order]
  constructor
  · intro zeros r small
    have taken : ∀ r < column, pairing k (A r) w = 0 := fun r below => zeros r (below.trans_le bound)
    rcases lt_or_ge r column with below | above
    · exact (swept.pivots w).mp taken r below
    · rw [← swept.rest w taken r above small]
      exact zeros r small
  · intro zeros r small
    have taken := (swept.pivots w).mpr fun r below => zeros r (below.trans_le bound)
    rcases lt_or_ge r column with below | above
    · exact taken r below
    · rw [swept.rest w taken r above small]
      exact zeros r small

/-- Swept columns single out one entry. -/
theorem Swept.sum_unit (swept : Swept m k O σ column A) {r : ℕ} (small : r < m) (v : ℕ → ℚ) :
    ∑ c ∈ Finset.range column, A r c * v c = if r < column then v r else 0 := by
  have units : ∀ c ∈ Finset.range column, A r c * v c = if r = c then v c else 0 := by
    intro c member
    rw [swept.unit r small c (Finset.mem_range.mp member)]
    split <;> simp
  rw [Finset.sum_congr rfl units, Finset.sum_ite_eq]
  simp only [Finset.mem_range]

/-- Without a row to take, the unknown of the column can be chosen freely. -/
theorem Swept.degenerate (swept : Swept m k O σ column A) (bound : column ≤ m) (inside : column < n)
    (within : n ≤ k) (none : ∀ r, column ≤ r → r < m → A r column = 0) : Degenerate m n k O := by
  let w (c : ℕ) : ℚ := if c < column then -A c column else if c = column then 1 else 0
  refine ⟨w, ⟨column, inside, by simp [w]⟩, fun c above => ?_, (swept.vanish bound w).mp fun r small => ?_⟩
  · have later : ¬ c < column ∧ c ≠ column := by omega
    simp [w, later]
  have split : pairing k (A r) w = (∑ c ∈ Finset.range column, A r c * -A c column) + A r column := by
    have cut : k = column + 1 + (k - column - 1) := by omega
    rw [pairing, cut, Finset.sum_range_add, Finset.sum_range_succ]
    have behind : ∑ c ∈ Finset.range (k - column - 1), A r (column + 1 + c) * w (column + 1 + c) = 0 := by
      refine Finset.sum_eq_zero fun c _ => ?_
      have later : ¬ column + 1 + c < column ∧ column + 1 + c ≠ column := by omega
      simp [w, later]
    have before : ∑ c ∈ Finset.range column, A r c * w c =
        ∑ c ∈ Finset.range column, A r c * -A c column := by
      refine Finset.sum_congr rfl fun c member => ?_
      simp [w, Finset.mem_range.mp member]
    rw [behind, before, add_zero]
    simp [w]
  rw [split, swept.sum_unit small fun c => -A c column]
  split
  · exact neg_add_cancel _
  next above => rw [none r (not_lt.mp above) small, add_zero]

/-- After the last column the first rows tell the unknowns, and nothing else is left in the others. -/
theorem Swept.pairing_eq (swept : Swept m (n + 1) O σ n A) {r : ℕ} (small : r < m) (w : ℕ → ℚ) :
    pairing (n + 1) (A r) w = (if r < n then w r else 0) + A r n * w n := by
  rw [pairing, Finset.sum_range_succ, swept.sum_unit small w]

def numberRow (k : ℕ) (row : ℕ → ℚ) : Row := (List.range k).map fun c => number (row c)

def numberRows (m k : ℕ) (A : ℕ → ℕ → ℚ) : List Row := (List.range m).map fun r => numberRow k (A r)

variable {context : Context} {accepts : Fault → Prop}

theorem entry_numberRow {row : ℕ → ℚ} (inside : column < k) :
    (numberRow k row).entry column = number (row column) := by
  simp [numberRow, Row.entry, List.getD_eq_getElem?_getD, inside]

theorem numberRow_getD (row : List ℚ) :
    numberRow row.length (fun c => row.getD c 0) = row.map number := by
  refine List.ext_getElem (by simp [numberRow]) fun c small _ => ?_
  have inside : c < row.length := by simpa [numberRow] using small
  simp [numberRow, inside]

theorem getD_numberRows {r : ℕ} (small : r < m) : (numberRows m k A).getD r [] = numberRow k (A r) := by
  simp [numberRows, List.getD_eq_getElem?_getD, small]

/-- Two rows change places. -/
theorem swap_numberRows (here : column < m) (inside : place < m) :
    ((numberRows m k A).set place (numberRow k (A column))).set column (numberRow k (A place)) =
      numberRows m k fun r => A (Equiv.swap place column r) := by
  refine List.ext_getElem (by simp [numberRows]) fun r small _ => ?_
  simp only [numberRows, List.getElem_set, List.getElem_map, List.getElem_range]
  rcases eq_or_ne r column with rfl | notColumn
  · simp
  rcases eq_or_ne r place with rfl | notPlace
  · simp [notColumn.symm]
  · rw [if_neg notColumn.symm, if_neg notPlace.symm, Equiv.swap_apply_of_ne_of_ne notPlace notColumn]

theorem zipIdx_numberRows (m k : ℕ) (A : ℕ → ℕ → ℚ) :
    (numberRows m k A).zipIdx = (List.range m).map fun r => (numberRow k (A r), r) := by
  refine List.ext_getElem (by simp [numberRows]) fun r _ _ => ?_
  simp [numberRows]

theorem meets_clearRow {pivot row : ℕ → ℚ} (inside : column < k) :
    Meets context (Interrupted context) (clearRow column (numberRow k pivot) (numberRow k row))
      (· = numberRow k fun c => row c - row column * pivot c) := by
  unfold clearRow
  rw [entry_numberRow inside]
  dsimp only
  split
  next zeroed =>
    have none : row column = 0 := by simpa [isZero] using zeroed
    refine Meets.pure ?_
    simp [none]
  next =>
    have pairs : (numberRow k row).zip (numberRow k pivot) =
        (List.range k).map fun c => (number (row c), number (pivot c)) := List.zip_map' ..
    rw [pairs]
    refine Meets.mapM_map fun c _ => ?_
    refine Meets.bind _ (Meets.of_ok (mul_numbers _ _)) ?_
    rintro _ rfl
    refine Meets.bind _ (Meets.of_ok (sub_numbers _ _)) ?_
    rintro _ rfl
    exact meets_expand_number _

/-- What stops a step: an interruption, or there is no row to take. -/
def NoPivot (m column : ℕ) (A : ℕ → ℕ → ℚ) (fault : Fault) : Prop :=
  fault = .noUniqueSolution ∧ ∀ r, column ≤ r → r < m → A r column = 0

theorem meets_eliminate (inside : column < k) :
    Meets context (fun fault => Interrupted context fault ∨ NoPivot m column A fault)
      (eliminate (numberRows m k A) column) fun rows => ∃ place, column ≤ place ∧ place < m ∧
        A place column ≠ 0 ∧ rows = numberRows m k (sweep A place column) := by
  have length : (numberRows m k A).length = m := by simp [numberRows]
  have usable {r : ℕ} (small : r < m) : (decide (column ≤ r) &&
      !(((numberRows m k A).getD r []).entry column).isZero) = true ↔
        column ≤ r ∧ A r column ≠ 0 := by
    rw [getD_numberRows small, entry_numberRow inside]
    simp [isZero]
  unfold eliminate
  refine Meets.bind _ (Engine.meets_poll.accept fun _ => .inl) fun _ _ => ?_
  rw [length]
  split
  next missing =>
    refine Meets.throw (.inr ⟨rfl, fun r above small => ?_⟩)
    have refused := List.find?_eq_none.mp missing r (List.mem_range.mpr small)
    by_contra nonzero
    exact refused ((usable small).mpr ⟨above, nonzero⟩)
  next place found =>
    have small : place < m := List.mem_range.mp (List.mem_of_find?_eq_some found)
    have passed := List.find?_some found
    obtain ⟨above, nonzero⟩ := (usable small).mp passed
    have here : column < m := above.trans_lt small
    dsimp only
    rw [getD_numberRows small, getD_numberRows here, swap_numberRows here small,
      entry_numberRow inside]
    refine Meets.bind (· = numberRow k fun c => A place c / A place column) ?_ ?_
    · refine Meets.mapM_map fun c _ => ?_
      exact Meets.of_ok (div_numbers nonzero)
    rintro _ rfl
    suffices swept : Meets context _ _ (· = numberRows m k (sweep A place column)) from
      swept.imp fun rows same => ⟨place, above, small, nonzero, same⟩
    rw [zipIdx_numberRows]
    refine Meets.mapM_map fun r _ => ?_
    dsimp only
    split
    next same =>
      exact Meets.pure (congrArg (numberRow k) (funext fun c => (if_pos same).symm))
    next other =>
      refine ((meets_clearRow inside).accept fun _ => .inl).imp ?_
      rintro _ rfl
      exact congrArg (numberRow k) (funext fun c => (if_neg other).symm)

/-- A run over the first columns. Unless it is interrupted, the rows come to swept ones, or an unknown
can be chosen freely. -/
theorem meets_sweeps (within : n ≤ k) :
    Meets context (fun fault => Interrupted context fault ∨
        (fault = .noUniqueSolution ∧ Degenerate m n k O))
      ((List.range n).foldlM eliminate (numberRows m k O)) fun rows =>
        ∃ A σ, rows = numberRows m k A ∧ Swept m k O σ n A ∧ n ≤ m := by
  refine Meets.foldlM_range (fun column rows =>
    ∃ A σ, rows = numberRows m k A ∧ Swept m k O σ column A ∧ column ≤ m)
    ⟨O, 1, rfl, .initial m k O, Nat.zero_le m⟩ ?_
  rintro column small _ ⟨A, σ, rfl, swept, bound⟩
  refine ((meets_eliminate (small.trans_le within)).accept fun fault stopped => ?_).imp ?_
  · exact stopped.imp_right fun ⟨same, unfit⟩ => ⟨same, swept.degenerate bound small within unfit⟩
  · rintro _ ⟨place, least, inside, nonzero, rfl⟩
    exact ⟨_, _, rfl, swept.step least inside nonzero, least.trans_lt inside⟩

end ExactAlgebra.LinearSystem
