import ExactAlgebra.Poly.Elimination
import ExactAlgebra.Proofs.Elimination
import Mathlib

/-! Square systems of numbers. Each step on lists of rows is a sweep, so a run either comes to a
solution or finds a column of numbers, not all zero, where every row vanishes. A solution is found exactly when
the matrix is regular, and it is the only one. -/
namespace ExactAlgebra.Elimination
open LinearSystem

def entry (rows : List (List ℚ)) (r c : ℕ) : ℚ := (rows.getD r []).getD c 0

variable {column m n k : ℕ} {done rest before after : List (List ℚ)} {pivot row : List ℚ}

theorem getD_clear (wide : row = [] ∨ row.length = pivot.length) (c : ℕ) :
    (clear column pivot row).getD c 0 = row.getD c 0 - row.getD column 0 * pivot.getD c 0 := by
  rw [clear]
  split
  next zero => rw [zero, zero_mul, sub_zero]
  next =>
    rcases wide with rfl | same
    · simp
    · simp only [List.getD_eq_getElem?_getD, List.getElem?_zipWith]
      by_cases inside : c < row.length
      · have insidePivot : c < pivot.length := same ▸ inside
        simp [inside, insidePivot]
      · have outside : pivot.length ≤ c := same ▸ not_lt.mp inside
        simp [not_lt.mp inside, outside]

theorem length_clear (same : row.length = pivot.length) : (clear column pivot row).length = row.length := by
  rw [clear]
  split
  · rfl
  · simp [same]

def scaled (column : ℕ) (pivot : List ℚ) : List ℚ := pivot.map (· / pivot.getD column 0)

theorem getD_scaled (column : ℕ) (pivot : List ℚ) (c : ℕ) :
    (scaled column pivot).getD c 0 = pivot.getD c 0 / pivot.getD column 0 := by
  simp only [scaled, List.getD_eq_getElem?_getD, List.getElem?_map]
  cases pivot[c]? with
  | none => simp
  | some a => rfl

theorem getD_cases (rows : List (List ℚ)) (r : ℕ) : rows.getD r [] = [] ∨ rows.getD r [] ∈ rows := by
  rw [List.getD_eq_getElem?_getD]
  cases found : rows[r]? with
  | none => exact .inl rfl
  | some row => exact .inr (List.mem_of_getElem? found)

/-- Two rows of a list change places. -/
theorem getD_swap {rows : List (List ℚ)} {place : ℕ} (here : column < rows.length)
    (inside : place < rows.length) (r : ℕ) :
    ((rows.set place (rows.getD column [])).set column (rows.getD place [])).getD r [] =
      rows.getD (Equiv.swap place column r) [] := by
  simp only [List.getD_eq_getElem?_getD, List.getElem?_set, List.length_set]
  rcases eq_or_ne r column with rfl | notColumn
  · simp [here]
  rcases eq_or_ne r place with rfl | notPlace
  · simp [notColumn.symm, inside]
  · rw [if_neg notColumn.symm, if_neg notPlace.symm, Equiv.swap_apply_of_ne_of_ne notPlace notColumn]

theorem pivotRow?_none {rows : List (List ℚ)} (found : pivotRow? column rows = none) :
    ∀ row ∈ rows, row.getD column 0 = 0 := by
  induction rows with
  | nil => simp
  | cons row rows ih =>
    rw [pivotRow?] at found
    split at found
    · cases found
    next zero =>
      rw [Option.map_eq_none_iff] at found
      exact List.forall_mem_cons.mpr ⟨not_not.mp zero, ih found⟩

theorem pivotRow?_some {rows : List (List ℚ)} (found : pivotRow? column rows = some (before, pivot, after)) :
    rows = before ++ pivot :: after ∧ pivot.getD column 0 ≠ 0 := by
  induction rows generalizing before with
  | nil => cases found
  | cons row rows ih =>
    rw [pivotRow?] at found
    split at found
    next nonzero =>
      cases found
      exact ⟨rfl, nonzero⟩
    next =>
      obtain ⟨⟨others, p, a⟩, deeper, same⟩ := Option.map_eq_some_iff.mp found
      cases same
      obtain ⟨shape, nonzero⟩ := ih deeper
      exact ⟨by rw [shape, List.cons_append], nonzero⟩

/-- The pivot row and the front row change places. -/
theorem getD_bringForward (done before after : List (List ℚ)) (pivot : List ℚ) (r : ℕ) :
    (done ++ (bringForward before pivot after).1 :: (bringForward before pivot after).2).getD r [] =
      (done ++ before ++ pivot :: after).getD
        (Equiv.swap (done.length + before.length) done.length r) [] := by
  rw [← getD_swap (by simp) (by simp)]
  congr 1
  cases before with
  | nil => simp [bringForward]
  | cons first others => simp [bringForward]

theorem mem_bringForward (before after : List (List ℚ)) (pivot row : List ℚ) :
    row ∈ (bringForward before pivot after).2 ↔ row ∈ before ∨ row ∈ after := by
  cases before with
  | nil => simp [bringForward]
  | cons first others =>
    simp only [bringForward, List.mem_append, List.mem_cons]
    tauto

theorem length_bringForward (before after : List (List ℚ)) (pivot : List ℚ) :
    (bringForward before pivot after).2.length = before.length + after.length := by
  cases before with
  | nil => simp [bringForward]
  | cons first others =>
    simp only [bringForward, List.length_append, List.length_cons]
    omega

theorem step?_eq {rest : List (List ℚ)} (found : pivotRow? column rest = some (before, pivot, after)) :
    step? column done rest = some (done.map (clear column (scaled column pivot)) ++ [scaled column pivot],
      (bringForward before pivot after).2.map (clear column (scaled column pivot))) := by
  rw [step?, found]
  cases before <;> rfl

/-- The rows after a step, one by one. -/
theorem getD_cleared (top : List ℚ) (done back : List (List ℚ)) (r : ℕ) :
    (done.map (clear done.length top) ++ [top] ++ back.map (clear done.length top)).getD r [] =
      if r = done.length then top
      else clear done.length top ((done ++ pivot :: back).getD r []) := by
  have shape : done.map (clear done.length top) ++ [top] ++ back.map (clear done.length top) =
      ((done ++ pivot :: back).map (clear done.length top)).set done.length top := by
    simp
  have empty : clear done.length top [] = [] := by simp [clear]
  rw [shape]
  simp only [List.getD_eq_getElem?_getD, List.getElem?_set, List.getElem?_map]
  rcases eq_or_ne r done.length with rfl | other
  · simp
  · rw [if_neg other.symm, if_neg other]
    cases (done ++ pivot :: back)[r]? with
    | none => simp [empty]
    | some row => rfl

/-- Without a step the column is zero in the rows that are left. -/
theorem entry_of_step?_none (missing : step? done.length done rest = none) {r : ℕ}
    (above : done.length ≤ r) : entry (done ++ rest) r done.length = 0 := by
  rw [step?, Option.map_eq_none_iff] at missing
  have zero := pivotRow?_none missing
  rw [entry, List.getD_append_right _ _ _ _ above]
  rcases getD_cases rest (r - done.length) with outside | member
  · rw [outside]
    rfl
  · exact zero _ member

/-- A step is a sweep. -/
theorem step?_spec (wide : ∀ row ∈ done ++ rest, row.length = k) {next later : List (List ℚ)}
    (found : step? done.length done rest = some (next, later)) :
    next.length = done.length + 1 ∧ (next ++ later).length = (done ++ rest).length ∧
      (∀ row ∈ next ++ later, row.length = k) ∧
      ∃ place, done.length ≤ place ∧ place < (done ++ rest).length ∧
        entry (done ++ rest) place done.length ≠ 0 ∧
        entry (next ++ later) = sweep (entry (done ++ rest)) place done.length := by
  cases split : pivotRow? done.length rest with
  | none =>
    rw [step?, split] at found
    cases found
  | some parts =>
    obtain ⟨before, pivot, after⟩ := parts
    rw [step?_eq split] at found
    cases found
    obtain ⟨rfl, nonzero⟩ := pivotRow?_some split
    have order := getD_bringForward done before after pivot
    have content := mem_bringForward before after pivot
    have length := length_bringForward before after pivot
    have front : (bringForward before pivot after).1 = pivot := by cases before <;> rfl
    set back := (bringForward before pivot after).2
    set top := scaled done.length pivot
    rw [front] at order
    have widePivot : pivot.length = k := wide pivot (by simp)
    have wideTop : top.length = k := by simp [top, scaled, widePivot]
    have wideBack : ∀ row ∈ back, row.length = k := by
      intro row member
      rcases (content row).mp member with first | last
      · exact wide row (by simp [first])
      · exact wide row (by simp [last])
    have here : entry (done ++ (before ++ pivot :: after)) (done.length + before.length) =
        fun c => pivot.getD c 0 := by
      funext c
      rw [entry, ← List.append_assoc, List.getD_append_right _ _ _ _ (by simp)]
      simp
    refine ⟨by simp, by simp [length]; omega, ?_, done.length + before.length, Nat.le_add_right _ _,
      by simp, ?_, ?_⟩
    · intro row member
      simp only [List.mem_append, List.mem_map, List.mem_singleton] at member
      rcases member with (⟨old, inside, rfl⟩ | rfl) | ⟨old, inside, rfl⟩
      · have wideOld := wide old (List.mem_append_left _ inside)
        rw [length_clear (wideOld.trans wideTop.symm), wideOld]
      · exact wideTop
      · rw [length_clear ((wideBack old inside).trans wideTop.symm), wideBack old inside]
    · rw [here]
      exact nonzero
    · funext r c
      rw [entry, @getD_cleared pivot, sweep, here]
      split
      next same => exact getD_scaled _ pivot c
      next other =>
        have wideRow : (done ++ pivot :: back).getD r [] = [] ∨
            ((done ++ pivot :: back).getD r []).length = top.length := by
          refine (getD_cases _ r).imp_right fun member => ?_
          rw [wideTop]
          rcases List.mem_append.mp member with old | new
          · exact wide _ (List.mem_append_left _ old)
          · rcases List.mem_cons.mp new with first | behind
            · rw [first, widePivot]
            · exact wideBack _ behind
        rw [getD_clear wideRow, order, getD_scaled, List.append_assoc]
        rfl

/-- A run sweeps the columns, or finds that one is not needed. -/
theorem eliminate?_spec {O : ℕ → ℕ → ℚ} {σ : Equiv.Perm ℕ} (wide : ∀ row ∈ done ++ rest, row.length = k)
    (swept : Swept m k O σ done.length (entry (done ++ rest))) (square : (done ++ rest).length = m)
    (columns : done.length + n = m) (within : m ≤ k) :
    (∀ rows, eliminate? n done rest = some rows →
      rows.length = m ∧ ∃ τ, Swept m k O τ m (entry rows)) ∧
    (eliminate? n done rest = none → Degenerate m m k O) := by
  induction n generalizing done rest σ with
  | zero =>
    have nothing : rest = [] := by
      rw [List.length_append] at square
      exact List.eq_nil_of_length_eq_zero (by omega)
    subst nothing
    rw [List.append_nil] at swept square
    rw [eliminate?]
    constructor
    · rintro rows ⟨⟩
      rw [square] at swept
      exact ⟨square, σ, swept⟩
    · intro failed
      cases failed
  | succ n ih =>
    rw [eliminate?]
    split
    next missing =>
      constructor
      · intro rows found
        cases found
      · refine fun _ => swept.degenerate (by omega) (by omega) within ?_
        intro r above _
        exact entry_of_step?_none missing above
    next next later found =>
      obtain ⟨length, whole, wideNext, place, above, inside, nonzero, same⟩ := step?_spec wide found
      rw [square] at whole inside
      have sweptNext := swept.step above inside nonzero
      rw [← same, ← length] at sweptNext
      exact ih wideNext sweptNext whole (by omega)

/-- The right sides stand behind the rows. -/
theorem pairing_augmented {matrix : List (List ℚ)} {rhs : List ℚ}
    (square : ∀ row ∈ matrix, row.length = n) (sides : rhs.length = matrix.length) {r : ℕ}
    (small : r < matrix.length) (w : ℕ → ℚ) :
    pairing (n + 1) (entry (matrix.zipWith (fun row value => row ++ [value]) rhs) r) w =
      pairing n (entry matrix r) w + rhs.getD r 0 * w n := by
  have smallRhs : r < rhs.length := sides ▸ small
  have wide : matrix[r].length = n := square _ (List.getElem_mem small)
  have augmented : (matrix.zipWith (fun row value => row ++ [value]) rhs).getD r [] =
      matrix[r] ++ [rhs[r]] := by
    simp [List.getD_eq_getElem?_getD, small, smallRhs]
  have row : entry matrix r = fun c => matrix[r].getD c 0 := by
    funext c
    rw [entry, List.getD_eq_getElem _ _ small]
  have side : rhs.getD r 0 = rhs[r] := List.getD_eq_getElem _ _ smallRhs
  unfold pairing
  rw [Finset.sum_range_succ, row, side]
  congr 1
  · refine Finset.sum_congr rfl fun c member => ?_
    have inside : c < matrix[r].length := wide ▸ Finset.mem_range.mp member
    rw [entry, augmented, List.getD_append _ _ _ _ inside]
  · rw [entry, augmented, ← wide, List.getD_append_right _ _ _ _ le_rfl, Nat.sub_self]
    rfl

/-- A run on the rows of a square system, the right sides behind them. -/
theorem eliminate?_augmented {matrix : List (List ℚ)} {rhs : List ℚ}
    (square : ∀ row ∈ matrix, row.length = n) (rows : matrix.length = n) (sides : rhs.length = n) :
    let whole := matrix.zipWith (fun row value => row ++ [value]) rhs
    (∀ swept, eliminate? n [] whole = some swept →
      swept.length = n ∧ ∃ τ, Swept n (n + 1) (entry whole) τ n (entry swept)) ∧
    (eliminate? n [] whole = none → Degenerate n n (n + 1) (entry whole)) := by
  intro whole
  have length : whole.length = n := by simp [whole, rows, sides]
  have wide : ∀ row ∈ whole, row.length = n + 1 := by
    intro row member
    obtain ⟨r, inside, rfl⟩ := List.mem_iff_getElem.mp member
    simp only [whole, List.getElem_zipWith, List.length_append, List.length_singleton]
    rw [square _ (List.getElem_mem _)]
  exact @eliminate?_spec n n (n + 1) [] whole (entry whole) 1 wide
    (.initial n (n + 1) (entry whole)) length (Nat.zero_add n) (Nat.le_succ n)

/-- Solving a square system: what is found solves it, and nothing is found only where some combination
of the columns vanishes. -/
theorem solve?_spec {matrix : List (List ℚ)} {rhs : List ℚ} (square : ∀ row ∈ matrix, row.length = n)
    (rows : matrix.length = n) (sides : rhs.length = n) :
    (∀ x, solve? matrix rhs = some x → x.length = n ∧
      ∀ r < n, pairing n (entry matrix r) (fun c => x.getD c 0) = rhs.getD r 0) ∧
    (solve? matrix rhs = none → ∃ w : ℕ → ℚ, (∃ c < n, w c ≠ 0) ∧
      ∀ r < n, pairing n (entry matrix r) w = 0) := by
  have augmented (r : ℕ) (small : r < n) (w : ℕ → ℚ) :=
    pairing_augmented square (sides.trans rows.symm) (rows.symm ▸ small) w
  set whole := matrix.zipWith (fun row value => row ++ [value]) rhs
  obtain ⟨finishes, fails⟩ := eliminate?_augmented square rows sides
  constructor
  · intro x solved
    obtain ⟨swept, found, rfl⟩ := Option.map_eq_some_iff.mp solved
    rw [rows] at found
    obtain ⟨height, σ, spec⟩ := finishes swept found
    refine ⟨by simpa using height, ?_⟩
    intro r small
    -- The unknowns are told by the last column; minus one stands for that column itself.
    let w (c : ℕ) : ℚ := if c = n then -1 else entry swept c n
    have vanish : ∀ r < n, pairing (n + 1) (entry whole r) w = 0 := by
      refine (spec.vanish le_rfl w).mp ?_
      intro r small
      rw [spec.pairing_eq small, if_pos small]
      simp [w, small.ne]
    have zero := vanish r small
    rw [augmented r small, show w n = -1 from if_pos rfl, mul_neg_one] at zero
    have same : pairing n (entry matrix r) (fun c => (swept.map fun row => row.getD matrix.length 0).getD c 0) =
        pairing n (entry matrix r) w := by
      refine Finset.sum_congr rfl fun c member => ?_
      have inside : c < n := Finset.mem_range.mp member
      have value : (swept.map fun row => row.getD matrix.length 0).getD c 0 = w c := by
        have low : c < swept.length := height.symm ▸ inside
        simp [w, inside.ne, entry, rows, List.getD_eq_getElem?_getD, low]
      exact congrArg (entry matrix r c * ·) value
    rw [same, ← sub_eq_zero, sub_eq_add_neg]
    exact zero
  · intro unsolved
    rw [solve?, Option.map_eq_none_iff, rows] at unsolved
    obtain ⟨w, some, beyond, zero⟩ := fails unsolved
    refine ⟨w, some, ?_⟩
    intro r small
    have vanishes := zero r small
    rw [augmented r small, beyond n le_rfl, mul_zero, add_zero] at vanishes
    exact vanishes

/-- Where a solution is found, no combination of the columns vanishes. -/
theorem eq_zero_of_solve? {matrix : List (List ℚ)} {rhs x : List ℚ}
    (square : ∀ row ∈ matrix, row.length = n) (rows : matrix.length = n) (sides : rhs.length = n)
    (solved : solve? matrix rhs = some x) {w : ℕ → ℚ}
    (vanish : ∀ r < n, pairing n (entry matrix r) w = 0) : ∀ c < n, w c = 0 := by
  intro c small
  obtain ⟨swept, found, -⟩ := Option.map_eq_some_iff.mp solved
  rw [rows] at found
  obtain ⟨-, σ, spec⟩ := (eliminate?_augmented square rows sides).1 swept found
  -- The same numbers with a zero for the column of the right sides.
  let w₀ (c : ℕ) : ℚ := if c = n then 0 else w c
  have same (r : ℕ) : pairing n (entry matrix r) w₀ = pairing n (entry matrix r) w := by
    refine Finset.sum_congr rfl fun c member => congrArg (entry matrix r c * ·) ?_
    exact if_neg (Finset.mem_range.mp member).ne
  have zero := (spec.vanish le_rfl w₀).mpr fun r below => by
    rw [pairing_augmented square (sides.trans rows.symm) (rows.symm ▸ below), same, vanish r below,
      show w₀ n = 0 from if_pos rfl, mul_zero, add_zero]
  have here := zero c small
  rw [spec.pairing_eq small, if_pos small, show w₀ n = 0 from if_pos rfl, mul_zero, add_zero] at here
  rwa [show w₀ c = w c from if_neg small.ne] at here

section Matrices
open Matrix

def rowsOf (A : Matrix (Fin n) (Fin n) ℚ) : List (List ℚ) := List.ofFn fun r => List.ofFn (A r)

@[simp] theorem length_rowsOf (A : Matrix (Fin n) (Fin n) ℚ) : (rowsOf A).length = n := List.length_ofFn

theorem length_of_mem_rowsOf {A : Matrix (Fin n) (Fin n) ℚ} {row : List ℚ} (member : row ∈ rowsOf A) :
    row.length = n := by
  obtain ⟨r, rfl⟩ := List.mem_ofFn.mp member
  exact List.length_ofFn

theorem getD_ofFn (v : Fin n → ℚ) (c : Fin n) : (List.ofFn v).getD c 0 = v c := by
  simp [List.getD_eq_getElem?_getD]

theorem entry_rowsOf (A : Matrix (Fin n) (Fin n) ℚ) (r c : Fin n) : entry (rowsOf A) r c = A r c := by
  have row : (rowsOf A).getD r [] = List.ofFn (A r) := by simp [rowsOf, List.getD_eq_getElem?_getD]
  rw [entry, row, getD_ofFn]

/-- A row times a column of numbers, as a row of the matrix. -/
theorem pairing_rowsOf (A : Matrix (Fin n) (Fin n) ℚ) (r : Fin n) (w : ℕ → ℚ) :
    pairing n (entry (rowsOf A) r) w = (A *ᵥ fun c => w c) r := by
  rw [pairing, ← Fin.sum_univ_eq_sum_range fun c => entry (rowsOf A) r c * w c]
  exact Finset.sum_congr rfl fun c _ => congrArg (· * w c) (entry_rowsOf A r c)

variable {A : Matrix (Fin n) (Fin n) ℚ} {b : Fin n → ℚ}

/-- What is found solves the system. -/
theorem mulVec_of_solve? {found : List ℚ} (solved : solve? (rowsOf A) (List.ofFn b) = some found) :
    ∃ v, found = List.ofFn v ∧ A *ᵥ v = b := by
  obtain ⟨solves, -⟩ := solve?_spec (fun _ => length_of_mem_rowsOf) (length_rowsOf A) List.length_ofFn
  obtain ⟨length, equations⟩ := solves found solved
  refine ⟨fun c => found.getD c 0, ?_, ?_⟩
  · refine List.ext_getElem (by simp [length]) fun c inside _ => ?_
    simp [List.getD_eq_getElem?_getD, inside]
  · funext r
    rw [← pairing_rowsOf A r fun c => found.getD c 0, equations r r.isLt, getD_ofFn]

/-- Where a solution is found, the matrix is regular. -/
theorem det_ne_zero_of_solve? {found : List ℚ}
    (solved : solve? (rowsOf A) (List.ofFn b) = some found) : A.det ≠ 0 := by
  intro singular
  obtain ⟨v, nonzero, vanish⟩ := exists_mulVec_eq_zero_iff.mpr singular
  refine nonzero (funext fun c => ?_)
  let w (c : ℕ) : ℚ := if small : c < n then v ⟨c, small⟩ else 0
  have restrict : (fun c : Fin n => w c) = v := funext fun c => dif_pos c.isLt
  have none := eq_zero_of_solve? (fun _ => length_of_mem_rowsOf) (length_rowsOf A) List.length_ofFn
    solved (w := w) fun r small => by
      rw [pairing_rowsOf A ⟨r, small⟩ w, restrict, vanish, Pi.zero_apply]
  rw [← restrict]
  exact none c c.isLt

/-- Where nothing is found, some combination of the columns vanishes. -/
theorem det_eq_zero_of_solve? (unsolved : solve? (rowsOf A) (List.ofFn b) = none) : A.det = 0 := by
  obtain ⟨-, fails⟩ := solve?_spec (fun _ => length_of_mem_rowsOf) (length_rowsOf A)
    (List.length_ofFn (f := b))
  obtain ⟨w, ⟨c, small, nonzero⟩, vanish⟩ := fails unsolved
  refine exists_mulVec_eq_zero_iff.mp ⟨fun c => w c, fun none => nonzero (congrFun none ⟨c, small⟩), ?_⟩
  funext r
  rw [← pairing_rowsOf A r w, vanish r r.isLt, Pi.zero_apply]

/-- Elimination decides whether a square matrix is singular, and where it is not, finds the only solution
of the system. -/
theorem solve?_decides_singular (A : Matrix (Fin n) (Fin n) ℚ) (b : Fin n → ℚ) :
    (solve? (rowsOf A) (List.ofFn b) = none ↔ A.det = 0) ∧
    ∀ found ∈ solve? (rowsOf A) (List.ofFn b),
      ∃ v, found = List.ofFn v ∧ A *ᵥ v = b ∧ ∀ w, A *ᵥ w = b → w = v := by
  constructor
  · refine ⟨det_eq_zero_of_solve?, fun singular => ?_⟩
    by_contra some
    obtain ⟨found, solved⟩ := Option.ne_none_iff_exists'.mp some
    exact det_ne_zero_of_solve? solved singular
  · intro found solved
    obtain ⟨v, same, solves⟩ := mulVec_of_solve? solved
    refine ⟨v, same, solves, fun w other => ?_⟩
    have difference : A *ᵥ (w - v) = 0 := by rw [mulVec_sub, other, solves, sub_self]
    exact sub_eq_zero.mp (eq_zero_of_mulVec_eq_zero (det_ne_zero_of_solve? solved) difference)

/-- The first pivot is below the first row. -/
example : solve? (rowsOf !![0, 2; 4, 1]) (List.ofFn ![6, 11]) = some [2, 3] := by
  decide +kernel

end Matrices
end ExactAlgebra.Elimination
