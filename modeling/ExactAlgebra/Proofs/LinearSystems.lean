import ExactAlgebra.Proofs.Coefficients
import Mathlib

/-! Linear systems over the rationals are told apart by their numbers of equations and unknowns, by the
rank of their coefficients and by their solutions. Only limits stop a run short of that: of time, of the
size of a power, or of what can be written out. -/
namespace ExactAlgebra

noncomputable def Equation.polynomial (equation : Equation) : MvPolynomial String ℚ :=
  Expr.denote equation.left - Expr.denote equation.right

def Equation.value (equation : Equation) : Value :=
  .equation (.expr equation.left) (.expr equation.right)

namespace LinearSystem
open Engine ExactAlgebra.Expr
open MvPolynomial (C X)

noncomputable def coefficientMatrix (names : List String) (ps : List (MvPolynomial String ℚ)) :
    Matrix (Fin ps.length) (Fin names.length) ℚ :=
  fun r c => (ps.get r).coeff (Finsupp.single (names.get c) 1)

/-- All the polynomials vanish at the values. -/
def Solves (ps : List (MvPolynomial String ℚ)) (ρ : String → ℚ) : Prop :=
  ∀ p ∈ ps, MvPolynomial.eval ρ p = 0

/-- The polynomials vanish together at these values of the unknowns and at no others. -/
def SolvedBy (names : List String) (ps : List (MvPolynomial String ℚ)) (v : String → ℚ) : Prop :=
  ∀ ρ, Solves ps ρ ↔ ∀ x ∈ names, ρ x = v x

structure LinearOver (names : List String) (p : MvPolynomial String ℚ) : Prop where
  degree : p.totalDegree ≤ 1
  covered : ∀ x ∈ p.vars, x ∈ names

namespace LinearOver

variable {names : List String} {p q : MvPolynomial String ℚ}

theorem constant (names : List String) (c : ℚ) : LinearOver names (C c) :=
  ⟨by simp, by simp⟩

theorem name {x : String} (member : x ∈ names) : LinearOver names (X x) :=
  ⟨by simp, by simpa using member⟩

theorem add (linearP : LinearOver names p) (linearQ : LinearOver names q) : LinearOver names (p + q) := by
  refine ⟨(MvPolynomial.totalDegree_add p q).trans (max_le linearP.degree linearQ.degree), fun x occurs => ?_⟩
  rcases Finset.mem_union.mp (MvPolynomial.vars_add_subset p q occurs) with left | right
  · exact linearP.covered x left
  · exact linearQ.covered x right

theorem sub (linearP : LinearOver names p) (linearQ : LinearOver names q) : LinearOver names (p - q) := by
  refine ⟨(MvPolynomial.totalDegree_sub p q).trans (max_le linearP.degree linearQ.degree), fun x occurs => ?_⟩
  rcases Finset.mem_union.mp (MvPolynomial.vars_sub_subset p occurs) with left | right
  · exact linearP.covered x left
  · exact linearQ.covered x right

end LinearOver

noncomputable def systemRow (names : List String) (ps : List (MvPolynomial String ℚ)) (r : ℕ) : ℕ → ℚ :=
  rowEntry names (ps.getD r 0)

/-- The values of the unknowns, and a last number for the constant part. -/
def column (names : List String) (ρ : String → ℚ) (last : ℚ) (c : ℕ) : ℚ :=
  (names.map ρ ++ [last]).getD c 0

variable {names : List String} {ps : List (MvPolynomial String ℚ)} {p : MvPolynomial String ℚ}
  {ρ : String → ℚ} {A : ℕ → ℕ → ℚ} {σ : Equiv.Perm ℕ}

theorem pairing_getD {row w : List ℚ} (length : row.length = w.length) :
    pairing row.length (fun c => row.getD c 0) (fun c => w.getD c 0) = (row.zipWith (· * ·) w).sum := by
  induction row generalizing w with
  | nil => simp [pairing]
  | cons a row ih =>
    cases w with
    | nil => cases length
    | cons b w =>
      have rest := ih (Nat.succ_injective length)
      rw [pairing] at rest ⊢
      rw [List.length_cons, Finset.sum_range_succ', List.zipWith_cons_cons, List.sum_cons, ← rest, add_comm]
      rfl

/-- A row times values of the unknowns. -/
theorem pairing_rowEntry (names : List String) (p : MvPolynomial String ℚ) (ρ : String → ℚ) (last : ℚ) :
    pairing (names.length + 1) (rowEntry names p) (column names ρ last) =
      (names.map fun x => p.coeff (Finsupp.single x 1) * ρ x).sum - p.coeff 0 * last := by
  have entries := @pairing_getD
    (names.map (fun x => p.coeff (Finsupp.single x 1)) ++ [-p.coeff 0]) (names.map ρ ++ [last]) (by simp)
  rw [List.length_append, List.length_map, List.length_singleton,
    List.zipWith_append (by simp), List.sum_append, List.zipWith_map, List.zipWith_self] at entries
  refine entries.trans ?_
  simp [sub_eq_add_neg]

theorem LinearOver.eval_eq (linear : LinearOver names p) (distinct : names.Nodup) (ρ : String → ℚ) :
    MvPolynomial.eval ρ p = pairing (names.length + 1) (rowEntry names p) (column names ρ (-1)) := by
  rw [pairing_rowEntry, eval_of_linear linear.degree distinct linear.covered]
  ring

theorem column_of_lt {c : ℕ} (inside : c < names.length) (ρ : String → ℚ) (last : ℚ) :
    column names ρ last c = ρ names[c] := by
  simp [column, List.getD_eq_getElem?_getD, List.getElem?_append_left, inside]

theorem column_length (names : List String) (ρ : String → ℚ) (last : ℚ) :
    column names ρ last names.length = last := by
  simp [column, List.getD_eq_getElem?_getD]

theorem systemRow_eq {r : ℕ} (small : r < ps.length) : systemRow names ps r = rowEntry names ps[r] := by
  rw [systemRow, List.getD_eq_getElem?_getD, List.getElem?_eq_getElem small, Option.getD_some]

/-- The solutions are where all rows vanish. -/
theorem solves_iff (linear : ∀ p ∈ ps, LinearOver names p) (distinct : names.Nodup) (ρ : String → ℚ) :
    Solves ps ρ ↔
      ∀ r < ps.length, pairing (names.length + 1) (systemRow names ps r) (column names ρ (-1)) = 0 := by
  have each (r : ℕ) (small : r < ps.length) :
      pairing (names.length + 1) (systemRow names ps r) (column names ρ (-1)) =
        MvPolynomial.eval ρ ps[r] := by
    rw [systemRow_eq small, (linear _ (List.getElem_mem small)).eval_eq distinct]
  constructor
  · intro solves r small
    rw [each r small]
    exact solves _ (List.getElem_mem small)
  · intro zeros p member
    obtain ⟨r, small, rfl⟩ := List.getElem_of_mem member
    rw [← each r small]
    exact zeros r small

theorem mulVec_coefficientMatrix {w : ℕ → ℚ} (last : w names.length = 0) (r : Fin ps.length) :
    (coefficientMatrix names ps).mulVec (fun c => w c) r =
      pairing (names.length + 1) (systemRow names ps r) w := by
  have entries (c : Fin names.length) :
      rowEntry names ps[(r : ℕ)] c = ps[(r : ℕ)].coeff (Finsupp.single names[(c : ℕ)] 1) := by
    simp [rowEntry, List.getD_eq_getElem?_getD]
  rw [pairing, Finset.sum_range_succ, last, mul_zero, add_zero, systemRow_eq r.isLt, Finset.sum_range]
  change ∑ c : Fin names.length, coefficientMatrix names ps r c * w c = _
  refine Finset.sum_congr rfl fun c _ => ?_
  rw [entries]
  rfl

theorem rank_lt_iff {m n : ℕ} (M : Matrix (Fin m) (Fin n) ℚ) :
    M.rank < n ↔ ∃ x, x ≠ 0 ∧ M.mulVec x = 0 := by
  have split := LinearMap.finrank_range_add_finrank_ker M.mulVecLin
  rw [Module.finrank_fin_fun] at split
  have kernel : LinearMap.ker M.mulVecLin = ⊥ ↔ ∀ x, M.mulVec x = 0 → x = 0 :=
    LinearMap.ker_eq_bot'
  have trivial : LinearMap.ker M.mulVecLin = ⊥ ↔ Module.finrank ℚ (LinearMap.ker M.mulVecLin) = 0 :=
    Submodule.finrank_eq_zero.symm
  rw [Matrix.rank]
  constructor
  · intro low
    have some : ¬ ∀ x, M.mulVec x = 0 → x = 0 := by
      rw [← kernel, trivial]
      omega
    push Not at some
    obtain ⟨x, zero, nonzero⟩ := some
    exact ⟨x, nonzero, zero⟩
  · rintro ⟨x, nonzero, zero⟩
    have some : ¬ Module.finrank ℚ (LinearMap.ker M.mulVecLin) = 0 := by
      rw [← trivial, kernel]
      exact fun all => nonzero (all x zero)
    omega

/-- Where an unknown can be chosen freely, the rank is too low. -/
theorem Degenerate.rank_lt
    (degenerate : Degenerate ps.length names.length (names.length + 1) (systemRow names ps)) :
    (coefficientMatrix names ps).rank < names.length := by
  obtain ⟨w, ⟨c, inside, nonzero⟩, behind, zeros⟩ := degenerate
  refine (rank_lt_iff _).mpr ⟨fun c => w c, fun none => nonzero (congrFun none ⟨c, inside⟩), ?_⟩
  funext r
  rw [mulVec_coefficientMatrix (behind _ le_rfl)]
  exact zeros r r.isLt

/-- When all columns were swept, the rank is full. -/
theorem rank_eq_of_swept
    (swept : Swept ps.length (names.length + 1) (systemRow names ps) σ names.length A)
    (enough : names.length ≤ ps.length) :
    (coefficientMatrix names ps).rank = names.length := by
  have upper : (coefficientMatrix names ps).rank ≤ names.length := by
    simpa using (coefficientMatrix names ps).rank_le_width
  refine le_antisymm upper (not_lt.mp fun low => ?_)
  obtain ⟨x, nonzero, zero⟩ := (rank_lt_iff _).mp low
  let w (c : ℕ) : ℚ := if inside : c < names.length then x ⟨c, inside⟩ else 0
  have last : w names.length = 0 := by simp [w]
  have whole : (fun c : Fin names.length => w c) = x := by
    funext c
    simp [w]
  have rows : ∀ r < ps.length, pairing (names.length + 1) (systemRow names ps r) w = 0 := by
    intro r small
    rw [← mulVec_coefficientMatrix last ⟨r, small⟩, whole, zero]
    rfl
  refine nonzero (funext fun c => ?_)
  have here := ((swept.vanish enough w).mpr rows) c (c.isLt.trans_le enough)
  rw [swept.pairing_eq (c.isLt.trans_le enough), last, mul_zero, add_zero, if_pos c.isLt] at here
  rw [← whole]
  exact here

def told (names : List String) (A : ℕ → ℕ → ℚ) (x : String) : ℚ := A (names.idxOf x) names.length

theorem told_getElem (distinct : names.Nodup) {c : ℕ} (inside : c < names.length) :
    told names A names[c] = A c names.length := by
  rw [told, distinct.idxOf_getElem]

theorem agrees_iff (distinct : names.Nodup) (ρ : String → ℚ) :
    (∀ x ∈ names, ρ x = told names A x) ↔ ∀ c < names.length, column names ρ (-1) c = A c names.length := by
  constructor
  · intro agrees c inside
    rw [column_of_lt inside, agrees _ (List.getElem_mem inside), told_getElem distinct]
  · intro entries x member
    obtain ⟨c, inside, rfl⟩ := List.getElem_of_mem member
    rw [← column_of_lt inside ρ (-1), entries c inside, told_getElem distinct]

noncomputable def taken (names : List String) (ps : List (MvPolynomial String ℚ)) (σ : Equiv.Perm ℕ) :
    List (MvPolynomial String ℚ) :=
  (List.range names.length).map fun r => ps.getD (σ r) 0

section

variable (swept : Swept ps.length (names.length + 1) (systemRow names ps) σ names.length A)
include swept

/-- A swept row says that an unknown has a value, or that nothing is left. -/
theorem pairing_swept_eq_zero_iff {r : ℕ} (small : r < ps.length) (ρ : String → ℚ) :
    pairing (names.length + 1) (A r) (column names ρ (-1)) = 0 ↔
      (if r < names.length then column names ρ (-1) r else 0) = A r names.length := by
  rw [swept.pairing_eq small, column_length, mul_neg, mul_one, ← sub_eq_add_neg, sub_eq_zero]

theorem mem_of_swept {r : ℕ} (small : r < ps.length) : ps.getD (σ r) 0 ∈ ps := by
  have inside : σ r < ps.length := (swept.inside r).mpr small
  rw [List.getD_eq_getElem?_getD, List.getElem?_eq_getElem inside, Option.getD_some]
  exact List.getElem_mem inside

variable (enough : names.length ≤ ps.length) (linear : ∀ p ∈ ps, LinearOver names p)
  (distinct : names.Nodup)
include enough linear distinct

/-- The equations that were taken have one solution. -/
theorem solvedBy_taken : SolvedBy names (taken names ps σ) (told names A) := by
  intro ρ
  have values : Solves (taken names ps σ) ρ ↔ ∀ r < names.length,
      pairing (names.length + 1) (systemRow names ps (σ r)) (column names ρ (-1)) = 0 := by
    rw [Solves, taken, List.forall_mem_map]
    refine forall_congr' fun r => ?_
    rw [List.mem_range]
    refine imp_congr_right fun inside => ?_
    rw [(linear _ (mem_of_swept swept (inside.trans_le enough))).eval_eq distinct]
    rfl
  rw [values, ← swept.pivots, agrees_iff distinct]
  refine forall₂_congr fun r inside => ?_
  rw [pairing_swept_eq_zero_iff swept (inside.trans_le enough), if_pos inside]

/-- What is left of another equation there. -/
theorem eval_told {r : ℕ} (above : names.length ≤ r) (small : r < ps.length) :
    MvPolynomial.eval (told names A) (ps.getD (σ r) 0) = -A r names.length := by
  have pivots : ∀ c < names.length,
      pairing (names.length + 1) (A c) (column names (told names A) (-1)) = 0 := by
    intro c inside
    rw [pairing_swept_eq_zero_iff swept (inside.trans_le enough), if_pos inside, column_of_lt inside,
      told_getElem distinct]
  rw [(linear _ (mem_of_swept swept small)).eval_eq distinct]
  refine (swept.rest _ pivots r above small).symm.trans ?_
  rw [swept.pairing_eq small, if_neg (not_lt.mpr above), column_length]
  ring

theorem solves_iff_of_swept (ρ : String → ℚ) : Solves ps ρ ↔ ∀ r < ps.length,
    (if r < names.length then column names ρ (-1) r else 0) = A r names.length := by
  rw [solves_iff linear distinct, ← swept.vanish enough]
  exact forall₂_congr fun r small => pairing_swept_eq_zero_iff swept small ρ

/-- Where nothing is left of the other equations, the system has the one solution. -/
theorem solvedBy_of_swept (clear : ∀ r, names.length ≤ r → r < ps.length → A r names.length = 0) :
    SolvedBy names ps (told names A) := by
  intro ρ
  rw [solves_iff_of_swept swept enough linear distinct, agrees_iff distinct]
  constructor
  · intro rows c inside
    have row := rows c (inside.trans_le enough)
    rwa [if_pos inside] at row
  · intro entries r small
    split
    next inside => exact entries r inside
    next above => exact (clear r (not_lt.mp above) small).symm

/-- Where something is left of another equation, the system has no solution. -/
theorem not_solves_of_swept {r : ℕ} (above : names.length ≤ r) (small : r < ps.length)
    (left : A r names.length ≠ 0) (ρ : String → ℚ) : ¬ Solves ps ρ := by
  rw [solves_iff_of_swept swept enough linear distinct]
  intro rows
  have row := rows r small
  rw [if_neg (not_lt.mpr above)] at row
  exact left row.symm

end

/-- Why a system has no values to return: there are fewer equations than unknowns, or else the rank of
the coefficients is too low, or else nothing satisfies all equations. -/
inductive Unsolvable (names : List String) (ps : List (MvPolynomial String ℚ)) : Fault → Prop
  | underdetermined (fewer : ps.length < names.length) :
    Unsolvable names ps (.underdetermined ps.length names.length)
  | noUniqueSolution (enough : names.length ≤ ps.length)
    (deficient : (coefficientMatrix names ps).rank < names.length) : Unsolvable names ps .noUniqueSolution
  | inconsistentSystem (enough : names.length ≤ ps.length)
    (full : (coefficientMatrix names ps).rank = names.length) (unsolvable : ∀ ρ, ¬ Solves ps ρ) :
    Unsolvable names ps .inconsistentSystem

structure Solved (names : List String) (ps : List (MvPolynomial String ℚ))
    (values : List (String × Expr)) : Prop where
  enough : names.length ≤ ps.length
  full : (coefficientMatrix names ps).rank = names.length
  solution : ∃ v, SolvedBy names ps v ∧ values = names.map fun x => (x, number (v x))

/-- What stops a run short: the deadline, a limit where an equation is put to one side or its row is
read, a number of passes that is no number, or a number too long to be written out. Such a number is
the value of an unknown in the one solution of some of the equations, or what is left of an equation
there. -/
inductive StopsShort (context : Context) (names : List String) (equations : List Equation) : Fault → Prop
  | interrupted {fault : Fault} (interrupted : Interrupted context fault) :
    StopsShort context names equations fault
  | difference {equation : Equation} {fault : Fault} (member : equation ∈ equations)
    (refused : equation.difference = .error fault) : StopsShort context names equations fault
  | row {equation : Equation} {e : Expr} {fault : Fault} (member : equation ∈ equations)
    (difference : equation.difference = .ok e) (stopped : RowStopped context names e fault) :
    StopsShort context names equations fault
  | setting {fault : Fault}
    (refused : (context.scope.settings.get .simplifyMaxPasses).integer = .error fault) :
    StopsShort context names equations fault
  | long {chosen : List (MvPolynomial String ℚ)} {v : String → ℚ}
    (among : ∀ p ∈ chosen, p ∈ equations.map Equation.polynomial) (solved : SolvedBy names chosen v)
    (long : (∃ x ∈ names, Rational.isWritable (v x) = false) ∨
      ∃ p ∈ equations.map Equation.polynomial, Rational.isWritable (MvPolynomial.eval v p) = false) :
    StopsShort context names equations .unsupported

variable {context : Context} {equations : List Equation} {es : List Expr}

theorem StopsShort.of_block {guard : Deadline.Guard} {fault : Fault} (opens : Opens context guard)
    (stopped : StopsShort (block context guard) names equations fault) :
    StopsShort context names equations fault := by
  cases stopped with
  | interrupted interrupted => exact .interrupted (interrupted.of_block opens)
  | difference member refused => exact .difference member refused
  | row member difference stopped => exact .row member difference (stopped.of_block opens)
  | setting refused =>
    rw [get_block context guard (by decide)] at refused
    exact .setting refused
  | long among solved long => exact .long among solved long

theorem StopsShort.isLimit {fault : Fault} (stopped : StopsShort context names equations fault) :
    IsLimit fault := by
  cases stopped with
  | interrupted interrupted => exact interrupted.isLimit
  | @difference equation _ member refused =>
    rcases add_outcome equation.left equation.right.neg with ⟨r, returned⟩ | ⟨failed, -⟩
    · cases refused.symm.trans returned
    · cases refused.symm.trans failed
      exact .inr (.inr rfl)
  | row _ _ stopped => exact stopped.isLimit
  | setting refused =>
    unfold Datum.integer at refused
    split at refused <;> cases refused
    exact .inr (.inr rfl)
  | long => exact .inr (.inr rfl)

/-- The expressions are the differences of the sides, in order. -/
def Differences (equations : List Equation) (es : List Expr) : Prop :=
  List.Forall₂ (fun equation e => equation.difference = .ok e ∧ Denotes equation.polynomial e) equations es

theorem Differences.polynomials (differences : Differences equations es) :
    es.map denote = equations.map Equation.polynomial := by
  induction differences with
  | nil => rfl
  | cons first _ ih => rw [List.map_cons, List.map_cons, first.2.value, ih]

theorem numberRows_systemRow (names : List String) (ps : List (MvPolynomial String ℚ)) :
    (ps.map fun p => numberRow (names.length + 1) (rowEntry names p)) =
      numberRows ps.length (names.length + 1) (systemRow names ps) := by
  refine List.ext_getElem (by simp [numberRows]) fun r small _ => ?_
  have inside : r < ps.length := by simpa using small
  simp [numberRows, systemRow_eq inside]

/-- The rows of all equations. -/
theorem meets_rows (differences : Differences equations es)
    (linear : ∀ p ∈ equations.map Equation.polynomial, LinearOver names p) :
    Meets context (StopsShort context names equations) (es.mapM (rowOf names))
      (· = numberRows (equations.map Equation.polynomial).length (names.length + 1)
        (systemRow names (equations.map Equation.polynomial))) := by
  have each : ∀ e ∈ es, Meets context (StopsShort context names equations) (rowOf names (id e))
      (· = numberRow (names.length + 1) (rowEntry names (denote e))) := by
    intro e member
    obtain ⟨equation, inside, difference, denotes⟩ := (exists_of_forall₂ differences).1 e member
    have line := linear _ (List.mem_map_of_mem inside)
    rw [← denotes.value] at line
    exact (meets_rowOf denotes.poly line.degree line.covered).accept fun _ => .row inside difference
  have rows := Meets.mapM_map each
  rw [List.map_id] at rows
  rwa [← numberRows_systemRow, ← differences.polynomials, List.map_map]

section

variable {ps : List (MvPolynomial String ℚ)}
  (swept : Swept ps.length (names.length + 1) (systemRow names ps) σ names.length A)
  (enough : names.length ≤ ps.length) (linear : ∀ p ∈ ps, LinearOver names p) (distinct : names.Nodup)
  (equal : ps = equations.map Equation.polynomial)
include swept enough linear distinct equal

/-- A number in the last column is simplified to itself, unless it cannot be written out. -/
theorem meets_simplify_last {r : ℕ} (small : r < ps.length) :
    Meets context (StopsShort context names equations) (number (A r names.length)).simplify
      (· = number (A r names.length)) := by
  refine (meets_simplify_number _).accept fun fault stopped => ?_
  cases stopped with
  | interrupted interrupted => exact .interrupted interrupted
  | setting refused => exact .setting refused
  | long long =>
    have among : ∀ p ∈ taken names ps σ, p ∈ equations.map Equation.polynomial := by
      intro p member
      obtain ⟨c, inside, rfl⟩ := List.mem_map.mp member
      rw [← equal]
      exact mem_of_swept swept ((List.mem_range.mp inside).trans_le enough)
    refine .long among (solvedBy_taken swept enough linear distinct) ?_
    rcases lt_or_ge r names.length with inside | above
    · refine .inl ⟨names[r], List.getElem_mem inside, ?_⟩
      rwa [told_getElem distinct inside]
    · refine .inr ⟨ps.getD (σ r) 0, equal ▸ mem_of_swept swept small, ?_⟩
      rwa [eval_told swept enough linear distinct above small, isWritable_neg]

/-- Nothing is left of the equations whose rows were not taken, or the system is inconsistent. -/
theorem meets_leftovers :
    Meets context (fun fault => Unsolvable names ps fault ∨ StopsShort context names equations fault)
      (forIn ((numberRows ps.length (names.length + 1) A).drop names.length) ⟨⟩ fun row _ => do
        if !(← (row.entry names.length).simplify).isZero then
          throw .inconsistentSystem
          pure (ForInStep.yield PUnit.unit)
        else pure (ForInStep.yield PUnit.unit) : Engine PUnit)
      fun _ => ∀ r, names.length ≤ r → r < ps.length → A r names.length = 0 := by
  have entry (r : ℕ) : (numberRow (names.length + 1) (A r)).entry names.length =
      number (A r names.length) := entry_numberRow (Nat.lt_succ_self _)
  have loop : Meets context
      (fun fault => Unsolvable names ps fault ∨ StopsShort context names equations fault)
      (forIn ((numberRows ps.length (names.length + 1) A).drop names.length) ⟨⟩ fun row _ => do
        if !(← (row.entry names.length).simplify).isZero then
          throw .inconsistentSystem
          pure (ForInStep.yield PUnit.unit)
        else pure (ForInStep.yield PUnit.unit) : Engine PUnit)
      fun _ => ∀ row ∈ (numberRows ps.length (names.length + 1) A).drop names.length,
        row.entry names.length = zero := by
    refine Meets.forIn_unit fun row member => ?_
    obtain ⟨i, inside, rfl⟩ := List.mem_drop_iff_getElem.mp member
    have small : names.length + i < ps.length := by
      rw [add_comm]
      simpa [numberRows] using inside
    simp only [numberRows, List.getElem_map, List.getElem_range, entry]
    refine Meets.bind _ ((meets_simplify_last swept enough linear distinct equal small).accept
      fun _ => .inr) ?_
    rintro _ rfl
    split
    next left =>
      have nonzero : A (names.length + i) names.length ≠ 0 := by simpa [isZero] using left
      have unsolvable := not_solves_of_swept swept enough linear distinct (Nat.le_add_right _ _) small nonzero
      exact Meets.bind (fun _ => False)
        (Meets.throw (.inl (.inconsistentSystem enough (rank_eq_of_swept swept enough) unsolvable))) fun _ => False.elim
    next nothing =>
      have none : A (names.length + i) names.length = 0 := by simpa [isZero] using nothing
      exact Meets.pure ⟨rfl, by rw [none, zero]⟩
  refine loop.imp fun _ clear r above small => ?_
  have member : numberRow (names.length + 1) (A r) ∈
      (numberRows ps.length (names.length + 1) A).drop names.length := by
    refine List.mem_drop_iff_getElem.mpr ⟨r - names.length, by simp [numberRows]; omega, ?_⟩
    simp [numberRows, Nat.add_sub_cancel' above]
  have cleared := clear _ member
  rw [entry] at cleared
  exact number.inj cleared

/-- The values of the unknowns. -/
theorem meets_values :
    Meets context (fun fault => Unsolvable names ps fault ∨ StopsShort context names equations fault)
      ((names.zip (numberRows ps.length (names.length + 1) A)).mapM fun (name, row) => do
        return (name, ← (row.entry names.length).simplify))
      (· = names.map fun x => (x, number (told names A x))) := by
  have pairs : names.zip (numberRows ps.length (names.length + 1) A) =
      (List.range names.length).map fun c => (names.getD c "", numberRow (names.length + 1) (A c)) := by
    refine List.ext_getElem (by simpa [numberRows] using enough) fun c _ small => ?_
    have inside : c < names.length := by simpa using small
    simp [numberRows, List.getD_eq_getElem?_getD, inside]
  have values : (List.range names.length).map (fun c => (names.getD c "", number (A c names.length))) =
      names.map fun x => (x, number (told names A x)) := by
    refine List.ext_getElem (by simp) fun c _ small => ?_
    have inside : c < names.length := by simpa using small
    simp [List.getD_eq_getElem?_getD, inside, told_getElem distinct inside]
  rw [pairs, ← values]
  refine Meets.mapM_map fun c member => ?_
  have inside := List.mem_range.mp member
  dsimp only
  rw [entry_numberRow (Nat.lt_succ_self _)]
  refine Meets.bind _ ((meets_simplify_last swept enough linear distinct equal
    (inside.trans_le enough)).accept fun _ => .inr) ?_
  rintro _ rfl
  exact Meets.pure rfl

end

/-- With the unknowns known, the run tells the systems apart. -/
theorem meets_solveFor (differences : Differences equations es)
    (linear : ∀ p ∈ equations.map Equation.polynomial, LinearOver names p) (distinct : names.Nodup) :
    Meets context (fun fault => Unsolvable names (equations.map Equation.polynomial) fault ∨
        StopsShort context names equations fault)
      (solveFor names es) (Solved names (equations.map Equation.polynomial)) := by
  unfold solveFor
  refine Meets.bind _ ((meets_rows differences linear).accept fun _ => .inr) ?_
  generalize equal : equations.map Equation.polynomial = ps at linear
  rintro _ rfl
  dsimp only
  have count : (numberRows ps.length (names.length + 1) (systemRow names ps)).length = ps.length := by
    simp [numberRows]
  rw [count]
  split
  next fewer => exact Meets.bind (fun _ => False) (Meets.throw (.inl (.underdetermined fewer))) fun _ => False.elim
  next notFewer =>
    have enough := not_lt.mp notFewer
    refine Meets.bind _ ((meets_sweeps (Nat.le_succ _)).accept fun fault stopped => ?_) ?_
    · rcases stopped with interrupted | ⟨rfl, degenerate⟩
      · exact .inr (.interrupted interrupted)
      · exact .inl (.noUniqueSolution enough degenerate.rank_lt)
    rintro _ ⟨A, σ, rfl, swept, -⟩
    refine Meets.bind _ (meets_leftovers swept enough linear distinct equal.symm) fun _ clear => ?_
    refine (meets_values swept enough linear distinct equal.symm).imp fun values same => ?_
    exact ⟨enough, rank_eq_of_swept swept enough, _,
      solvedBy_of_swept swept enough linear distinct clear, same⟩

/-- The unknowns are the given ones or, without any given, those that occur. -/
def AreUnknowns (given : Option (List String)) (equations : List Equation) (names : List String) : Prop :=
  given = some names ∨
    given = none ∧ ∀ es, equations.mapM Equation.difference = .ok es → unknowns es = .ok names

theorem denotes_difference {equation : Equation} {e : Expr} (left : IsPolynomial equation.left)
    (right : IsPolynomial equation.right) (returned : equation.difference = .ok e) :
    Denotes equation.polynomial e := by
  have negated : IsPolynomial equation.right.neg := ⟨right.formed.neg, right.built.withCoeff _⟩
  have value : denote equation.right.neg = -denote equation.right := by
    rw [neg, denote_withCoeff, denote_eq_coeff_mul equation.right, MvPolynomial.C_neg, neg_mul]
  obtain ⟨poly, total⟩ := denote_add left negated returned
  exact ⟨poly, by rw [total, value, ← sub_eq_add_neg]; rfl⟩

theorem Differences.mapM (differences : Differences equations es) :
    equations.mapM Equation.difference = .ok es := by
  induction differences with
  | nil => rfl
  | cons first _ ih =>
    rw [List.mapM_cons, first.1, ih]
    rfl

/-- Linear systems over the rationals are told apart exactly. A run over equations between polynomials
that are linear in the unknowns returns the values of the one solution, or it fails for want of
equations, for want of rank, or for want of a solution, or a limit stops it short. -/
theorem solveValues_classifies {given : Option (List String)} (some : equations ≠ [])
    (proper : names ≠ []) (distinct : names.Nodup) (unknowns : AreUnknowns given equations names)
    (sides : ∀ equation ∈ equations, IsPolynomial equation.left ∧ IsPolynomial equation.right)
    (linear : ∀ equation ∈ equations, LinearOver names equation.polynomial) (context : Context) :
    Meets context
      (fun fault => Unsolvable names (equations.map Equation.polynomial) fault ∨
        (IsLimit fault ∧ StopsShort context names equations fault))
      (solveValues (equations.map Equation.value) given)
      (Solved names (equations.map Equation.polynomial)) := by
  have limited (fault : Fault) (stopped : StopsShort context names equations fault) :
      Unsolvable names (equations.map Equation.polynomial) fault ∨
        (IsLimit fault ∧ StopsShort context names equations fault) := .inr ⟨stopped.isLimit, stopped⟩
  unfold solveValues
  refine Meets.bind (Differences equations) (Meets.mapM_forall₂ fun equation member => ?_)
    fun es differences => ?_
  · obtain ⟨left, right⟩ := sides equation member
    refine Meets.lift (fun e returned => ?_) fun fault failed => limited _ (.difference member failed)
    exact ⟨returned, denotes_difference left right returned⟩
  refine meets_guarded (fun _ interrupted => limited _ (.interrupted interrupted)) fun guard opens => ?_
  have several : ¬ es.isEmpty = true := by
    rw [List.isEmpty_iff, ← List.length_eq_zero_iff, ← differences.length_eq, List.length_eq_zero_iff]
    exact some
  have named : ¬ names.isEmpty = true := by rwa [List.isEmpty_iff]
  have run := (@meets_solveFor names (block context guard) equations es differences
    (List.forall_mem_map.mpr linear) distinct).accept fun fault stopped =>
      stopped.elim .inl fun stopped => limited fault (stopped.of_block opens)
  dsimp only
  rw [if_neg several]
  rcases unknowns with rfl | ⟨rfl, found⟩
  · refine Meets.bind (· = names) (Meets.pure rfl) ?_
    rintro _ rfl
    rw [if_neg named]
    exact run
  · refine Meets.bind (· = names) (Meets.of_ok (found es differences.mapM)) ?_
    rintro _ rfl
    rw [if_neg named]
    exact run

def sumAndDifference : List Equation :=
  [⟨sum 1 [bare "x", bare "y"] 1, number 3⟩, ⟨sum 1 [bare "x", symbol (-1) "y" 1] 1, number 1⟩]

theorem isPolynomial_sum_of_names {c : ℚ} (sign : c = 1 ∨ c = -1) :
    IsPolynomial (sum 1 [bare "x", symbol c "y" 1] 1) := by
  refine ⟨⟨one_ne_zero, one_ne_zero, ⟨by simp, ?_, ?_, ?_, ?_, ?_, ?_⟩, ?_⟩, .sum ?_ (fun _ _ => trivial)
    Scheme.polynomial.one⟩
  case refine_7 =>
    refine ⟨⟨one_ne_zero, one_ne_zero, .inl (by decide), by decide, by decide⟩,
      ⟨?_, one_ne_zero, .inl (by decide), by decide, by decide⟩, trivial⟩
    rcases sign with rfl | rfl <;> decide
  case refine_8 =>
    rintro t (_ | ⟨_, _ | ⟨_, ⟨⟩⟩⟩) <;> exact .symbol (by decide) Scheme.polynomial.one
  all_goals rcases sign with rfl | rfl <;> decide +kernel

theorem polynomials_sumAndDifference : sumAndDifference.map Equation.polynomial =
    [X "x" + X "y" - C 3, X "x" - X "y" - C 1] := by
  simp [sumAndDifference, Equation.polynomial, denote, denoteSum, bare, sub_eq_add_neg]

/-- The equations `x + y = 3` and `x - y = 1` in a new session. -/
theorem sum_and_difference_solved :
    runIn Session.initial.scope (solveValues (sumAndDifference.map Equation.value) (some ["x", "y"])) =
      .ok [("x", number 2), ("y", number 1)] := by
  have some : sumAndDifference ≠ [] := List.cons_ne_nil _ _
  have sides : ∀ equation ∈ sumAndDifference, IsPolynomial equation.left ∧ IsPolynomial equation.right :=
    List.forall_mem_cons.mpr ⟨⟨isPolynomial_sum_of_names (.inl rfl), trivial, .number 3⟩,
      List.forall_mem_singleton.mpr ⟨isPolynomial_sum_of_names (.inr rfl), trivial, .number 1⟩⟩
  have polynomials := polynomials_sumAndDifference
  obtain ⟨found, returned⟩ := Option.isSome_iff_exists.mp (show (runIn Session.initial.scope
    (solveValues (sumAndDifference.map Equation.value) (.some ["x", "y"]))).toOption.isSome = true by decide +kernel)
  replace returned := Outcome.ok_of_toOption returned
  rw [returned]
  -- With the session and the equations left open, the elaborator does not start to run the computations.
  generalize Session.initial.scope = scope at returned
  generalize sumAndDifference = equations at some sides polynomials returned
  have x : LinearOver ["x", "y"] (X "x") := .name (by simp)
  have y : LinearOver ["x", "y"] (X "y") := .name (by simp)
  have linear : ∀ equation ∈ equations, LinearOver ["x", "y"] equation.polynomial := by
    rw [← List.forall_mem_map (P := LinearOver ["x", "y"]), polynomials]
    exact List.forall_mem_cons.mpr ⟨(x.add y).sub (.constant _ 3),
      List.forall_mem_singleton.mpr ((x.sub y).sub (.constant _ 1))⟩
  have run := solveValues_classifies some (by simp) (by decide) (.inl rfl) sides linear
    ⟨scope, callWithin maxCallDepth⟩
  rw [polynomials] at run
  obtain ⟨-, -, v, solved, rfl⟩ := run.of_runIn returned
  have values : Solves [X "x" + X "y" - C 3, X "x" - X "y" - C 1] fun name =>
      if name = "x" then 2 else 1 := by
    simp [Solves]
    norm_num
  have agrees := (solved _).mp values
  have first : (2 : ℚ) = v "x" := by simpa using agrees "x" (by simp)
  have second : (1 : ℚ) = v "y" := by simpa using agrees "y" (by simp)
  simp [← first, ← second]

/-- The number `2^7001`. Its square is over the limit for powers. -/
def shift : ℕ := 2 ^ 7001

/-- The expression `(x + s)^2 - x^2 - 2*s*x + x - s^2` for this number `s`. -/
def shiftedSquare : Expr :=
  sum (-1) [sum (-1) [bare "x", number shift] 2, symbol 1 "x" 2, symbol (2 * shift - 1) "x" 1,
    number (shift * shift)] 1

theorem isPolynomial_shiftedSquare : IsPolynomial shiftedSquare := by
  have square : IsPolynomial (sum (-1) [bare "x", number shift] 2) := by
    refine ⟨⟨by decide, two_ne_zero, ⟨by decide, ?_, ?_, ?_, ?_, ?_, ?_⟩, ?_⟩, .sum ?_ (fun _ _ => trivial)
      ⟨rfl, two_pos⟩⟩
    case refine_7 =>
      exact ⟨⟨one_ne_zero, one_ne_zero, .inl (by decide), by decide, by decide⟩, trivial, trivial⟩
    case refine_8 =>
      exact List.forall_mem_cons.mpr ⟨.symbol (by decide) Scheme.polynomial.one,
        List.forall_mem_singleton.mpr (.number _)⟩
    all_goals decide +kernel
  refine ⟨⟨by decide, one_ne_zero, ⟨by decide, ?_, ?_, ?_, ?_, ?_, ?_⟩, ?_⟩, .sum ?_ (fun _ _ => trivial)
    Scheme.polynomial.one⟩
  case refine_7 =>
    refine ⟨square.formed, ⟨one_ne_zero, two_ne_zero, .inl (by decide), by decide, by decide⟩,
      ⟨?_, one_ne_zero, .inl (by decide), by decide, by decide⟩, trivial, trivial⟩
    decide +kernel
  case refine_8 =>
    exact List.forall_mem_cons.mpr ⟨square.built, List.forall_mem_cons.mpr ⟨.symbol (by decide) ⟨rfl, two_pos⟩,
      List.forall_mem_cons.mpr ⟨.symbol (by decide) Scheme.polynomial.one,
        List.forall_mem_singleton.mpr (.number _)⟩⟩⟩
  all_goals decide +kernel

theorem denote_shiftedSquare : denote shiftedSquare = X "x" := by
  unfold shiftedSquare
  generalize shift = s
  have two : ((2 : Rat).num.toNat) = 2 := rfl
  have double : (C 2 : MvPolynomial String ℚ) = 2 := map_ofNat C 2
  simp only [denote, denoteSum, bare, two, Rat.num_one, Int.toNat_one, pow_one, MvPolynomial.C_1,
    MvPolynomial.C_neg, MvPolynomial.C_mul, MvPolynomial.C_sub, double]
  ring

/-- Where zero is put for the unknown, the square of the number is refused. -/
theorem substitute_shiftedSquare (context : Context) :
    Returns context (shiftedSquare.substitute "x" zero) fun _ => False := by
  have refused : powRat (number shift) 2 = .error (.powerTooLarge maxIntegerBits) := by
    have large : tooLarge shift 2 := by decide +kernel
    have nonzero : (shift : ℚ) ≠ 0 := Nat.cast_ne_zero.mpr (pow_ne_zero 7001 two_ne_zero)
    rw [powRat_number nonzero two_ne_zero (by norm_num), powNumber_whole rfl nonzero, if_pos large]
  unfold shiftedSquare
  generalize (shift : ℚ) = s at refused ⊢
  unfold substitute
  set leaf : String → Option Value := fun name => if name == "x" then some (.expr zero) else none
  have name : Returns context (rebuild leaf (bare "x")) (· = zero) := by
    rw [bare, rebuild]
    refine Meets.bind (· = zero) (Meets.of_ok rfl) ?_
    rintro _ rfl
    refine Meets.bind (· = zero) (Meets.of_ok rfl) ?_
    rintro _ rfl
    exact Meets.pure (by rw [zero, scale_number, mul_one])
  have total : Returns context (rebuildSum leaf zero [bare "x", number s]) (· = number s) := by
    rw [rebuildSum_eq, List.foldlM_cons]
    refine Meets.bind (· = zero) ?_ ?_
    · refine Meets.bind _ name ?_
      rintro _ rfl
      exact Meets.of_ok rfl
    rintro _ rfl
    rw [List.foldlM_cons, rebuild]
    refine Meets.bind (· = number s) ?_ ?_
    · refine Meets.bind (· = number s) (Meets.pure rfl) ?_
      rintro _ rfl
      exact Meets.of_ok rfl
    rintro _ rfl
    exact Meets.pure rfl
  have square : Returns context (rebuild leaf (sum (-1) [bare "x", number s] 2)) fun _ => False := by
    rw [rebuild]
    refine Meets.bind _ total ?_
    rintro _ rfl
    refine Meets.bind (fun _ => False) ?_ fun _ => False.elim
    refine Returns.lift fun r returned => ?_
    cases returned.symm.trans refused
  rw [rebuild, rebuildSum]
  refine Meets.bind (fun _ => False) ?_ fun _ => False.elim
  exact Meets.bind _ square fun _ => False.elim

/-- An equation that comes to `x = 0` but is not solved, in whatever context. -/
theorem shifted_square_not_solved :
    IsPolynomial shiftedSquare ∧ (Equation.mk shiftedSquare zero).polynomial = X "x" ∧
      ∀ (context : Context) (looks later : ℕ) (values : List (String × Expr)),
        (solveValues [(Equation.mk shiftedSquare zero).value] (some ["x"]) context).run.run looks ≠
          (.ok values, later) := by
  refine ⟨isPolynomial_shiftedSquare, ?_, fun context looks later values run => ?_⟩
  · rw [Equation.polynomial, denote_shiftedSquare]
    simp [zero, denote]
  have difference : (Equation.mk shiftedSquare zero).difference = .ok shiftedSquare := rfl
  have never : Returns context (solveValues [(Equation.mk shiftedSquare zero).value] (some ["x"]))
      fun _ => False := by
    have substitutes := substitute_shiftedSquare
    generalize shiftedSquare = e at difference substitutes
    unfold solveValues
    refine Meets.bind (· = [e]) ?_ ?_
    · rw [List.mapM_cons]
      refine Meets.bind _ (Meets.of_ok difference) ?_
      rintro _ rfl
      exact Meets.pure rfl
    rintro _ rfl
    refine Returns.guarded fun guard _ => ?_
    refine Meets.bind (· = ["x"]) (Meets.pure rfl) ?_
    rintro _ rfl
    -- The only row is not read to its end.
    refine Meets.bind (fun _ => False) ?_ fun _ => False.elim
    rw [List.mapM_cons]
    refine Meets.bind (fun _ => False) ?_ fun _ => False.elim
    refine Meets.bind _ (Meets.anyway _) fun _ _ => ?_
    exact Meets.bind _ (substitutes _) fun _ => False.elim
  exact never.returned run

end LinearSystem
end ExactAlgebra
