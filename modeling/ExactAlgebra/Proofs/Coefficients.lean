import ExactAlgebra.Proofs.Elimination
import Mathlib

/-! Rows of linear equations. In a polynomial of degree one the coefficients of the unknowns are numbers;
what is left when zero is put for all unknowns is the constant part. -/
namespace ExactAlgebra.Expr
open Engine
open MvPolynomial (C X)

variable {context : Context} {x : String} {a b e t : Expr} {q s : MvPolynomial String ℚ}

theorem degree_exponents (t : Expr) :
    (t.exponents.sum fun _ n => n) = (t.factors.map fun f => f.power.num.toNat).sum := by
  change Finsupp.degree t.exponents = _
  rw [exponents, map_list_sum, List.map_map]
  refine congrArg List.sum (List.map_congr_left fun f _ => ?_)
  exact Finsupp.degree_single _ _

/-- The terms of an expanded polynomial of degree one are numbers and multiples of names. -/
theorem Represents.linear_summand (represents : Represents q e) (linear : q.totalDegree ≤ 1)
    (member : t ∈ e.summands) : (∃ c, t = number c) ∨ ∃ c name, t = symbol c name 1 := by
  have monomial := represents.expanded.isMonomial t member
  have degree := (represents.degree_le member).trans linear
  rw [degree_exponents] at degree
  have powers : ∀ f ∈ t.factors, 1 ≤ f.power.num.toNat := by
    intro f factor
    obtain ⟨name, p, rfl, -, -, positive⟩ := monomial.factors factor
    have := Rat.num_pos.mpr positive
    change 1 ≤ p.num.toNat
    omega
  obtain ⟨c, rfl⟩ | ⟨c, name, p, rfl⟩ | ⟨c, factors, rfl⟩ := monomial.cases
  · exact .inl ⟨c, rfl⟩
  · have factor : symbol 1 name p ∈ (symbol c name p).factors := List.mem_singleton_self _
    obtain ⟨name', p', same, -, whole, positive⟩ := monomial.factors factor
    cases same
    have low : p.num.toNat ≤ 1 := by simpa [Expr.factors, Expr.unit, withCoeff, power] using degree
    have one : p.num = 1 := by
      have := Rat.num_pos.mpr positive
      omega
    refine .inr ⟨c, name, ?_⟩
    rw [← Rat.coe_int_num_of_den_eq_one whole, one, Int.cast_one]
  · have several := monomial.formed.2.1.several
    have count : (product c factors).factors.length = factors.length :=
      (sortFactors_perm factors).length_eq
    have many := List.card_nsmul_le_sum ((product c factors).factors.map fun f => f.power.num.toNat) 1
      (by simpa using powers)
    rw [List.length_map, smul_eq_mul, mul_one] at many
    omega

/-- An expanded polynomial of degree one in which the unknown has no coefficient. -/
def LacksLinearly (x : String) (e : Expr) : Prop :=
  ∃ q, Represents q e ∧ q.totalDegree ≤ 1 ∧ q.coeff (Finsupp.single x 1) = 0

/-- Coefficients collected from terms of degree one. -/
inductive LinearIn (x : String) : List Expr → Prop
  | none : LinearIn x []
  | constant {c : Expr} (lacks : LacksLinearly x c) : LinearIn x [c]
  | linear {c : Expr} (lacks : LacksLinearly x c) (k : ℚ) : LinearIn x [c, number k]

theorem LacksLinearly.number (x : String) (c : ℚ) : LacksLinearly x (number c) := by
  refine ⟨C c, represents_number c, by simp, ?_⟩
  rw [MvPolynomial.coeff_C, if_neg (Finsupp.single_ne_zero.mpr one_ne_zero).symm]

theorem LacksLinearly.add (lacksA : LacksLinearly x a) (lacksB : LacksLinearly x b) :
    ∃ r, add a b = .ok r ∧ LacksLinearly x r := by
  obtain ⟨q, representsA, degreeA, noneA⟩ := lacksA
  obtain ⟨s, representsB, degreeB, noneB⟩ := lacksB
  rcases representsA.add representsB degreeA degreeB with ⟨r, returned, represents⟩ | ⟨-, long⟩
  · refine ⟨r, returned, q + s, represents, ?_, by rw [MvPolynomial.coeff_add, noneA, noneB, add_zero]⟩
    exact (MvPolynomial.totalDegree_add q s).trans (max_le degreeA degreeB)
  · have two := two_le_digitBound
    omega

/-- A term without the unknown, or a multiple of the unknown. -/
theorem termDegree?_of_linear (monomial : IsMonomial t)
    (linear : (∃ c, t = number c) ∨ ∃ c name, t = symbol c name 1) :
    (termDegree? x t = .ok (some (t, 0)) ∧ LacksLinearly x t) ∨
      ∃ k, termDegree? x t = .ok (some (number k, 1)) := by
  obtain ⟨c, rfl⟩ | ⟨c, name, rfl⟩ := linear
  · exact .inl ⟨rfl, .number x c⟩
  by_cases here : name = x
  · subst here
    refine .inr ⟨c, ?_⟩
    simp [termDegree?, contains, naturalPower?, Rational.isInteger]
  · refine .inl ⟨termDegree?_of_absent (by simpa [contains] using here), C c * X name,
      ⟨monomial.expanded, by simp [denote]⟩, ?_, ?_⟩
    · refine (totalDegree_C_mul c _).trans ?_
      rw [MvPolynomial.totalDegree_X]
    · have other : Finsupp.single name 1 ≠ Finsupp.single x 1 := fun same =>
        here (Finsupp.single_left_injective one_ne_zero same)
      rw [MvPolynomial.coeff_C_mul, MvPolynomial.coeff_X, if_neg other, mul_zero]

theorem collect_of_linear {terms cs : List Expr} (monomials : ∀ t ∈ terms, IsMonomial t)
    (linear : ∀ t ∈ terms, (∃ c, t = number c) ∨ ∃ c name, t = symbol c name 1)
    (collected : LinearIn x cs) : ∃ ds, collect x cs terms = .ok (some ds) ∧ LinearIn x ds := by
  induction terms generalizing cs with
  | nil => exact ⟨cs, rfl, collected⟩
  | cons t terms ih =>
    have next {c : Expr} {n : ℕ} {ds : List Expr} (read : termDegree? x t = .ok (some (c, n)))
        (added : addAt n c cs = .ok ds) (holds : LinearIn x ds) :
        ∃ fs, collect x cs (t :: terms) = .ok (some fs) ∧ LinearIn x fs := by
      obtain ⟨fs, returned, kept⟩ := ih (fun u later => monomials u (List.mem_cons_of_mem _ later))
        (fun u later => linear u (List.mem_cons_of_mem _ later)) holds
      refine ⟨fs, ?_, kept⟩
      rw [collect, read]
      change (addAt n c cs >>= fun ds => collect x ds terms) = _
      rw [added]
      exact returned
    rcases termDegree?_of_linear (monomials t List.mem_cons_self) (linear t List.mem_cons_self) with
      ⟨read, lacks⟩ | ⟨k, read⟩
    · cases collected with
      | none => exact next read rfl (.constant lacks)
      | constant others =>
        obtain ⟨r, added, total⟩ := others.add lacks
        exact next read (by rw [addAt, added]; rfl) (.constant total)
      | linear others m =>
        obtain ⟨r, added, total⟩ := others.add lacks
        exact next read (by rw [addAt, added]; rfl) (.linear total m)
    · cases collected with
      | none => exact next read rfl (.linear (.number x 0) k)
      | constant others => exact next read rfl (.linear others k)
      | linear others m =>
        have added : addAt 0 (Expr.number k) [Expr.number m] = .ok [Expr.number (m + k)] := by
          rw [addAt, add_numbers]
          rfl
        exact next read (by rw [addAt, added]; rfl) (.linear others (m + k))

/-- The second of the coefficients is that of the unknown. -/
theorem LinearIn.slope {cs : List Expr} (linear : LinearIn x cs) :
    (dropZeroTail cs).length ≤ 2 ∧
      (dropZeroTail cs).getD 1 zero =
        number ((denoteCoefficients x cs).coeff (Finsupp.single x 1)) := by
  cases linear with
  | none => exact ⟨Nat.zero_le 2, by simp [denoteCoefficients, dropZeroTail, zero]⟩
  | constant lacks =>
    obtain ⟨q, represents, -, none⟩ := lacks
    refine ⟨one_le_two, ?_⟩
    simp [denoteCoefficients, dropZeroTail, zero, represents.value, none]
  | @linear c lacks k =>
    obtain ⟨q, represents, -, none⟩ := lacks
    have value : (denoteCoefficients x [c, number k]).coeff (Finsupp.single x 1) = k := by
      rw [denoteCoefficients, denoteCoefficients, denoteCoefficients, represents.value, mul_zero, add_zero,
        MvPolynomial.coeff_add, none, zero_add, MvPolynomial.coeff_X_mul', if_pos (by simp), tsub_self,
        denote, MvPolynomial.coeff_zero_C]
    rw [value]
    simp only [dropZeroTail]
    split
    next zeroed =>
      have nothing : k = 0 := by simpa [isZero] using zeroed
      exact ⟨one_le_two, by simp [nothing, zero]⟩
    next => exact ⟨le_rfl, rfl⟩

/-- The coefficient of an unknown in a polynomial of degree one. -/
theorem meets_coefficient (poly : IsPolynomial e) (linear : (denote e).totalDegree ≤ 1)
    (names : List String) (x : String) :
    Meets context (Stopped context e.formalDegree) (LinearSystem.coefficient names e x)
      (· = number ((denote e).coeff (Finsupp.single x 1))) := by
  have coefficients : Meets context (Stopped context e.formalDegree) (e.coeffs? x) fun cs? =>
      ∃ cs, cs? = some cs ∧ cs.length ≤ 2 ∧
        cs.getD 1 zero = number ((denote e).coeff (Finsupp.single x 1)) := by
    unfold coeffs?
    refine Meets.bind _ (meets_expand poly) fun expanded represents => ?_
    have perm := spreadTerms_perm expanded
    have monomials : ∀ t ∈ expanded.spreadTerms, IsMonomial t := fun t member =>
      represents.expanded.isMonomial t (perm.mem_iff.mp member)
    obtain ⟨ds, collected, holds⟩ := collect_of_linear (x := x) monomials
      (fun t member => represents.linear_summand linear (perm.mem_iff.mp member)) .none
    have value : denoteCoefficients x ds = denote e := by
      rw [denoteCoefficients_collect monomials (by simp) collected, (perm.map denote).sum_eq,
        denote_summands, represents.value, denoteCoefficients, zero_add]
    refine Meets.bind _ (Meets.of_ok collected) ?_
    rintro _ rfl
    exact Meets.pure ⟨_, rfl, holds.slope.1, value ▸ holds.slope.2⟩
  unfold LinearSystem.coefficient
  refine Meets.bind _ coefficients ?_
  rintro _ ⟨cs, rfl, short, slope⟩
  dsimp only
  rw [if_neg (not_lt.mpr short), slope]
  have closed : (names.any fun name => (number ((denote e).coeff (Finsupp.single x 1))).contains name) =
      false := List.any_eq_false.mpr fun name _ => by simp [contains]
  rw [closed]
  exact Meets.pure rfl

noncomputable def zeroed (names : List String) (q : MvPolynomial String ℚ) : MvPolynomial String ℚ :=
  names.foldl (fun q name => putFor name 0 q) q

theorem eval_putFor (ρ : String → ℚ) (x : String) (r : ℚ) (q : MvPolynomial String ℚ) :
    MvPolynomial.eval ρ (putFor x r q) = MvPolynomial.eval (Function.update ρ x r) q := by
  have same : (MvPolynomial.eval ρ).comp (putFor x r).toRingHom =
      MvPolynomial.eval (Function.update ρ x r) := by
    refine MvPolynomial.ringHom_ext (fun c => ?_) fun name => ?_
    · simp [putFor]
    · by_cases here : name = x
      · simp [putFor, here]
      · simp [putFor, here, Function.update_of_ne]
  exact congrArg (fun f => f q) same

theorem eval_zeroed (ρ : String → ℚ) (names : List String) (q : MvPolynomial String ℚ) :
    MvPolynomial.eval ρ (zeroed names q) =
      MvPolynomial.eval (fun name => if name ∈ names then 0 else ρ name) q := by
  induction names generalizing q with
  | nil => simp [zeroed]
  | cons name names ih =>
    rw [zeroed, List.foldl_cons]
    refine (ih _).trans ((eval_putFor _ name 0 q).trans ?_)
    refine congrArg (fun ρ => MvPolynomial.eval ρ q) (funext fun other => ?_)
    by_cases here : other = name
    · simp [here]
    · simp [here, Function.update_of_ne]

/-- With zero for all variables the constant part is left. -/
theorem zeroed_eq {names : List String} (covered : ∀ x ∈ q.vars, x ∈ names) :
    zeroed names q = C (q.coeff 0) := by
  refine MvPolynomial.funext fun ρ => ?_
  rw [eval_zeroed, MvPolynomial.eval_C, ← MvPolynomial.constantCoeff_eq, ← MvPolynomial.eval_zero]
  refine MvPolynomial.eval₂Hom_congr' rfl (fun x occurs _ => ?_) rfl
  rw [if_pos (covered x occurs)]
  rfl

/-- The exponents of a polynomial of degree one. -/
theorem exponents_of_linear (linear : q.totalDegree ≤ 1) {d : String →₀ ℕ} (present : d ∈ q.support) :
    d = 0 ∨ ∃ x ∈ q.vars, d = Finsupp.single x 1 := by
  have degree : Finsupp.degree d ≤ 1 := (MvPolynomial.le_totalDegree present).trans linear
  rcases Nat.le_one_iff_eq_zero_or_eq_one.mp degree with zero | one
  · exact .inl ((Finsupp.degree_eq_zero_iff d).mp zero)
  · obtain ⟨x, rfl⟩ := (Finsupp.sum_eq_one_iff d).mp one
    refine .inr ⟨x, (MvPolynomial.mem_vars_iff_mem_support x).mpr ⟨_, present, ?_⟩, rfl⟩
    simp

/-- A polynomial of degree one is its constant part and the multiples of its variables. -/
theorem eval_of_linear (linear : q.totalDegree ≤ 1) {names : List String} (distinct : names.Nodup)
    (covered : ∀ x ∈ q.vars, x ∈ names) (ρ : String → ℚ) :
    MvPolynomial.eval ρ q =
      (names.map fun x => q.coeff (Finsupp.single x 1) * ρ x).sum + q.coeff 0 := by
  have injective : Set.InjOn (fun x : String => Finsupp.single x 1) names.toFinset :=
    (Finsupp.single_left_injective one_ne_zero).injOn
  have apart : (0 : String →₀ ℕ) ∉ names.toFinset.image fun x => Finsupp.single x 1 := by
    simp [eq_comm]
  have within : q.support ⊆ insert 0 (names.toFinset.image fun x => Finsupp.single x 1) := by
    intro d present
    rcases exponents_of_linear linear present with rfl | ⟨x, occurs, rfl⟩
    · exact Finset.mem_insert_self _ _
    · refine Finset.mem_insert_of_mem (Finset.mem_image_of_mem _ ?_)
      exact List.mem_toFinset.mpr (covered x occurs)
  rw [MvPolynomial.eval_eq, Finset.sum_subset within fun d _ absent => by
    rw [MvPolynomial.notMem_support_iff.mp absent, zero_mul], Finset.sum_insert apart,
    Finset.sum_image injective, List.sum_toFinset _ distinct, add_comm]
  congr 1
  · refine congrArg List.sum (List.map_congr_left fun x _ => ?_)
    simp
  · simp

end ExactAlgebra.Expr

namespace ExactAlgebra.LinearSystem
open Engine ExactAlgebra.Expr
open MvPolynomial (C)

/-- What an expression comes to when zero is put for names, one after the other. -/
inductive IsStage (e : Expr) : List String → Expr → Prop
  | start : IsStage e [] e
  | put {before : List String} {name : String} {rest next : Expr} {context : Context}
    (stage : IsStage e before rest) (run : Yields context (rest.substitute name zero) next) :
    IsStage e (before ++ [name]) next

/-- What stops the reading of a row: the deadline, exponents too long to be written out, or something too
long where zero is put for an unknown. -/
inductive RowStopped (context : Context) (names : List String) (e : Expr) : Fault → Prop
  | interrupted {fault : Fault} (interrupted : Interrupted context fault) :
    RowStopped context names e fault
  | long {rest : Expr} (stage : rest = e ∨ IsStage e names rest)
    (long : Rational.digitBound ≤ rest.formalDegree) : RowStopped context names e .unsupported
  | refused {before later : List String} {name : String} {rest : Expr} {fault : Fault}
    (order : names = before ++ name :: later) (stage : IsStage e before rest) (long : TooLong fault)
    (refused : Fails (rest.substitute name zero) fault) : RowStopped context names e fault

/-- The row of a polynomial of degree one: the coefficients of the unknowns, then the constant part on
the other side. -/
noncomputable def rowEntry (names : List String) (q : MvPolynomial String ℚ) (c : ℕ) : ℚ :=
  (names.map (fun x => q.coeff (Finsupp.single x 1)) ++ [-q.coeff 0]).getD c 0

variable {context : Context} {names : List String} {e rest : Expr}

theorem RowStopped.of_stopped {fault : Fault} (stage : rest = e ∨ IsStage e names rest)
    (stopped : Stopped context rest.formalDegree fault) : RowStopped context names e fault := by
  rcases interrupted_of_stopped stopped with interrupted | ⟨rfl, long⟩
  · exact .interrupted interrupted
  · exact .long stage long

theorem RowStopped.of_block {guard : Deadline.Guard} {fault : Fault} (opens : Opens context guard)
    (stopped : RowStopped (block context guard) names e fault) : RowStopped context names e fault := by
  cases stopped with
  | interrupted interrupted => exact .interrupted (interrupted.of_block opens)
  | long stage long => exact .long stage long
  | refused order stage long refused => exact .refused order stage long refused

theorem RowStopped.isLimit {fault : Fault} (stopped : RowStopped context names e fault) :
    IsLimit fault := by
  cases stopped with
  | interrupted interrupted => exact interrupted.isLimit
  | long => exact .inr (.inr rfl)
  | refused _ _ long => exact isLimit_of_tooLong long

/-- Reading goes on from any stage to the end of the row. -/
theorem meets_rowFrom (poly : IsPolynomial e) (linear : (denote e).totalDegree ≤ 1)
    (covered : ∀ x ∈ (denote e).vars, x ∈ names) {before later : List String}
    (order : names = before ++ later) (stage : IsStage e before rest)
    (denotes : Denotes (zeroed before (denote e)) rest) :
    Meets context (RowStopped context names e) (rowFrom names e later rest)
      (· = later.map (fun x => number ((denote e).coeff (Finsupp.single x 1))) ++
        [number (-(denote e).coeff 0)]) := by
  induction later generalizing before rest with
  | nil =>
    rw [List.append_nil] at order
    subst order
    rw [zeroed_eq covered] at denotes
    refine Meets.bind _ ((meets_expand denotes.poly).accept fun _ => .of_stopped (.inr stage)) ?_
    intro expanded represents
    rw [denotes.value] at represents
    rw [represents.eq_number]
    exact Meets.pure rfl
  | cons name later ih =>
    refine Meets.bind _ ((meets_coefficient poly linear names name).accept fun _ =>
      .of_stopped (.inl rfl)) ?_
    rintro _ rfl
    have put : Meets context (RowStopped context names e) (rest.substitute name zero) fun next =>
        Denotes (zeroed (before ++ [name]) (denote e)) next ∧
          Yields context (rest.substitute name zero) next := by
      have value : putFor name 0 (denote rest) = zeroed (before ++ [name]) (denote e) := by
        rw [denotes.value, zeroed, zeroed, List.foldl_append]
        rfl
      refine (meets_substitute denotes.poly 0).with_run.accept
        (fun fault failed => .refused order stage failed.1 failed.2) |>.imp ?_
      exact fun next ⟨reached, run⟩ => ⟨value ▸ reached, run⟩
    refine Meets.bind _ put fun next ⟨reached, run⟩ => ?_
    refine Meets.bind _ (ih (by rw [order, List.append_assoc]; rfl) (.put stage run) reached) ?_
    rintro _ rfl
    exact Meets.pure rfl

/-- The row of an equation whose polynomial has degree one. -/
theorem meets_rowOf (poly : IsPolynomial e) (linear : (denote e).totalDegree ≤ 1)
    (covered : ∀ x ∈ (denote e).vars, x ∈ names) :
    Meets context (RowStopped context names e) (rowOf names e)
      (· = numberRow (names.length + 1) (rowEntry names (denote e))) := by
  have whole : numberRow (names.length + 1) (rowEntry names (denote e)) =
      names.map (fun x => number ((denote e).coeff (Finsupp.single x 1))) ++
        [number (-(denote e).coeff 0)] := by
    have listed := numberRow_getD
      (names.map (fun x => (denote e).coeff (Finsupp.single x 1)) ++ [-(denote e).coeff 0])
    rw [List.length_append, List.length_map, List.length_singleton, List.map_append, List.map_map] at listed
    exact listed
  rw [whole]
  exact meets_rowFrom poly linear covered (List.nil_append names).symm .start ⟨poly, rfl⟩

end ExactAlgebra.LinearSystem
