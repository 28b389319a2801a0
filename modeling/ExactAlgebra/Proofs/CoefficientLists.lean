import ExactAlgebra.Proofs.Coefficients
import Mathlib

/-! Coefficients in one of several unknowns. Every polynomial has some: they are free of the unknown, the
last of them is not zero, and there is one for each power up to the degree. -/
namespace ExactAlgebra.Expr
open Engine
open MvPolynomial (C X degreeOf)

variable {x : String} {limit : ℕ} {e t : Expr} {q s : MvPolynomial String ℚ}

/-- A name occurs in a monomial when it has an exponent. -/
theorem IsMonomial.contains_iff (monomial : IsMonomial t) : t.contains x = true ↔ t.exponents x ≠ 0 := by
  have names : t.contains x = true ↔ x ∈ t.factors.map fun f => f.name?.getD "" := by
    obtain ⟨c, rfl⟩ | ⟨c, name, p, rfl⟩ | ⟨c, factors, rfl⟩ := monomial.cases
    · simp [contains, Expr.factors]
    · have single : (symbol c name p).factors = [symbol 1 name p] := rfl
      rw [single, List.map_singleton, List.mem_singleton, contains, beq_iff_eq, name?, Option.getD_some]
      exact eq_comm
    · rw [contains, anyContains_iff, List.mem_map]
      have sorted : (product c factors).factors.Perm factors := sortFactors_perm factors
      constructor
      · rintro ⟨f, member, inside⟩
        have factor := sorted.mem_iff.mpr member
        obtain ⟨name, p, rfl, -, -⟩ := monomial.factors factor
        exact ⟨_, factor, by simpa [contains, name?] using inside⟩
      · rintro ⟨f, factor, rfl⟩
        obtain ⟨name, p, rfl, -, -⟩ := monomial.factors factor
        exact ⟨_, sorted.mem_iff.mp factor, by simp [contains, name?]⟩
  rw [names]
  constructor
  · intro member
    obtain ⟨f, factor, rfl⟩ := List.mem_map.mp member
    rw [exponents, exponents_of_mem monomial.distinct_names factor]
    obtain ⟨name, p, rfl, -, -, positive⟩ := monomial.factors factor
    have := Rat.num_pos.mpr positive
    simp only [power]
    omega
  · intro occurs
    by_contra absent
    exact occurs (exponents_of_notMem absent)

/-- A name that the polynomial is free of does not occur in its expanded form. -/
theorem Expanded.contains_eq_false (expanded : Expanded e) (free : degreeOf x (denote e) = 0) :
    e.contains x = false := by
  rw [← Bool.not_eq_true]
  intro present
  have proper : e.isZero = false := by
    cases e with
    | number => cases present
    | _ => rfl
  obtain ⟨t, member, inside⟩ := contains_iff_summands.mp present
  have occurs := (expanded.isMonomial t member).contains_iff.mp inside
  have support : t.exponents ∈ (denote e).support := by
    rw [MvPolynomial.mem_support_iff, expanded.coeff_denote member]
    exact expanded.nonzero proper t member
  exact occurs (Nat.le_zero.mp (free ▸ MvPolynomial.monomial_le_degreeOf x support))

theorem IsMonomial.degreeOf_eq_zero (monomial : IsMonomial t) (absent : t.contains x = false) :
    degreeOf x (denote t) = 0 := by
  have none : t.exponents x = 0 := by
    by_contra occurs
    rw [monomial.contains_iff.mpr occurs] at absent
    cases absent
  rw [monomial.denote_eq]
  rcases eq_or_ne t.coeff 0 with zero | nonzero
  · rw [zero, MvPolynomial.monomial_zero, MvPolynomial.degreeOf_zero]
  · rw [MvPolynomial.degreeOf_monomial_eq _ _ nonzero, none]

/-- An expanded polynomial within a degree, free of the unknown. -/
structure IsCoefficient (x : String) (limit : ℕ) (c : Expr) : Prop where
  within : RepresentsWithin limit (denote c) c
  free : degreeOf x (denote c) = 0

theorem IsCoefficient.zero (x : String) (limit : ℕ) : IsCoefficient x limit zero :=
  ⟨⟨⟨expanded_number 0, rfl⟩, by simp [Expr.zero, denote]⟩, by simp [Expr.zero, denote]⟩

/-- Coefficients are added, unless an exponent is too long to be written out. -/
theorem IsCoefficient.add {a b : Expr} (coefficientA : IsCoefficient x limit a)
    (coefficientB : IsCoefficient x limit b) :
    (∃ r, add a b = .ok r ∧ IsCoefficient x limit r) ∨
      (add a b = .error .unsupported ∧ Rational.digitBound ≤ limit) := by
  refine (coefficientA.within.toRepresents.add coefficientB.within.toRepresents
    coefficientA.within.degree coefficientB.within.degree).imp_left ?_
  rintro ⟨r, returned, expanded, value⟩
  refine ⟨r, returned, ⟨⟨expanded, rfl⟩, ?_⟩, ?_⟩
  · rw [value]
    exact (MvPolynomial.totalDegree_add _ _).trans
      (max_le coefficientA.within.degree coefficientB.within.degree)
  · rw [value, ← Nat.le_zero]
    exact (MvPolynomial.degreeOf_add_le x _ _).trans
      (max_le coefficientA.free.le coefficientB.free.le)

theorem IsMonomial.of_mul {a b r : Expr} (monomialA : IsMonomial a) (monomialB : IsMonomial b)
    (returned : Expr.mul a b = .ok r) : IsMonomial r := by
  refine ⟨mul_wellFormed monomialA.formed monomialB.formed returned, ?_⟩
  rcases mul_built monomialA.formed monomialB.formed monomialA.built monomialB.built with
    ⟨failed, -⟩ | ⟨s, multiplied, multiplies⟩
  · cases failed.symm.trans returned
  · cases multiplied.symm.trans returned
    exact multiplies.built

/-- The product of monomials free of the unknown is one. -/
theorem mulAll_free {first : Expr} {factors : List Expr} (monomial : IsMonomial first)
    (free : degreeOf x (denote first) = 0)
    (each : ∀ f ∈ factors, IsMonomial f ∧ degreeOf x (denote f) = 0) :
    ∃ r, mulAll first factors = .ok r ∧ IsMonomial r ∧ degreeOf x (denote r) = 0 := by
  induction factors generalizing first with
  | nil => exact ⟨first, rfl, monomial, free⟩
  | cons f rest ih =>
    obtain ⟨⟨monomialF, freeF⟩, others⟩ := List.forall_mem_cons.mp each
    obtain ⟨next, multiplied, represents⟩ := monomial.mul monomialF
    have freeNext : degreeOf x (denote next) = 0 := by
      rw [represents.value, ← Nat.le_zero]
      exact (MvPolynomial.degreeOf_mul_le x _ _).trans (by rw [free, freeF])
    obtain ⟨r, returned, kept⟩ := ih (monomial.of_mul monomialF multiplied) freeNext others
    refine ⟨r, ?_, kept⟩
    rw [mulAll, List.foldlM_cons, multiplied]
    exact returned

/-- The coefficient of a term has no higher degree than the term. -/
theorem totalDegree_le_of_eq_mul_pow {c u : MvPolynomial String ℚ} {n : ℕ} (value : u = c * X x ^ n) :
    c.totalDegree ≤ u.totalDegree := by
  rcases eq_or_ne c 0 with rfl | nonzero
  · simp
  · rw [value, MvPolynomial.totalDegree_mul_of_isDomain nonzero (pow_ne_zero n (MvPolynomial.X_ne_zero x))]
    exact Nat.le_add_right _ _

/-- Every monomial is read as a coefficient and a power of the unknown. -/
theorem IsMonomial.termDegree? (monomial : IsMonomial t) (bound : (denote t).totalDegree ≤ limit) :
    ∃ c n, termDegree? x t = .ok (some (c, n)) ∧ IsCoefficient x limit c := by
  -- A monomial is left to be read; what holds of the degrees follows from its value.
  suffices ∃ c n, Expr.termDegree? x t = .ok (some (c, n)) ∧ IsMonomial c ∧ degreeOf x (denote c) = 0 by
    obtain ⟨c, n, read, monomialC, free⟩ := this
    obtain ⟨-, value⟩ := denote_of_termDegree? monomial read
    exact ⟨c, n, read, ⟨⟨monomialC.expanded, rfl⟩, (totalDegree_le_of_eq_mul_pow value).trans bound⟩, free⟩
  cases present : t.contains x with
  | false => exact ⟨t, 0, termDegree?_of_absent present, monomial, monomial.degreeOf_eq_zero present⟩
  | true =>
    obtain ⟨c, rfl⟩ | ⟨c, name, p, rfl⟩ | ⟨c, factors, rfl⟩ := monomial.cases
    · cases present
    · have factor : symbol 1 name p ∈ (symbol c name p).factors := List.mem_singleton_self _
      obtain ⟨_, _, same, -, whole, positive⟩ := monomial.factors factor
      cases same
      have here : name = x := by simpa [contains] using present
      refine ⟨number c, p.num.toNat, ?_, ⟨trivial, .number c⟩, MvPolynomial.degreeOf_C c x⟩
      simp [Expr.termDegree?, contains, naturalPower?, here, Rational.isInteger, whole, positive]
    · have sorted : (product c factors).factors.Perm factors := sortFactors_perm factors
      have each : ∀ f ∈ factors, ∃ name p, f = symbol 1 name p ∧ f.baseKey = name ∧
          Scheme.polynomial.powers p := fun f member => monomial.factors (sorted.mem_iff.mpr member)
      have built : ∀ f ∈ factors, IsMonomial f := by
        intro f member
        cases monomial.built with
        | product built => exact ⟨allWellFormed_iff.mp monomial.formed.2.2 f member, built f member⟩
      obtain ⟨f, member, inside⟩ := anyContains_iff.mp present
      have found : (factors.find? (·.baseKey == x)).isSome = true := by
        obtain ⟨name, p, rfl, key, -⟩ := each f member
        have here : name = x := by simpa [contains] using inside
        exact List.find?_isSome.mpr ⟨_, member, by rw [key, here, beq_self_eq_true]⟩
      obtain ⟨g, found⟩ := Option.isSome_iff_exists.mp found
      obtain ⟨name, p, rfl, key, whole, positive⟩ := each g (List.mem_of_find?_eq_some found)
      have here : name = x := by simpa [key] using List.find?_some found
      have power : naturalPower? x (symbol 1 name p) = some p.num.toNat := by
        simp [naturalPower?, here, Rational.isInteger, whole, positive]
      obtain ⟨rest, multiplied, monomialRest, free⟩ := @mulAll_free x (number c)
        (factors.filter fun f => f.baseKey != x) ⟨trivial, .number c⟩ (MvPolynomial.degreeOf_C c x)
        fun f member => by
          obtain ⟨member, other⟩ := List.mem_filter.mp member
          refine ⟨built f member, (built f member).degreeOf_eq_zero ?_⟩
          obtain ⟨name, p, rfl, key, -⟩ := each f member
          simpa [key, contains] using other
      refine ⟨rest, p.num.toNat, ?_, monomialRest, free⟩
      rw [Expr.termDegree?, present]
      simp only [Bool.not_true, Bool.false_eq_true, if_false, found, Option.bind_some, power]
      rw [multiplied]
      change (Except.ok _ : Except Fault _) = _
      rw [monomialRest.expanded.contains_eq_false free]
      rfl

theorem addAt_outcome {c : Expr} {cs : List Expr} (coefficient : IsCoefficient x limit c)
    (each : ∀ d ∈ cs, IsCoefficient x limit d) (n : ℕ) :
    (∃ ds, addAt n c cs = .ok ds ∧ ds ≠ [] ∧ ∀ d ∈ ds, IsCoefficient x limit d) ∨
      (addAt n c cs = .error .unsupported ∧ Rational.digitBound ≤ limit) := by
  induction n generalizing cs with
  | zero =>
    cases cs with
    | nil => exact .inl ⟨[c], rfl, by simp, List.forall_mem_singleton.mpr coefficient⟩
    | cons d cs =>
      obtain ⟨first, later⟩ := List.forall_mem_cons.mp each
      rcases first.add coefficient with ⟨r, added, kept⟩ | ⟨failed, long⟩
      · exact .inl ⟨r :: cs, by rw [addAt, added]; rfl, by simp, List.forall_mem_cons.mpr ⟨kept, later⟩⟩
      · exact .inr ⟨by rw [addAt, failed]; rfl, long⟩
  | succ n ih =>
    cases cs with
    | nil =>
      rcases ih (List.forall_mem_nil (IsCoefficient x limit)) with ⟨ds, added, -, kept⟩ | ⟨failed, long⟩
      · exact .inl ⟨zero :: ds, by rw [addAt, added]; rfl, by simp,
          List.forall_mem_cons.mpr ⟨.zero x limit, kept⟩⟩
      · exact .inr ⟨by rw [addAt, failed]; rfl, long⟩
    | cons d cs =>
      obtain ⟨first, later⟩ := List.forall_mem_cons.mp each
      rcases ih later with ⟨ds, added, -, kept⟩ | ⟨failed, long⟩
      · exact .inl ⟨d :: ds, by rw [addAt, added]; rfl, by simp, List.forall_mem_cons.mpr ⟨first, kept⟩⟩
      · exact .inr ⟨by rw [addAt, failed]; rfl, long⟩

/-- The terms of a polynomial are collected, unless an exponent is too long to be written out. -/
theorem collect_outcome {terms cs : List Expr}
    (monomials : ∀ t ∈ terms, IsMonomial t ∧ (denote t).totalDegree ≤ limit)
    (each : ∀ d ∈ cs, IsCoefficient x limit d) (some : terms ≠ [] ∨ cs ≠ []) :
    (∃ ds, collect x cs terms = .ok (Option.some ds) ∧ ds ≠ [] ∧ ∀ d ∈ ds, IsCoefficient x limit d) ∨
      (collect x cs terms = .error .unsupported ∧ Rational.digitBound ≤ limit) := by
  induction terms generalizing cs with
  | nil => exact .inl ⟨cs, rfl, some.resolve_left (not_not_intro rfl), each⟩
  | cons t terms ih =>
    obtain ⟨⟨monomial, bound⟩, others⟩ := List.forall_mem_cons.mp monomials
    obtain ⟨c, n, read, coefficient⟩ := monomial.termDegree? (x := x) bound
    rcases addAt_outcome coefficient each n with ⟨ds, added, more, kept⟩ | ⟨failed, long⟩
    · rw [collect, read]
      change (∃ fs, (addAt n c cs >>= fun ds => collect x ds terms) = _ ∧ _) ∨
        ((addAt n c cs >>= fun ds => collect x ds terms) = _ ∧ _)
      rw [added]
      exact ih others kept (.inr more)
    · refine .inr ⟨?_, long⟩
      rw [collect, read]
      change (addAt n c cs >>= fun ds => collect x ds terms) = _
      rw [failed]
      rfl

/-- Zeros at the end are dropped, but one coefficient is left. -/
theorem dropZeroTail_spec {cs : List Expr} (some : cs ≠ []) :
    dropZeroTail cs ≠ [] ∧ (∀ d ∈ dropZeroTail cs, d ∈ cs) ∧
      (2 ≤ (dropZeroTail cs).length → ∀ d ∈ (dropZeroTail cs).getLast?, d.isZero = false) := by
  induction cs with
  | nil => exact absurd rfl some
  | cons c cs ih =>
    rcases eq_or_ne cs [] with rfl | others
    · simp [dropZeroTail]
    obtain ⟨kept, members, leading⟩ := ih others
    rw [dropZeroTail]
    rcases shape : dropZeroTail cs with _ | ⟨d, _ | ⟨f, fs⟩⟩
    · exact absurd shape kept
    · rw [shape] at members
      cases zero : d.isZero with
      | true => simp [zero]
      | false => simpa [zero] using Or.inr (members d List.mem_cons_self)
    · rw [shape] at members leading
      refine ⟨by simp, ?_, fun _ => ?_⟩
      · intro g member
        rcases List.mem_cons.mp member with rfl | later
        · exact List.mem_cons_self
        · exact List.mem_cons_of_mem _ (members g later)
      · rw [List.getLast?_cons_cons]
        exact leading (by simp)

/-- The coefficients of a polynomial in one unknown, the lowest first. -/
structure AreCoefficients (x : String) (q : MvPolynomial String ℚ) (cs : List Expr) : Prop where
  some : cs ≠ []
  polynomials : ∀ c ∈ cs, IsPolynomial c
  free : ∀ c ∈ cs, c.contains x = false
  leading : 2 ≤ cs.length → ∀ c ∈ cs.getLast?, c.isZero = false ∧ denote c ≠ 0
  total : denoteCoefficients x cs = q

/-- There is one coefficient more than the degree tells. -/
theorem degreeOf_denoteCoefficients {cs : List Expr} (some : cs ≠ [])
    (free : ∀ c ∈ cs, degreeOf x (denote c) = 0)
    (leading : 2 ≤ cs.length → ∀ c ∈ cs.getLast?, denote c ≠ 0) :
    degreeOf x (denoteCoefficients x cs) = cs.length - 1 := by
  induction cs with
  | nil => exact absurd rfl some
  | cons c cs ih =>
    obtain ⟨first, others⟩ := List.forall_mem_cons.mp free
    cases cs with
    | nil => simpa [denoteCoefficients] using first
    | cons d ds =>
      have last : ∀ f ∈ (d :: ds).getLast?, denote f ≠ 0 := by
        rw [← List.getLast?_cons_cons (a := c)]
        exact leading (by simp)
      have degree := ih (by simp) others fun _ => last
      have nonzero : denoteCoefficients x (d :: ds) ≠ 0 := by
        intro zero
        rw [zero, MvPolynomial.degreeOf_zero] at degree
        have single : ds = [] := List.eq_nil_of_length_eq_zero (by simpa using degree.symm)
        subst single
        rw [denoteCoefficients, denoteCoefficients, mul_zero, add_zero] at zero
        exact last d (by simp) zero
      have higher : degreeOf x (X x * denoteCoefficients x (d :: ds)) = ds.length + 1 := by
        rw [mul_comm, (MvPolynomial.degreeOf_mul_X_eq_degreeOf_add_one_iff x _).mpr nonzero, degree]
        simp
      rw [denoteCoefficients, add_comm, MvPolynomial.degreeOf_add_eq_of_degreeOf_lt, higher]
      · simp
      · rw [higher, first]
        exact Nat.succ_pos _

variable {context : Context}

theorem meets_coeffs? (poly : IsPolynomial e) (x : String) :
    Meets context (Stopped context e.formalDegree) (e.coeffs? x) fun cs? =>
      ∃ cs, cs? = some cs ∧ AreCoefficients x (denote e) cs ∧ degreeOf x (denote e) = cs.length - 1 := by
  unfold coeffs?
  refine Meets.bind _ (meets_expand poly) fun expanded represents => ?_
  have perm := spreadTerms_perm expanded
  have monomials : ∀ t ∈ expanded.spreadTerms, IsMonomial t ∧ (denote t).totalDegree ≤ e.formalDegree := by
    intro t member
    have summand := perm.mem_iff.mp member
    have monomial := represents.expanded.isMonomial t summand
    refine ⟨monomial, le_trans ?_ ((represents.degree_le summand).trans (totalDegree_denote_le e))⟩
    rw [monomial.denote_eq]
    exact MvPolynomial.totalDegree_monomial_le _ _
  have some : expanded.spreadTerms ≠ [] := fun none =>
    represents.expanded.formed.summands_ne_nil (none ▸ perm).nil_eq.symm
  rcases collect_outcome monomials (List.forall_mem_nil (IsCoefficient x _)) (.inl some) with
    ⟨ds, collected, more, kept⟩ | ⟨failed, long⟩
  · refine Meets.bind (· = Option.some ds) (Meets.of_ok collected) fun _ same => ?_
    subst same
    refine Meets.pure ⟨dropZeroTail ds, rfl, ?_⟩
    obtain ⟨left, members, leading⟩ := dropZeroTail_spec more
    have coefficients (d : Expr) (member : d ∈ dropZeroTail ds) := kept d (members d member)
    have nonzero : 2 ≤ (dropZeroTail ds).length →
        ∀ c ∈ (dropZeroTail ds).getLast?, c.isZero = false ∧ denote c ≠ 0 := by
      intro several c last
      have proper := leading several c last
      refine ⟨proper, fun zero => ?_⟩
      have expandedC := (coefficients c (List.mem_of_mem_getLast? last)).within.expanded
      rw [expandedC.isZero_iff.mpr zero] at proper
      cases proper
    have total : denoteCoefficients x (dropZeroTail ds) = denote e := by
      rw [denoteCoefficients_dropZeroTail, denoteCoefficients_collect (fun t member =>
        (monomials t member).1) (by simp) collected, (perm.map denote).sum_eq, denote_summands,
        represents.value, denoteCoefficients, zero_add]
    refine ⟨⟨left, fun c member => (coefficients c member).within.expanded.isPolynomial,
      fun c member => (coefficients c member).within.expanded.contains_eq_false (coefficients c member).free,
      nonzero, total⟩, ?_⟩
    rw [← total]
    exact degreeOf_denoteCoefficients left (fun c member => (coefficients c member).free)
      fun several c last => (nonzero several c last).2
  · refine Meets.bind (fun _ => False) (Meets.lift (fun _ returned => ?_) fun fault returned => ?_)
      fun _ => False.elim
    · cases failed.symm.trans returned
    · cases failed.symm.trans returned
      exact .inr (.inr ⟨rfl, long⟩)

/-- Coefficients are read off the expanded form. -/
theorem expanded_of_coeffs? {looks later : ℕ} {cs? : Option (List Expr)}
    (run : (e.coeffs? x context).run.run looks = (.ok cs?, later)) :
    ∃ r between, (expand e context).run.run looks = (.ok r, between) := by
  rw [coeffs?, run_bind] at run
  split at run
  next r between expanded => exact ⟨r, between, expanded⟩
  next => cases run

/-- Every polynomial is taken apart into its coefficients in a given unknown, and their number tells the
degree. Nothing stops that but what stops the expansion. -/
theorem coeffs?_areCoefficients (poly : IsPolynomial e) (x : String) (context : Context) :
    Meets context (Stopped context e.formalDegree) (e.coeffs? x)
      (fun cs? => ∃ cs, cs? = some cs ∧ AreCoefficients x (denote e) cs) ∧
    Meets context (Stopped context e.formalDegree) (e.degree? x) (· = some (degreeOf x (denote e))) := by
  constructor
  · refine (meets_coeffs? poly x).imp ?_
    rintro cs? ⟨cs, same, coefficients, -⟩
    exact ⟨cs, same, coefficients⟩
  · unfold degree?
    refine Meets.bind _ (meets_coeffs? poly x) ?_
    rintro _ ⟨cs, rfl, -, degree⟩
    exact Meets.pure (congrArg some degree.symm)

/-- Coefficients and degree of `(x+1)^2`. -/
theorem degree?_square_of_succ :
    let e := sum 1 [bare "x", number 1] 2
    IsPolynomial e ∧
      (∃ cs, runIn Session.initial.scope (e.coeffs? "x") = .ok (some cs) ∧ cs.mapM render = .ok ["1", "2", "1"] ∧
        AreCoefficients "x" (denote e) cs) ∧
      runIn Session.initial.scope (e.degree? "x") = .ok (some 2) ∧ degreeOf "x" (denote e) = 2 := by
  intro e
  have written : (runIn Session.initial.scope (e.coeffs? "x") >>= fun cs? => cs?.mapM (List.mapM render)).toOption =
      some (some ["1", "2", "1"]) := by decide +kernel
  have degree : (runIn Session.initial.scope (e.degree? "x")).toOption = some (some 2) := by decide +kernel
  obtain ⟨cs?, returned, texts⟩ := Outcome.bind_ok (Outcome.ok_of_toOption written)
  replace degree := Outcome.ok_of_toOption degree
  -- With the session left open, the elaborator does not start to run the computations.
  generalize Session.initial.scope = scope at returned degree ⊢
  obtain ⟨listed, counted⟩ := coeffs?_areCoefficients isPolynomial_square "x" ⟨scope, callWithin maxCallDepth⟩
  obtain ⟨cs, rfl, coefficients⟩ := listed.of_runIn returned
  obtain ⟨_, read, same⟩ := Outcome.bind_ok texts
  cases same
  have found := counted.of_runIn degree
  exact ⟨isPolynomial_square, ⟨cs, returned, read, coefficients⟩, degree, (Option.some.inj found).symm⟩

/-- No coefficient of the square of a long power, plus one, in an unknown that does not occur can be
written out. -/
theorem square_of_long_power_without_coefficients :
    IsPolynomial (sum 1 [symbol 1 "x" (Rational.digitBound - 1 : ℕ), number 1] 2) ∧
      ∀ (context : Context) (looks later : ℕ) (cs? : Option (List Expr)),
        ((sum 1 [symbol 1 "x" (Rational.digitBound - 1 : ℕ), number 1] 2).coeffs? "y" context).run.run looks
          ≠ (.ok cs?, later) := by
  have two := two_le_digitBound
  have short : Rational.isWritable (Rational.digitBound - 1 : ℕ) = true := by
    rw [isWritable_natCast, decide_eq_true_eq]
    omega
  have long : Rational.isWritable (2 * (Rational.digitBound - 1) : ℕ) = false := by
    rw [isWritable_natCast, decide_eq_false_iff_not]
    omega
  have positive : Rational.digitBound - 1 ≠ 0 := by omega
  have poly := isPolynomial_square_of_succ positive short
  refine ⟨poly, fun context looks later cs? run => ?_⟩
  obtain ⟨r, between, expanded⟩ := expanded_of_coeffs? run
  exact not_expanded_square_of_succ positive rfl long poly expanded

end ExactAlgebra.Expr
