import ExactAlgebra.Proofs.CanonicalForm
import ExactAlgebra.Proofs.CoefficientParts
import ExactAlgebra.Proofs.ShortestForm
import Mathlib

/-! Simplifying polynomials twice. Cancelling a polynomial expands it, so a pass of simplification chooses
between two texts, that of the expression and that of the expanded form. What is kept is no longer than either,
and a second simplification starts from an expression that is written alike; so it finds nothing shorter. -/
namespace ExactAlgebra.Expr
open Engine
open MvPolynomial (C X)

variable {context : Context} {a b e n r t : Expr} {q s : MvPolynomial String ℚ}

/-- An expression in normal form of the polynomial in which no term is zero. -/
structure Rebuilt (q : MvPolynomial String ℚ) (e : Expr) : Prop extends Denotes q e where
  reduced : BuiltBy .reduced e

theorem rebuilt_mirrors (context : Context) : Mirrors context TooLong Rebuilt where
  number c := ⟨(denotes_mirrors context).number c, .number c⟩
  scale rebuilt c := ⟨(denotes_mirrors context).scale rebuilt.toDenotes c, rebuilt.reduced.scale c⟩
  add {q s a b} rebuiltA rebuiltB := by
    have reduced : Returns context (liftM (add a b)) (BuiltBy .reduced) := Returns.lift fun r returned =>
      (BuiltBy.keptByAddition Scheme.reduced_admitsSums).add rebuiltA.poly.formed rebuiltB.poly.formed
        rebuiltA.reduced rebuiltB.reduced returned
    exact ((meets_sum rebuiltA.toDenotes rebuiltB.toDenotes).and reduced).imp fun r both => ⟨both.1, both.2⟩
  mul {q s a b} rebuiltA rebuiltB := by
    have reduced : Returns context (liftM (mul a b)) (BuiltBy .reduced) := Returns.lift fun r returned => by
      rcases mul_built rebuiltA.poly.formed rebuiltB.poly.formed rebuiltA.reduced rebuiltB.reduced with
        ⟨refused, -⟩ | ⟨s, same, multiplies⟩
      · cases refused.symm.trans returned
      · cases same.symm.trans returned
        exact multiplies.built
    exact ((meets_product rebuiltA.toDenotes rebuiltB.toDenotes).and reduced).imp fun r both => ⟨both.1, both.2⟩
  powRat {q a p} rebuilt power := by
    have reduced : Returns context (liftM (a.powRat p)) (BuiltBy .reduced) := Returns.lift fun r returned => by
      rcases powRat_built rebuilt.poly.formed rebuilt.reduced power.1 (reduced_closed power.1) with
        ⟨-, refused⟩ | ⟨-, low⟩ | ⟨s, same, raises⟩
      · cases refused.symm.trans returned
      · exact absurd power.2 low.not_gt
      · cases same.symm.trans returned
        exact raises.built
    exact ((meets_power rebuilt.toDenotes power).and reduced).imp fun r both => ⟨both.1, both.2⟩

/-- A polynomial is rebuilt to an expression of the polynomial. -/
theorem IsPolynomial.meets_canonicalize (poly : IsPolynomial e) :
    Meets context TooLong e.canonicalize (Rebuilt (denote e)) := by
  have kept : NamesHave (fun name => ∃ a, leafOf (fun _ => none) name = .ok a ∧ Rebuilt (X name) a) e := by
    intro name inside
    obtain ⟨spelled, named⟩ := poly.spelled name inside
    exact ⟨bare name, by simp [leafOf, (isVariableName_eq named).1], denotes_bare spelled named, .symbol named rfl⟩
  have rebuilt := (rebuilt_mirrors context).rebuild poly.built kept
  rwa [MvPolynomial.aeval_X_left_apply] at rebuilt

theorem formalDegree_factors {scheme : Scheme} (built : BuiltBy scheme e) :
    e.formalDegree = (e.factors.map formalDegree).sum := by
  cases built with
  | number => rfl
  | symbol | sum => simp [Expr.factors, formalDegree, unit, withCoeff]
  | @product c factors =>
    rw [Expr.factors, ((sortFactors_perm factors).map formalDegree).sum_eq, formalDegree, summedDegree_eq]

/-- The degree that is read off a monomial is that of its exponents. -/
theorem IsMonomial.formalDegree_eq (monomial : IsMonomial e) :
    e.formalDegree = e.exponents.sum fun _ n => n := by
  have each : e.factors.map formalDegree = e.factors.map fun f => Finsupp.degree f.exponent := by
    refine List.map_congr_left fun f member => ?_
    obtain ⟨name, p, rfl, -⟩ := monomial.factors member
    rw [exponent, Finsupp.degree_single]
    rfl
  have total : Finsupp.degree e.exponents = e.formalDegree := by
    rw [formalDegree_factors monomial.built, each, exponents, map_list_sum, List.map_map]
    rfl
  exact total.symm

theorem Represents.formalDegree_le (represents : Represents q e) (member : t ∈ e.summands) :
    t.formalDegree ≤ q.totalDegree :=
  (represents.expanded.isMonomial t member).formalDegree_eq ▸ represents.degree_le member

/-- A numerator that is the whole term. -/
structure IsNumerator (t n : Expr) : Prop where
  monomial : IsMonomial n
  value : denote n = denote t
  degree : n.formalDegree = t.formalDegree

/-- Nothing of a monomial is below the line. -/
theorem IsMonomial.splitFraction (monomial : IsMonomial t) :
    ∃ n, t.splitFraction = .ok (n, one) ∧ IsNumerator t n := by
  have high (f : Expr) (member : f ∈ t.factors) : f.isBelow = false := by
    obtain ⟨name, p, rfl, -, power⟩ := monomial.factors member
    exact decide_eq_false power.2.le.not_gt
  obtain ⟨c, rfl⟩ | ⟨c, name, p, rfl⟩ | ⟨c, factors, rfl⟩ := monomial.cases
  · exact ⟨_, rfl, monomial, rfl, rfl⟩
  · refine ⟨_, ?_, monomial, rfl, rfl⟩
    have above : (symbol c name p).isBelow = false := high (symbol c name p).unit List.mem_cons_self
    simp [Expr.splitFraction, above]
  · have perm := sortFactors_perm factors
    have nonzero : c ≠ 0 := monomial.formed.1
    have assorted := Assorted.of_product monomial.formed
    have all : factors.filter (!·.isBelow) = factors := by
      refine List.filter_eq_self.mpr fun f member => ?_
      rw [high f (perm.mem_iff.mpr member)]
      rfl
    have none : factors.filter (·.isBelow) = [] := by
      refine List.filter_eq_nil_iff.mpr fun f member => ?_
      rw [high f (perm.mem_iff.mpr member)]
      exact Bool.false_ne_true
    obtain ⟨after, multiplied, same⟩ := mulAll_filter monomial.formed (!·.isBelow) nonzero
    rw [all] at multiplied same
    have separate : Separate .monomial after := Separate.perm ⟨fun f member =>
      plainFactor_factors monomial.formed monomial.built f (perm.mem_iff.mpr member), assorted.keyed,
      assorted.distinct⟩ same.symm
    have monomialN : IsMonomial (ofFactors after c) := ⟨separate.wellFormed c, separate.built c⟩
    obtain ⟨kept, coeff, -⟩ := factors_ofFactors nonzero separate.assorted.proper
    have factorsN : (ofFactors after c).factors.Perm (product c factors).factors :=
      (kept.trans same).trans perm.symm
    refine ⟨ofFactors after c, ?_, monomialN, ?_, ?_⟩
    · simp only [Expr.splitFraction, all, none, multiplied]
      rfl
    · rw [denote_factors monomialN.built, denote_factors monomial.built, coeff, (factorsN.map denote).prod_eq]
      rfl
    · rw [formalDegree_factors monomialN.built, formalDegree_factors monomial.built,
        (factorsN.map formalDegree).sum_eq]

/-- What stops the work on a polynomial: a deadline, or a degree too long to be written out. -/
def StoppedWithin (context : Context) (limit : ℕ) (fault : Fault) : Prop :=
  Interrupted context fault ∨ (fault = .unsupported ∧ Rational.digitBound ≤ limit)

theorem StoppedWithin.of_refused {limit : ℕ} (fault : Fault) (refused : Refused context limit fault) :
    StoppedWithin context limit fault :=
  refused.imp .inl id

/-- Put over a common denominator, a polynomial stands over one. -/
theorem IsPolynomial.meets_together (poly : IsPolynomial e) :
    Meets context (StoppedWithin context e.formalDegree) e.together fun parts =>
      Represents (denote e) parts.1 ∧ parts.2 = one := by
  have stops {f : Expr} (low : f.formalDegree ≤ e.formalDegree) (fault : Fault)
      (stopped : Stopped context f.formalDegree fault) : StoppedWithin context e.formalDegree fault :=
    (interrupted_of_stopped stopped).imp_right fun long => ⟨long.1, long.2.trans low⟩
  have bound := totalDegree_denote_le e
  unfold together
  refine Meets.bind _ ((meets_expand poly).accept (stops le_rfl)) fun expanded represents => ?_
  have summands := spreadTerms_perm expanded
  have term : ∀ t ∈ expanded.spreadTerms, IsMonomial t ∧ t.formalDegree ≤ e.formalDegree := fun t member =>
    have inside := summands.mem_iff.mp member
    ⟨represents.expanded.isMonomial t inside, (represents.formalDegree_le inside).trans bound⟩
  have split : Meets context (StoppedWithin context e.formalDegree)
      ((expanded.spreadTerms.map id).mapM fun t => liftM t.splitFraction)
      (List.Forall₂ (fun t part => part.2 = one ∧ IsNumerator t part.1) expanded.spreadTerms) := by
    refine Meets.mapM_forall₂ fun t member => ?_
    obtain ⟨n, returned, numerator⟩ := (term t member).1.splitFraction
    refine (Meets.of_ok returned).imp ?_
    rintro _ rfl
    exact ⟨rfl, numerator⟩
  rw [List.map_id] at split
  refine Meets.bind _ split fun parts splits => ?_
  have each : ∀ part ∈ parts, part.2 = one ∧ IsMonomial part.1 ∧ part.1.formalDegree ≤ e.formalDegree := by
    intro part member
    obtain ⟨t, inside, whole, numerator⟩ := (exists_of_forall₂ splits).1 part member
    exact ⟨whole, numerator.monomial, numerator.degree ▸ (term t inside).2⟩
  have total : (parts.map fun part => denote part.1).sum = denote e := by
    have same : expanded.spreadTerms.map denote = parts.map fun part => denote part.1 := by
      rw [← List.forall₂_eq_eq_eq, List.forall₂_map_left_iff, List.forall₂_map_right_iff]
      exact splits.imp fun t part both => both.2.value.symm
    rw [← same, (summands.map denote).sum_eq, denote_summands, represents.value]
  have below : (parts.flatMap fun part => part.2.factors) = [] := by
    refine List.flatMap_eq_nil_iff.mpr fun part member => ?_
    rw [(each part member).1]
    rfl
  dsimp only
  rw [below]
  refine Meets.bind (· = one) (Meets.pure rfl) ?_
  rintro _ rfl
  refine Meets.bind (RepresentsWithin e.formalDegree (denote e)) ?_ fun numerator within =>
    Meets.pure ⟨within.toRepresents, rfl⟩
  rw [← total, ← zero_add (parts.map _).sum]
  refine Meets.foldlM_sum (RepresentsWithin e.formalDegree) _ ⟨represents_zero, by simp⟩ fun p sum within part member => ?_
  obtain ⟨whole, monomial, low⟩ := each part member
  refine Meets.bind _ (Engine.meets_poll.accept fun _ => .inl) fun _ _ => ?_
  rw [whole]
  refine Meets.bind _ (Meets.of_ok (div_numbers one_ne_zero)) ?_
  rintro _ rfl
  rw [div_one]
  refine Meets.bind _ (Meets.of_ok (mul_one_right part.1)) ?_
  rintro _ rfl
  refine Meets.bind _ ((meets_expand monomial.isPolynomial).accept (stops low)) fun term representsT => ?_
  refine (meets_add within ⟨representsT, ?_⟩).accept StoppedWithin.of_refused
  exact (totalDegree_denote_le _).trans low

/-- What is left of a polynomial when it is cancelled is its expanded form. -/
theorem IsPolynomial.meets_cancel (poly : IsPolynomial e) :
    Meets context (StoppedWithin context e.formalDegree) e.cancel (Represents (denote e)) := by
  unfold cancel
  refine Meets.bind _ poly.meets_together ?_
  rintro ⟨numerator, denominator⟩ ⟨represents, rfl⟩
  exact Meets.pure represents

theorem Represents.render_eq (representsA : Represents q a) (representsB : Represents q b) : a.render = b.render :=
  (representsA.expanded.similar representsB.expanded (representsA.value.trans representsB.value.symm)).render

/-- An expression with a text that no expanded form of its polynomial undercuts. -/
structure IsShortest (e : Expr) : Prop where
  written : e.render = .ok e.text
  longer : ∀ r, Represents (denote e) r → ∃ s, r.render = .ok s ∧ ¬ Undercuts s e.text

theorem IsShortest.notShorter {accepts : Fault → Prop} (shortest : IsShortest e)
    (represents : Represents (denote e) r) : NotShorter accepts e r := by
  obtain ⟨s, written, longer⟩ := shortest.longer r represents
  refine ⟨fun fault refused => ?_, fun t same => ?_⟩
  · cases refused.symm.trans written
  · cases same.symm.trans written
    exact longer

/-- What is written alike for the same polynomial is as short. -/
theorem IsShortest.of_similar (shortest : IsShortest e) (similar : Similar e r) (same : denote r = denote e) :
    IsShortest r := by
  refine ⟨?_, fun x represents => ?_⟩
  · rw [← similar.render, ← similar.text]
    exact shortest.written
  · rw [← similar.text]
    exact shortest.longer x (same ▸ represents)

/-- The passes put nothing else for what is shortest. -/
theorem IsShortest.meets_simplifyPasses (shortest : IsShortest e) (poly : IsPolynomial e) (passes : ℕ) :
    Meets context (StoppedWithin context e.formalDegree) (simplifyPasses passes e) (· = e) := by
  refine Expr.meets_simplifyPasses (Engine.meets_poll.accept fun _ => .inl) ?_
    (pythagorean_eq poly.isRationalFunction) ?_ (fun fault refused => ?_) passes
  · exact ((meets_expand poly).accept fun _ => interrupted_of_stopped).imp fun r => shortest.notShorter
  · exact poly.meets_cancel.imp fun r => shortest.notShorter
  · cases refused.symm.trans shortest.written

structure Simplified (passes : ℕ) (q : MvPolynomial String ℚ) (m : Expr) : Prop extends Rebuilt q m where
  shortest : 0 < passes → IsShortest m

/-- A form that is no better than the two that were compared changes nothing. -/
theorem shorter_shorter {a b c : Expr × String} (seen : c.2 = a.2 ∨ c.2 = b.2) :
    shorter (shorter a b) c = shorter a b := by
  by_cases undercuts : Undercuts b.2 a.2
  · rw [shorter_of_undercuts undercuts]
    refine shorter_of_not_undercuts ?_
    rcases seen with same | same
    · exact same ▸ undercuts.asymm
    · exact same ▸ not_undercuts_self b.2
  · rw [shorter_of_not_undercuts undercuts]
    refine shorter_of_not_undercuts ?_
    rcases seen with same | same
    · exact same ▸ not_undercuts_self a.2
    · exact same ▸ undercuts

/-- No term of an expanded polynomial is zero. -/
theorem Expanded.reduced (expanded : Expanded e) : BuiltBy .reduced e := by
  have monomial {t : Expr} (built : BuiltBy .monomial t) : BuiltBy .reduced t :=
    built.mono (fun _ power => power.1) nofun
  rcases summands_cases e with single | ⟨c, terms, rfl⟩
  · exact monomial (expanded.built e (single ▸ List.mem_singleton_self e))
  · have inside {t : Expr} (member : t ∈ terms) : t.withCoeff (t.coeff * c) ∈ (sum c terms 1).summands := by
      rw [summands_plain]
      exact List.mem_map_of_mem member
    refine .sum (fun t member => ?_) (fun t member => ?_) rfl
    · have built := (monomial (expanded.built _ (inside member))).withCoeff t.coeff
      rwa [withCoeff_withCoeff, withCoeff_coeff] at built
    · have nonzero := expanded.nonzero rfl _ (inside member)
      have formed := allWellFormed_iff.mp expanded.formed.2.2.2 t member
      rw [formed.coeff_withCoeff] at nonzero
      exact left_ne_zero_of_mul nonzero

theorem Represents.rebuilt (represents : Represents q e) : Rebuilt q e :=
  ⟨⟨represents.expanded.isPolynomial, represents.value⟩, represents.expanded.reduced⟩

/-- The first pass decides between the expression and its expanded form, and the next ones keep that. -/
theorem Rebuilt.returns_simplifyPasses (rebuilt : Rebuilt q e) (passes : ℕ) :
    Returns context (simplifyPasses passes e) (Simplified passes q) := by
  obtain ⟨⟨poly, rfl⟩, reduced⟩ := id rebuilt
  cases passes with
  | zero => exact Meets.pure ⟨rebuilt, fun none => absurd none (lt_irrefl 0)⟩
  | succ passes =>
    rw [simplifyPasses]
    refine Meets.bind _ (Meets.anyway _) fun _ _ => ?_
    refine Meets.bind _ ((meets_expand poly).accept fun _ _ => trivial) fun expanded represents => ?_
    refine Meets.bind _ (Meets.of_ok (pythagorean_eq poly.isRationalFunction)) ?_
    rintro e rfl
    refine Meets.bind _ (poly.meets_cancel.accept fun _ _ => trivial) fun cancelled other => ?_
    refine Meets.bind (fun t => e.render = .ok t) (Returns.lift fun _ => id) fun t written => ?_
    -- The first form is compared with the expression; the other two have one of these two texts.
    refine Meets.bind (fun best => ∃ s, expanded.render = .ok s ∧ best = shorter (e, t) (expanded, s)) ?_ ?_
    · rw [List.foldlM_cons]
      refine Meets.bind (fun best => ∃ s, expanded.render = .ok s ∧ best = shorter (e, t) (expanded, s)) ?_ ?_
      · refine Meets.bind (fun s => expanded.render = .ok s) (Returns.lift fun _ => id) fun s writtenX => ?_
        exact Meets.pure ⟨s, writtenX, rfl⟩
      · intro best first
        refine Meets.foldlM first ?_
        rintro _ ⟨s, writtenX, rfl⟩ c member
        refine Meets.bind (fun u => c.render = .ok u) (Returns.lift fun _ => id) fun u writtenC => Meets.pure ?_
        refine ⟨s, writtenX, shorter_shorter ?_⟩
        rcases List.mem_pair.mp member with rfl | rfl
        · exact .inl (Except.ok.inj (writtenC.symm.trans written))
        · exact .inr (Except.ok.inj (writtenC.symm.trans ((other.render_eq represents).trans writtenX)))
    rintro _ ⟨s, writtenX, rfl⟩
    have expandedText (x : Expr) (representsX : Represents (denote e) x) : x.render = .ok s :=
      (representsX.render_eq represents).trans writtenX
    by_cases undercuts : Undercuts s t
    · have other : (s == t) = false := by
        rw [beq_eq_false_iff_ne]
        rintro rfl
        exact not_undercuts_self s undercuts
      have text : expanded.text = s := text_of_render writtenX
      have shortest : IsShortest expanded := by
        refine ⟨text.symm ▸ writtenX, fun x representsX => ⟨s, ?_, ?_⟩⟩
        · exact expandedText x (represents.value ▸ representsX)
        · exact text.symm ▸ not_undercuts_self s
      rw [shorter_of_undercuts undercuts]
      simp only [other, Bool.false_eq_true, if_false]
      refine ((shortest.meets_simplifyPasses represents.expanded.isPolynomial passes).accept fun _ _ => trivial).imp ?_
      rintro _ rfl
      exact ⟨represents.rebuilt, fun _ => shortest⟩
    · have text : e.text = t := text_of_render written
      rw [shorter_of_not_undercuts undercuts]
      simp only [beq_self_eq_true, if_true]
      refine Meets.pure ⟨rebuilt, fun _ => ⟨text.symm ▸ written, fun x representsX => ⟨s, ?_, ?_⟩⟩⟩
      · exact expandedText x representsX
      · exact text.symm ▸ undercuts

theorem IsPolynomial.returns_simplify (poly : IsPolynomial e) : Returns context e.simplify fun m =>
    ∃ passes, (context.scope.settings.get .simplifyMaxPasses).integer = .ok passes ∧
      Simplified passes.toNat (denote e) m := by
  refine meets_guarded (fun _ _ => trivial) fun guard opens => ?_
  refine Meets.bind _ (poly.meets_canonicalize.accept fun _ _ => trivial) fun start rebuilt => ?_
  refine Meets.bind _ (meets_count fun _ _ => trivial) fun passes known => ?_
  rw [get_block context guard (by decide)] at known
  exact (rebuilt.returns_simplifyPasses passes.toNat).imp fun m simplified => ⟨passes, known, simplified⟩

/-- What stops simplifying a polynomial that is simplified: a deadline, or a degree, as it shows in the rebuilt
polynomial, too long to be written out. -/
def StopsAgain (context : Context) (m : Expr) (fault : Fault) : Prop :=
  Interrupted context fault ∨
    (fault = .unsupported ∧ ∃ there c, Yields there m.canonicalize c ∧ Rational.digitBound ≤ c.formalDegree)

/-- What so many passes came to is written as it was after so many more. -/
theorem Simplified.meets_simplify {m : Expr} {passes : ℤ} (simplified : Simplified passes.toNat q m)
    (known : (context.scope.settings.get .simplifyMaxPasses).integer = .ok passes) :
    Meets context (StopsAgain context m) m.simplify (Similar m) := by
  obtain ⟨⟨⟨poly, rfl⟩, reduced⟩, shortest⟩ := simplified
  refine meets_guarded (fun _ => .inl) fun guard opens => ?_
  have kept := reduced.isCanonical poly.formed (block context guard)
  have rebuilds := (kept.and (poly.meets_canonicalize.accept fun _ _ => trivial)).with_run
  refine Meets.bind _ (rebuilds.accept fun _ never => never.1.elim) ?_
  rintro start ⟨⟨⟨similar, -⟩, rebuilt⟩, yields⟩
  have stops (fault : Fault) (stopped : StoppedWithin (block context guard) start.formalDegree fault) :
      StopsAgain context m fault :=
    stopped.imp (fun interrupted => interrupted.of_block opens) fun long => ⟨long.1, _, _, yields, long.2⟩
  refine Meets.bind _ (meets_count fun fault refused => ?_) fun n same => ?_
  all_goals rw [get_block context guard (by decide)] at *
  · cases refused.symm.trans known
  · cases same.symm.trans known
    by_cases some : 0 < passes.toNat
    · have again := (shortest some).of_similar similar rebuilt.value
      refine ((again.meets_simplifyPasses rebuilt.poly passes.toNat).accept stops).imp ?_
      rintro _ rfl
      exact similar
    · rw [Nat.eq_zero_of_not_pos some]
      exact Meets.pure similar

/-- Simplification is idempotent on polynomials. It keeps the polynomial, and what it returns is simplified to an
expression that is written alike, unless a deadline passes or a degree is too long to be written out. -/
theorem simplify_polynomial_twice (poly : IsPolynomial e) (context : Context) :
    Returns context e.simplify fun m => denote m = denote e ∧
      Meets context (StopsAgain context m) m.simplify fun r => r.render = m.render := by
  refine poly.returns_simplify.imp fun m ⟨passes, known, simplified⟩ => ⟨simplified.value, ?_⟩
  exact (simplified.meets_simplify known).imp fun r similar => similar.render.symm

/-- The square of `x + 1` in a new session. -/
theorem simplify_square_twice :
    let scope := Session.initial.scope
    let e := sum 1 [bare "x", number 1] 2
    IsPolynomial e ∧ ∃ m r, runIn scope e.simplify = .ok m ∧ runIn scope m.simplify = .ok r ∧ r.render = m.render := by
  intro scope e
  have keeps {context : Context} {m r : Expr} (first : Gives context e.simplify m)
      (second : Gives context m.simplify r) : r.render = m.render :=
    (((simplify_polynomial_twice isPolynomial_square context).of_gives first).2.accept fun _ _ => trivial).of_gives second
  have twice : (runIn scope e.simplify >>= fun m => runIn scope m.simplify >>= render).toOption = some "(x+1)^2" := by
    decide +kernel
  obtain ⟨m, returned, again⟩ := Outcome.bind_ok (Outcome.ok_of_toOption twice)
  obtain ⟨r, returnedR, -⟩ := Outcome.bind_ok again
  exact ⟨isPolynomial_square, m, r, returned, returnedR, keeps ⟨0, returned⟩ ⟨0, returnedR⟩⟩

end ExactAlgebra.Expr
