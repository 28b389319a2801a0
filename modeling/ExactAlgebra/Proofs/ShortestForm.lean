import ExactAlgebra.Proofs.CommonDenominators
import ExactAlgebra.Proofs.CommonMultiples
import ExactAlgebra.Proofs.Composition
import ExactAlgebra.Proofs.Factoring
import ExactAlgebra.Proofs.LaplaceLinearity
import Mathlib

/-! The shortest form. Each form that simplification tries has the value of the expression wherever that is
defined, and one form is put for another only if its text is no longer. So what comes out has the value of
the expression, and a text no longer than that of the rebuilt expression. -/
namespace ExactAlgebra.Expr
open Engine

variable {ρ : String → ℚ} {context : Context} {guard : Deadline.Guard} {e r : Expr} {v w : ℚ} {x : String}

/-- Rational functions have values. -/
theorem computes_eval (ρ : String → ℚ) (x : String) :
    Computes (fun e => HasValue ρ (eval ρ e) e) (eval ρ) x (ρ x) where
  formed has := has.rational.formed
  number c := ⟨hasValue_number c, rfl⟩
  add hasA hasB returned := by
    have total := hasA.add hasB returned
    exact ⟨⟨total.rational, total.defined, rfl⟩, total.value⟩
  mul hasA hasB returned := by
    have product := hasA.mul hasB returned
    exact ⟨⟨product.rational, product.defined, rfl⟩, product.value⟩
  product {c factors} has := by
    obtain ⟨⟨formed, built⟩, defined, -⟩ := has
    cases built with
    | product each =>
      refine ⟨fun f member => ?_, by rw [eval, evalProduct_eq]; rfl⟩
      exact ⟨⟨allWellFormed_iff.mp formed.2.2 f member, each f member⟩,
        (Defined.keptByProducts ρ).each defined f member, rfl⟩
  power {f n} found := by
    cases f with
    | symbol c name p =>
      obtain ⟨⟨⟨rfl, -⟩, positive⟩, rfl⟩ :
          ((name = x ∧ Rational.isInteger p = true) ∧ 0 < p) ∧ p.num.toNat = n := by
        simpa [naturalPower?] using found
      have above : 0 ≤ p.num := (Rat.num_pos.mpr positive).le
      rw [eval, ← zpow_natCast, Int.toNat_of_nonneg above]
      rfl
    | _ => cases found

/-- The polynomial that is read off a rational function has its value. -/
theorem HasValue.returns_poly? (has : HasValue ρ v e) (x : String) :
    Returns context (e.poly? x) fun p? => ∀ p, p? = some p → p.toPolynomial.eval (ρ x) = v := by
  have expands : Returns context (expand e) fun r =>
      (∀ t ∈ r.spreadTerms, HasValue ρ (eval ρ t) t) ∧ (r.spreadTerms.map (eval ρ)).sum = v :=
    (returns_expand_value has.rational has.defined).imp fun r expanded => has.value ▸ expanded.spreadTerms
  refine ((computes_eval ρ x).returns_poly? expands).imp fun p? holds p found => ?_
  rw [← Polynomial.coe_aeval_eq_eval]
  exact holds p found

theorem IsPolynomial.hasValue (poly : IsPolynomial e) : HasValue ρ (eval ρ e) e :=
  ⟨poly.isRationalFunction, poly.built.defined, rfl⟩

/-- A polynomial written out has its values. -/
theorem returns_toExpr (named : Identifier x) (unknown : isVariableName x = true) (p : Poly) (ρ : String → ℚ) :
    Returns context (liftM (p.toExpr x)) fun r => IsPolynomial r ∧ HasValue ρ (p.toPolynomial.eval (ρ x)) r := by
  refine Returns.lift fun r written => ?_
  rcases toExpr_outcome named unknown p with ⟨s, returned, represents⟩ | ⟨refused, -⟩
  · cases returned.symm.trans written
    have poly := represents.expanded.isPolynomial
    exact ⟨poly, poly.isRationalFunction, poly.built.defined, represents.eval_eq ρ⟩
  · cases refused.symm.trans written

/-- The factored form of a polynomial has its values. -/
theorem returns_factorTree_value (opens : Opens context guard) (poly : IsPolynomial e) (ρ : String → ℚ) :
    Returns (block context guard) e.factorTree (HasValue ρ (eval ρ e)) := by
  have weight := bulk_le_size e
  have steps := factorSteps_le e
  have factored := meets_factorWithin opens .self poly (show e.factorSteps < 2 * e.size + 8 by omega)
  refine (factored.accept fun _ _ => trivial).imp fun r denotes => ?_
  have has : HasValue ρ (eval ρ r) r := denotes.poly.hasValue
  rwa [← eval_denote denotes.poly.built, denotes.value, eval_denote poly.built] at has

theorem returns_quotient {p q : Poly} (nonzero : q.toPolynomial ≠ 0) (divides : q.toPolynomial ∣ p.toPolynomial) :
    Returns context (p.quotient q) fun r => r.toPolynomial * q.toPolynomial = p.toPolynomial := by
  unfold Poly.quotient
  refine Meets.bind _ ((Poly.meets_division nonzero).accept fun _ _ => trivial) ?_
  rintro _ rfl
  exact Meets.pure (Poly.quot_mul nonzero divides)

/-- A common divisor is left out of numerator and denominator, and the denominator is factored. -/
theorem returns_reduced (opens : Opens context guard) (named : Identifier x) (unknown : isVariableName x = true)
    {n d g : Poly} (left : g.toPolynomial ∣ n.toPolynomial) (right : g.toPolynomial ∣ d.toPolynomial)
    (nonzero : d.toPolynomial.eval (ρ x) ≠ 0) :
    Returns (block context guard) (do
      let n ← n.quotient g
      let d ← d.quotient g
      div (← n.toExpr x) (← (← d.toExpr x).factorTree))
      (HasValue ρ (n.toPolynomial.eval (ρ x) / d.toPolynomial.eval (ρ x))) := by
  have proper : g.toPolynomial ≠ 0 := by
    intro zero
    rw [zero, zero_dvd_iff] at right
    rw [right, Polynomial.eval_zero] at nonzero
    exact nonzero rfl
  refine Meets.bind _ (returns_quotient proper left) fun n' above => ?_
  refine Meets.bind _ (returns_quotient proper right) fun d' below => ?_
  rw [← above, ← below, Polynomial.eval_mul, Polynomial.eval_mul]
  rw [← below, Polynomial.eval_mul] at nonzero
  obtain ⟨remaining, common⟩ := mul_ne_zero_iff.mp nonzero
  rw [mul_div_mul_right _ _ common]
  refine Meets.bind _ (returns_toExpr named unknown n' ρ) fun top ⟨_, has⟩ => ?_
  refine Meets.bind _ (returns_toExpr named unknown d' ρ) fun bottom ⟨poly, value⟩ => ?_
  refine Meets.bind _ (returns_factorTree_value opens poly ρ) fun factored hasFactored => ?_
  rw [value.value] at hasFactored
  exact Returns.lift fun r divided => has.div hasFactored remaining divided

theorem eval_of_isOne (one : e.isOne = true) : eval ρ e = 1 := by
  cases e with
  | number c =>
    obtain rfl : c = 1 := by simpa [isOne] using one
    rfl
  | _ => cases one

/-- Cancelling common factors keeps the value. -/
theorem HasValue.returns_cancel (opens : Opens context guard) (has : HasValue ρ v e) :
    Returns (block context guard) e.cancel (HasValue ρ v) := by
  unfold cancel
  refine Meets.bind _ (returns_together_value has.rational has.defined) fun parts ⟨w, nonzero, below, above⟩ => ?_
  obtain ⟨numerator, denominator⟩ := parts
  rw [has.value] at above
  have quotient : Returns (block context guard) (liftM (Expr.div numerator denominator)) (HasValue ρ v) := by
    refine Returns.lift fun r divided => ?_
    have value := above.div below nonzero divided
    rwa [mul_div_cancel_right₀ v nonzero] at value
  dsimp only
  split
  next one =>
    have unit : w = 1 := below.value.symm.trans (eval_of_isOne one)
    rw [unit, mul_one] at above
    exact Meets.pure above
  split
  next x single =>
    have member : x ∈ sortNames (numerator.freeNames ++ denominator.freeNames) := single ▸ List.mem_singleton_self x
    rw [sortNames, List.mem_eraseDups, List.mem_mergeSort, List.mem_append] at member
    have named : Identifier x :=
      member.elim (above.rational.formed.freeNames x) (below.rational.formed.freeNames x)
    have unknown : isVariableName x = true :=
      member.elim (fun inside => (mem_freeNames.mp inside).2) fun inside => (mem_freeNames.mp inside).2
    refine Meets.bind _ (above.returns_poly? x) fun n? readN => ?_
    refine Meets.bind _ (returns_expand_value below.rational below.defined) fun expanded hasExpanded => ?_
    rw [below.value] at hasExpanded
    refine Meets.bind _ (hasExpanded.returns_poly? x) fun d? readD => ?_
    split
    next n d =>
      have valueN := readN n rfl
      have valueD := readD d rfl
      split
      · exact quotient
      refine Meets.bind _ ((Poly.meets_commonDivisor n d).accept fun _ _ => trivial) ?_
      rintro _ rfl
      split
      · have divisor := Poly.isGreatestDivisor_gcd n d
        have reduced := returns_reduced opens named unknown divisor.left divisor.right (valueD ▸ nonzero)
        rwa [valueN, valueD, mul_div_cancel_right₀ v nonzero] at reduced
      · exact quotient
    · exact quotient
  · exact quotient

/-- In a rational function there are no squares of sines and cosines. -/
theorem pythagorean_eq (rational : IsRationalFunction e) : e.pythagorean = .ok e := by
  have none : e.spreadTerms.filterMap trigSquare? = [] := by
    refine List.filterMap_eq_nil_iff.mpr fun t member => ?_
    have summand := (spreadTerms_perm e).mem_iff.mp member
    have built := forall_summands BuiltBy.withCoeff BuiltBy.terms rational.built t summand
    cases built <;> rfl
  unfold pythagorean
  dsimp only
  rw [none]
  split <;> rfl

/-- Where the first expression has a text, the second one has one that is no longer. -/
def NoLonger (e r : Expr) : Prop := ∀ t, e.render = .ok t → ∃ s, r.render = .ok s ∧ s.length ≤ t.length

theorem NoLonger.refl (e : Expr) : NoLonger e e := fun t written => ⟨t, written, le_rfl⟩

/-- A form with its text, which is no longer than another. -/
structure Shortens (kept : Expr → Prop) (text : String) (form : Expr × String) : Prop where
  kept : kept form.1
  written : form.1.render = .ok form.2
  short : form.2.length ≤ text.length

variable {kept : Expr → Prop}

theorem Shortens.shorter {text s : String} {best : Expr × String} (shortens : Shortens kept text best)
    (keptR : kept r) (written : r.render = .ok s) : Shortens kept text (shorter best (r, s)) := by
  unfold Expr.shorter
  split
  next less =>
    have short : s.length ≤ best.2.length := by
      simp only [Bool.or_eq_true, Bool.and_eq_true, beq_iff_eq, decide_eq_true_eq] at less
      omega
    exact ⟨keptR, written, short.trans shortens.short⟩
  next => exact shortens

/-- The passes keep what each form keeps, and make nothing longer. -/
theorem returns_simplifyPasses (expands : ∀ e, kept e → Returns context e.expand kept)
    (reduces : ∀ e, kept e → ∀ r, e.pythagorean = .ok r → kept r)
    (cancels : ∀ e, kept e → Returns context e.cancel kept) (passes : ℕ) (start : kept e) :
    Returns context (simplifyPasses passes e) fun r => kept r ∧ NoLonger e r := by
  induction passes generalizing e with
  | zero => exact Meets.pure ⟨start, .refl e⟩
  | succ passes ih =>
    rw [simplifyPasses]
    refine Meets.bind _ (Meets.anyway _) fun _ _ => ?_
    refine Meets.bind _ (expands e start) fun expanded keptExpanded => ?_
    refine Meets.bind _ (Returns.lift (reduces e start)) fun reduced keptReduced => ?_
    refine Meets.bind _ (cancels e start) fun cancelled keptCancelled => ?_
    refine Meets.bind (fun text => e.render = .ok text) (Returns.lift fun _ => id) fun text written => ?_
    have forms : ∀ c ∈ [expanded, reduced, cancelled], kept c := by
      simp [keptExpanded, keptReduced, keptCancelled]
    refine Meets.bind (Shortens kept text) (Meets.foldlM ⟨start, written, le_rfl⟩ fun best shortens c member => ?_)
      fun best shortens => ?_
    · refine Meets.bind (fun s => c.render = .ok s) (Returns.lift fun _ => id) fun s writtenC => ?_
      exact Meets.pure (shortens.shorter (forms c member) writtenC)
    split
    · exact Meets.pure ⟨start, .refl e⟩
    · refine (ih shortens.kept).imp fun r ⟨keptR, noLonger⟩ => ⟨keptR, fun t same => ?_⟩
      cases same.symm.trans written
      obtain ⟨s, writtenR, short⟩ := noLonger best.2 shortens.written
      exact ⟨s, writtenR, short.trans shortens.short⟩

theorem returns_simplifyPasses_noLonger (passes : ℕ) (e : Expr) :
    Returns context (simplifyPasses passes e) (NoLonger e) := by
  have anything (x : Engine Expr) : Returns context x fun _ => True := Meets.anyway x
  have start : (fun _ : Expr => True) e := trivial
  exact (returns_simplifyPasses (fun e _ => anything e.expand) (fun _ _ _ _ => trivial)
    (fun e _ => anything e.cancel) passes start).imp fun _ answer => answer.2

theorem returns_canonicalize_value (rational : IsRationalFunction e) (defined : Defined ρ e) :
    Returns context e.canonicalize (HasValue ρ (eval ρ e)) := by
  have puts : PutsRational ρ fun _ => none := nofun
  exact (meets_rebuild rational puts defined).accept fun _ _ => trivial

/-- Simplification keeps the value of a rational function wherever it is defined. -/
theorem returns_simplify_value (rational : IsRationalFunction e) (defined : Defined ρ e) :
    Returns context e.simplify (HasValue ρ (eval ρ e)) := by
  refine meets_guarded (fun _ _ => trivial) fun guard opens => ?_
  refine Meets.bind _ (returns_canonicalize_value rational defined) fun start has => ?_
  refine Meets.bind _ (Meets.anyway _) fun passes _ => ?_
  refine (returns_simplifyPasses (fun e has => ?_) (fun e has r reduced => ?_) (fun e has => has.returns_cancel opens)
    _ has).imp fun r answer => answer.1
  · exact has.value ▸ returns_expand_value has.rational has.defined
  · cases (pythagorean_eq has.rational).symm.trans reduced
    exact has

/-- What comes out is no longer than the expression as it is rebuilt at the start. -/
theorem returns_simplify_noLonger (e : Expr) : Returns context e.simplify fun r =>
    ∃ guard c, Gives { context with scope := context.scope.inBlock guard } e.canonicalize c ∧ NoLonger c r := by
  refine Meets.bind _ (Meets.anyway openBlock) fun guard _ => Meets.inScope ?_
  refine Meets.bind _ (returns_gives e.canonicalize) fun c gives => ?_
  refine Meets.bind _ (Meets.anyway _) fun passes _ => ?_
  exact (returns_simplifyPasses_noLonger passes.toNat c).imp fun r noLonger => ⟨guard, c, gives, noLonger⟩

/-- Whatever simplification returns has the value of the expression wherever that is a rational function and
defined; and in a session whose functions are sound, its text is no longer than that of the expression when it
is rebuilt with copied operands. -/
theorem simplify_keeps_value_and_length {scope : Scope} {e m : Expr} (returned : runIn scope e.simplify = .ok m) :
    (∀ ρ, IsRationalFunction e → Defined ρ e → HasValue ρ (eval ρ e) m) ∧
      ∀ there c, e.WellFormed → (scope.inBlock scope.guard).Matches there → runIn there e.canonicalize = .ok c →
        ∀ t, c.render = .ok t → ∃ s, m.render = .ok s ∧ s.length ≤ t.length := by
  have gives : Gives ⟨scope, callWithin maxCallDepth⟩ e.simplify m := ⟨0, returned⟩
  constructor
  · exact fun ρ rational defined => (returns_simplify_value rational defined).of_gives gives
  · intro there c formed session rebuilt
    obtain ⟨guard, start, givesStart, noLonger⟩ := (returns_simplify_noLonger e).of_gives gives
    have same : (scope.inBlock guard).Matches there := ⟨session.functions, session.settings, session.rootFinder, session.sound⟩
    have givesC : Gives ⟨there, callWithin maxCallDepth⟩ e.canonicalize c := ⟨0, rebuilt⟩
    obtain ⟨rfl, -⟩ := (Tidy.canonicalize_wellFormed formed).of_gives (twins_callWithin same _ _) givesStart givesC
    exact noLonger

/-- The difference of `(x+1)/x` and `1/x`, where `x` is two. -/
theorem simplify_of_difference_of_fractions :
    let scope := Session.initial.scope
    let e := sum 1 [product 1 [sum 1 [bare "x", number 1] 1, symbol 1 "x" (-1)], symbol (-1) "x" (-1)] 1
    IsRationalFunction e ∧ Defined (fun _ => 2) e ∧ ∃ m c t s, runIn scope e.simplify = .ok m ∧
      HasValue (fun _ => 2) 1 m ∧ runIn scope e.canonicalize = .ok c ∧ c.render = .ok t ∧ m.render = .ok s ∧
      s.length ≤ t.length := by
  intro scope e
  have reciprocal (c : ℚ) : BuiltBy .rational (symbol c "x" (-1)) ∧ Defined (fun _ => 2) (symbol c "x" (-1)) :=
    ⟨.symbol (by decide) rfl, .symbol fun _ => two_ne_zero⟩
  have successor : Defined (fun _ => 2) (sum 1 [bare "x", number 1] 1) := by
    refine .sum (fun t member => ?_) fun negative => absurd negative (by decide)
    rcases List.mem_cons.mp member with rfl | later
    · exact .symbol fun _ => two_ne_zero
    · obtain rfl := List.mem_singleton.mp later
      exact .number 1
  have factor : ∀ f ∈ [sum 1 [bare "x", number 1] 1, symbol 1 "x" (-1)],
      BuiltBy .rational f ∧ Defined (fun _ => 2) f := by
    intro f member
    rcases List.mem_cons.mp member with rfl | later
    · exact ⟨isRationalFunction_succ_x.built, successor⟩
    · obtain rfl := List.mem_singleton.mp later
      exact reciprocal 1
  have term : ∀ t ∈ [product 1 [sum 1 [bare "x", number 1] 1, symbol 1 "x" (-1)], symbol (-1) "x" (-1)],
      BuiltBy .rational t ∧ Defined (fun _ => 2) t := by
    intro t member
    rcases List.mem_cons.mp member with rfl | later
    · exact ⟨.product fun f inside => (factor f inside).1, .product fun f inside => (factor f inside).2⟩
    · obtain rfl := List.mem_singleton.mp later
      exact reciprocal (-1)
  have built : BuiltBy .rational e := .sum (fun t member => (term t member).1) (fun _ _ => trivial) rfl
  have defined : Defined (fun _ => 2) e :=
    .sum (fun t member => (term t member).2) fun negative => absurd negative (by decide)
  have rational : IsRationalFunction e := ⟨by decide +kernel, built⟩
  have simplified : (runIn scope e.simplify >>= render).toOption = some "1" := by decide +kernel
  have rebuilt : (runIn scope e.canonicalize >>= render).toOption = some "(x+1)/x-1/x" := by decide +kernel
  obtain ⟨m, returned, -⟩ := Outcome.bind_ok (Outcome.ok_of_toOption simplified)
  obtain ⟨c, returnedC, written⟩ := Outcome.bind_ok (Outcome.ok_of_toOption rebuilt)
  obtain ⟨value, length⟩ := simplify_keeps_value_and_length returned
  have session : (scope.inBlock scope.guard).Matches scope := ⟨rfl, rfl, rfl, soundFunctions_builtin⟩
  obtain ⟨s, writtenM, short⟩ := length scope c rational.formed session returnedC _ written
  have one : eval (fun _ => 2) e = 1 := by norm_num [e, eval, evalSum, evalProduct, bare]
  exact ⟨rational, defined, m, c, _, s, returned, one ▸ value _ rational defined, returnedC, written, writtenM, short⟩

end ExactAlgebra.Expr
