import ExactAlgebra.Proofs.Agreement
import ExactAlgebra.Proofs.FractionSums
import ExactAlgebra.Session.Evaluation
import Mathlib

/-! Decomposing a fraction. Partial fractions are always found: the denominator is split into factors
without common divisors, the linear system for the numerators has one solution, and the polynomial part
and the fractions add up to the whole. Once the expression is a fraction of polynomials, only a limit
stops that. -/
namespace ExactAlgebra

namespace Poly
open Engine Polynomial

variable {context : Context} {p q : Poly} {factors : Factors}

theorem meets_division (nonzero : q.toPolynomial ≠ 0) :
    Meets context (Interrupted context) (p.division q) (· = quotRem p q) := by
  have proper : q.isZero = false := by
    rw [← Bool.not_eq_true, isZero_iff]
    exact nonzero
  unfold division
  refine Meets.bind _ (Meets.of_ok (if_neg (by rw [proper]; exact Bool.false_ne_true))) ?_
  rintro _ rfl
  exact Meets.bind _ (meets_pollSteps _) fun _ _ => Meets.pure rfl

theorem natDegree_quot_le (p : Poly) (nonzero : q.toPolynomial ≠ 0) :
    (quot p q).toPolynomial.natDegree ≤ p.toPolynomial.natDegree := by
  obtain ⟨division, smaller⟩ := quot_mul_add_rem p nonzero
  by_cases zero : (quot p q).toPolynomial = 0
  · rw [zero, natDegree_zero]
    exact Nat.zero_le _
  · have larger : (rem p q).toPolynomial.degree < ((quot p q).toPolynomial * q.toPolynomial).degree := by
      rw [mul_comm]
      exact smaller.trans_le (degree_le_mul_left _ zero)
    rw [division, natDegree_eq_of_degree_eq (degree_add_eq_left_of_degree_lt larger)]
    exact natDegree_le_of_dvd (dvd_mul_right _ _) (mul_ne_zero zero nonzero)

/-- The limit on the candidates for rational roots is not a number. -/
def IsUnlimited (context : Context) (fault : Fault) : Prop :=
  (context.scope.settings.get .maxRationalRootCandidates).isBelow 0 = .error fault

/-- The limit is what the setting gives for the search, if there is one. -/
def IsLimit (p : Poly) (setting : Datum) (limit : ℤ) : Prop :=
  ∀ search, ¬ p.degree < 1 → p.rootSearch? = some search → candidateBound search setting = .ok limit

theorem meets_isLimit (p : Poly) :
    Meets context (fun fault => Interrupted context fault ∨ IsUnlimited context fault) p.searchLimit
      (p.IsLimit (context.scope.settings.get .maxRationalRootCandidates)) := by
  have polls (steps : Unit → ℕ) :
      Meets context (fun fault => Interrupted context fault ∨ IsUnlimited context fault) (pollSteps steps)
        fun _ => True := (meets_pollSteps steps).accept fun _ => .inl
  unfold searchLimit
  split
  next low => exact Meets.pure fun _ high _ => absurd low high
  next =>
    split
    next none =>
      refine Meets.pure fun search _ found => ?_
      rw [none] at found
      cases found
    next search found =>
      refine Meets.bind _ (polls _) fun _ _ => ?_
      refine Meets.bind _ ((meets_candidateLimit search).accept fun _ => .inr) fun limit bound => ?_
      refine Meets.bind _ (polls _) fun _ _ => Meets.pure fun other _ same => ?_
      rw [found] at same
      cases same
      exact bound

/-- The factors that are found are those for the limit that the setting gives. -/
theorem meets_factorization (p : Poly) :
    Meets context (fun fault => Interrupted context fault ∨ IsUnlimited context fault) p.findFactors fun found =>
      ∃ limit, p.primitive.2.IsLimit (context.scope.settings.get .maxRationalRootCandidates) limit ∧
        found = p.factorization limit := by
  refine Meets.bind _ (meets_isLimit _) fun limit given => ?_
  refine Meets.bind _ ((meets_pollSteps _).accept fun _ => .inl) fun _ _ => ?_
  exact Meets.pure ⟨limit, given, rfl⟩

/-- These are the factors that are found in a block of the context. -/
def Finds (context : Context) (q : Poly) (factors : Factors) : Prop :=
  ∃ guard c, Opens context guard ∧ Yields (block context guard) q.findFactors (c, factors)

theorem meets_findFactors {guard : Deadline.Guard} (opens : Opens context guard) (q : Poly) :
    Meets (block context guard) (fun fault => Interrupted context fault ∨ IsUnlimited context fault) q.findFactors
      fun found => Finds context q found.2 := by
  have found := @meets_factorization (block context guard) q
  refine (found.with_run.imp fun result reached => ⟨guard, result.1, opens, reached.2⟩).accept ?_
  rintro fault ⟨interrupted | refused, -⟩
  · exact .inl (interrupted.of_block opens)
  · rw [IsUnlimited, get_block context guard (by decide)] at refused
    exact .inr refused

theorem Finds.eq_factorization (finds : Finds context q factors) :
    ∃ limit, factors = (q.factorization limit).2 := by
  obtain ⟨guard, c, -, yields⟩ := finds
  obtain ⟨limit, -, same⟩ := (meets_factorization q).yielded yields
  exact ⟨limit, congrArg Prod.snd same⟩

end Poly

namespace Expr
open Engine ExactAlgebra.Poly
open scoped Polynomial

variable {context source : Context} {e numerator denominator r : Expr} {x : String} {p q : Poly} {factors : Factors}

/-- The expression is the quotient polynomial plus the fractions of the remainder. Each of these stands
over a power of a factor of higher degree, up to the multiplicity of that factor. -/
structure Decomposes (x : String) (p q : Poly) (factors : Factors) (r : Expr) : Prop where
  parts : ∃ start parts, (quot p q).toExpr x = .ok start ∧
    partialNumerators? (rem p q) q factors = some parts ∧ addFractions x start parts = .ok r ∧
    (∀ part ∈ parts, part.1.toPolynomial.degree < part.2.1.toPolynomial.degree ∧
      ∃ m, (part.2.1, m) ∈ factors ∧ 0 < part.2.2 ∧ part.2.2 ≤ m) ∧
    algebraMap ℚ[X] (RatFunc ℚ) p.toPolynomial / algebraMap ℚ[X] (RatFunc ℚ) q.toPolynomial =
      algebraMap ℚ[X] (RatFunc ℚ) (quot p q).toPolynomial + total parts
  value : IsFunction x (fun c => q.toPolynomial.eval c ≠ 0)
    (fun c => p.toPolynomial.eval c / q.toPolynomial.eval c) r

/-- What stops a decomposition: a deadline, a limit on candidates that is no number, or something too
long to be written out, of the polynomial part or of the fractions. -/
inductive Undecomposed (context : Context) (x : String) (p q : Poly) : Fault → Prop
  | interrupted {fault : Fault} (interrupted : Interrupted context fault) : Undecomposed context x p q fault
  | unlimited {fault : Fault} (refused : IsUnlimited context fault) : Undecomposed context x p q fault
  | degree (long : Rational.digitBound ≤ p.toPolynomial.natDegree) : Undecomposed context x p q .unsupported
  | fractions {factors : Factors} {parts : List Part} (finds : Finds context q factors)
    (solved : partialNumerators? (rem p q) q factors = some parts) (long : Unwritable x parts) :
    Undecomposed context x p q .unsupported

/-- The fractions that are found, and the sum of them with the polynomial part. -/
theorem addFractions_decomposes (named : Identifier x) (unknown : isVariableName x = true)
    (nonzero : q.toPolynomial ≠ 0) (finds : Finds context q factors) {start : Expr}
    (written : (quot p q).toExpr x = .ok start)
    (represents : Represents (inUnknown x (quot p q).toPolynomial) start) :
    ∃ parts, partialNumerators? (rem p q) q factors = some parts ∧
      ((∃ r, addFractions x start parts = .ok r ∧ Decomposes x p q factors r) ∨
        (addFractions x start parts = .error .unsupported ∧ Undecomposed context x p q .unsupported)) := by
  obtain ⟨limit, rfl⟩ := finds.eq_factorization
  have split := factorization_split limit nonzero
  have primitive := (takesApart_factorization limit q).isPrimitive
  obtain ⟨division, smaller⟩ := quot_mul_add_rem p nonzero
  obtain ⟨parts, solved, powers, low, sum⟩ := exists_partialNumerators split smaller
  have fits := fits_factorPowers split
  have power {part : Part} (member : part ∈ parts) : part.2 ∈ factorPowers (q.factorization limit).2 :=
    powers ▸ List.mem_map_of_mem member
  have divides : ∀ part ∈ parts, part.2.1.toPolynomial ≠ 0 ∧ part.2.1.toPolynomial ^ part.2.2 ∣ q.toPolynomial :=
    fun part member => fits part.2 (power member)
  have multiplicity : ∀ part ∈ parts,
      ∃ m, (part.2.1, m) ∈ (q.factorization limit).2 ∧ 0 < part.2.2 ∧ part.2.2 ≤ m :=
    fun part member => mem_factorPowers.mp (power member)
  have each : ∀ part ∈ parts, IsPart (fun c => q.toPolynomial.eval c ≠ 0) part := by
    intro part member
    obtain ⟨m, inside, positive, -⟩ := multiplicity part member
    refine ⟨primitive (part.2.1, m) inside, low part member, fun c proper zero => proper ?_⟩
    obtain ⟨cofactor, product⟩ := (divides part member).2
    rw [product, Polynomial.eval_mul, Polynomial.eval_pow, zero, zero_pow positive.ne', zero_mul]
  have keyless : ∀ t ∈ start.summands, t.hasTermKey = false → Undecomposed context x p q .unsupported := by
    intro t member keyless
    refine .degree (not_lt.mp fun short => ?_)
    have degree := (natDegree_quot_le p nonzero).trans_lt short
    rw [represents.hasTermKey ((totalDegree_inUnknown_le x _).trans_lt degree) member] at keyless
    cases keyless
  refine ⟨parts, solved, ?_⟩
  rcases addFractions_outcome named unknown each (.fractions finds solved) represents.isFunction keyless with
    ⟨r, added, function⟩ | refused
  · refine .inl ⟨r, added, ?_, function.rational, fun ρ proper => ?_⟩
    · refine ⟨start, parts, written, solved, added,
        fun part member => ⟨low part member, multiplicity part member⟩, ?_⟩
      have below := map_ne_zero_ratFunc nonzero
      rw [div_eq_iff below, division, map_add, map_mul, sum]
      ring
    · have values := function.value ρ proper
      refine ⟨values.1, values.2.trans ?_⟩
      have fractions := eval_div_eq_sum sum divides proper
      rw [division, Polynomial.eval_add, Polynomial.eval_mul, add_div, mul_div_cancel_right₀ _ proper]
      exact congrArg _ fractions.symm
  · exact .inr refused

theorem mainVariable?_some (e : Expr) (x : String) : e.mainVariable? (some x) = some x := rfl

/-- The steps of a decomposition: each of them stops only as is accepted, and there is a solution for the
numerators. -/
theorem meets_partfrac {accepts : Fault → Prop} {post : Expr → Prop} {found : Factors → Prop}
    (interrupted : ∀ fault, Interrupted context fault → accepts fault) (isOpen : e.checkOpen = .ok ())
    (combined : ∀ guard, Opens context guard →
      Meets (block context guard) (Interrupted (block context guard)) e.together fun parts =>
        Meets (block context guard) (Interrupted (block context guard)) (parts.1.poly? x) (· = some p) ∧
          Meets (block context guard) (Interrupted (block context guard)) (parts.2.poly? x) (· = some q))
    (proper : 1 ≤ q.degree) (undivided : ¬ q.toPolynomial ∣ p.toPolynomial)
    (refuses : ∀ fault, (quot p q).toExpr x = .error fault → accepts fault)
    (finds : ∀ guard, Opens context guard →
      Meets (block context guard) accepts q.findFactors fun answer => found answer.2)
    (sums : ∀ start factors, (quot p q).toExpr x = .ok start → found factors →
      ∃ parts, partialNumerators? (rem p q) q factors = some parts ∧
        (∀ r, addFractions x start parts = .ok r → post r) ∧
          ∀ fault, addFractions x start parts = .error fault → accepts fault) :
    Meets context accepts (e.partfrac (some x)) post := by
  have nonzero := toPolynomial_ne_zero_of_degree (not_lt.mpr proper)
  refine meets_guarded interrupted fun guard opens => ?_
  have stops (fault : Fault) (stopped : Interrupted (block context guard) fault) : accepts fault :=
    interrupted fault (stopped.of_block opens)
  refine Meets.bind _ (Meets.of_ok isOpen) fun _ _ => ?_
  rw [mainVariable?_some]
  dsimp only
  refine Meets.bind _ ((combined guard opens).accept stops) fun parts readable => ?_
  refine Meets.bind _ (readable.1.accept stops) ?_
  rintro _ rfl
  refine Meets.bind _ (readable.2.accept stops) ?_
  rintro _ rfl
  dsimp only
  rw [if_neg (not_lt.mpr proper)]
  refine Meets.bind _ ((meets_division nonzero).accept stops) ?_
  rintro _ rfl
  have remains : (quotRem p q).2.isZero = false := by
    rw [← Bool.not_eq_true]
    exact fun zero => undivided ((rem_isZero_iff p nonzero).mp zero)
  refine Meets.bind ((quot p q).toExpr x = .ok ·) (Meets.lift (fun _ => id) refuses) fun start written => ?_
  rw [remains]
  refine Meets.bind _ (finds guard opens) fun answer known => ?_
  refine Meets.bind _ ((meets_pollSteps _).accept stops) fun _ _ => ?_
  obtain ⟨parts, solved, returns, fails⟩ := sums start answer.2 written known
  rw [show partialNumerators? (quotRem p q).2 q answer.2 = some parts from solved]
  exact Meets.lift returns fails

/-- Partial fractions of an expression that is a fraction of polynomials: whichever factors are found,
there is one solution for the numerators, and the fractions add up to the expression unless a limit stops
that. -/
theorem partfrac_decomposes (named : Identifier x) (unknown : isVariableName x = true)
    (combined : Yields source e.together (numerator, denominator))
    (above : Yields source (numerator.poly? x) (some p)) (below : Yields source (denominator.poly? x) (some q))
    (proper : 1 ≤ q.degree) (undivided : ¬ q.toPolynomial ∣ p.toPolynomial) :
    (∀ limit, Regular q (q.factorization limit).2) ∧
      Meets context (Undecomposed context x p q) (e.partfrac (some x)) fun r =>
        ∃ factors, Finds context q factors ∧ Decomposes x p q factors r := by
  have nonzero := toPolynomial_ne_zero_of_degree (not_lt.mpr proper)
  refine ⟨fun limit => regular_of_split nonzero (factorization_split limit nonzero), ?_⟩
  refine meets_partfrac (fun _ => .interrupted) (checkOpen_of_together combined) (fun guard _ => ?_) proper
    undivided (fun fault refused => ?_) (fun guard opens => (meets_findFactors opens q).accept ?_)
    fun start factors written finds => ?_
  · refine (repeatable_together e combined _).imp ?_
    rintro _ rfl
    exact ⟨repeatable_poly? numerator x above _, repeatable_poly? denominator x below _⟩
  · rcases toExpr_outcome named unknown (quot p q) with ⟨start, written, -⟩ | ⟨other, long⟩
    · cases written.symm.trans refused
    · cases other.symm.trans refused
      exact .degree (long.trans (natDegree_quot_le p nonzero))
  · rintro fault (stops | refused)
    · exact .interrupted stops
    · exact .unlimited refused
  · rcases toExpr_outcome named unknown (quot p q) with ⟨_, same, represents⟩ | ⟨refused, -⟩
    · obtain rfl := Except.ok.inj (same.symm.trans written)
      obtain ⟨parts, solved, outcome⟩ := addFractions_decomposes named unknown nonzero finds written represents
      refine ⟨parts, solved, fun r added => ?_, fun fault failed => ?_⟩
      · rcases outcome with ⟨_, other, decomposes⟩ | ⟨refused, -⟩
        · obtain rfl := Except.ok.inj (other.symm.trans added)
          exact ⟨factors, finds, decomposes⟩
        · cases added.symm.trans refused
      · rcases outcome with ⟨_, other, -⟩ | ⟨refused, stops⟩
        · cases failed.symm.trans other
        · cases failed.symm.trans refused
          exact stops
    · cases written.symm.trans refused

def fractionCoefficients (e : Expr) (x : String) : Engine (Option (List ℚ) × Option (List ℚ)) := do
  let parts ← e.together
  let p? ← parts.1.poly? x
  let q? ← parts.2.poly? x
  return (p?.map Poly.coefficients, q?.map Poly.coefficients)

theorem exists_fraction {above below : List ℚ}
    (answer : ((fractionCoefficients e x context).run.run 0).1.toOption = some (some above, some below)) :
    ∃ numerator denominator, Yields context e.together (numerator, denominator) ∧
      Yields context (numerator.poly? x) (some (ofList above)) ∧
      Yields context (denominator.poly? x) (some (ofList below)) := by
  obtain ⟨last, run⟩ := exists_run answer
  obtain ⟨⟨numerator, denominator⟩, combined, rest⟩ := Yields.bind ⟨0, last, run⟩
  obtain ⟨p?, readAbove, rest⟩ := rest.bind
  obtain ⟨q?, readBelow, looks, later, returned⟩ := rest.bind
  obtain ⟨sameAbove, sameBelow⟩ := Prod.mk.inj (Except.ok.inj (congrArg Prod.fst returned))
  exact ⟨numerator, denominator, combined, eq_ofList sameAbove ▸ readAbove, eq_ofList sameBelow ▸ readBelow⟩

/-- The cube of `x` over the square of `x+1`. -/
theorem cube_over_square_decomposes :
    ∃ factors r, Yields ⟨Session.initial.scope, callWithin maxCallDepth⟩
        ((product 1 [symbol 1 "x" 3, sum 1 [bare "x", number 1] (-2)]).partfrac (some "x")) r ∧
      Decomposes "x" (ofList [0, 0, 0, 1]) (ofList [1, 2, 1]) factors r := by
  set context : Context := ⟨Session.initial.scope, callWithin maxCallDepth⟩
  set e := product 1 [symbol 1 "x" 3, sum 1 [bare "x", number 1] (-2)]
  obtain ⟨numerator, denominator, combined, above, below⟩ :=
    @exists_fraction context e "x" [0, 0, 0, 1] [1, 2, 1] (by decide +kernel)
  obtain ⟨r, found⟩ := Option.isSome_iff_exists.mp
    (show ((e.partfrac (some "x") context).run.run 0).1.toOption.isSome = true by decide +kernel)
  have nonzero : (ofList [1, 2, 1]).toPolynomial ≠ 0 := by
    rw [ne_eq, ← isZero_iff]
    decide
  have undivided : ¬ (ofList [1, 2, 1]).toPolynomial ∣ (ofList [0, 0, 0, 1]).toPolynomial := by
    rw [← rem_isZero_iff _ nonzero]
    decide +kernel
  clear_value context e
  obtain ⟨later, run⟩ := exists_run found
  obtain ⟨factors, -, result⟩ := (@partfrac_decomposes context context e numerator denominator "x" _ _
    (by decide) (by decide) combined above below (by decide) undivided).2.returned run
  exact ⟨factors, r, ⟨0, later, run⟩, result⟩

/-- `x/(10^2200*(x^2+1))+10^2200/(x^2+1)`; over the common denominator the numerator is `x+10^4400`, up to
a factor. -/
def unevenFraction : Expr :=
  let m : ℚ := (10 ^ 2200 : ℕ)
  let below := sum 1 [symbol 1 "x" 2, number 1] (-1)
  sum m⁻¹ [product 1 [bare "x", below], below.withCoeff (m * m)] 1

/-- A numerator with too many digits: nothing is returned. -/
theorem uneven_fraction_not_decomposed :
    ∃ numerator denominator p q,
      Yields ⟨Session.initial.scope, callWithin maxCallDepth⟩ unevenFraction.together
        (numerator, denominator) ∧
      Yields ⟨Session.initial.scope, callWithin maxCallDepth⟩ (numerator.poly? "x") (some p) ∧
      Yields ⟨Session.initial.scope, callWithin maxCallDepth⟩ (denominator.poly? "x") (some q) ∧
      1 ≤ q.degree ∧ ¬ q.toPolynomial ∣ p.toPolynomial ∧
      ¬ ∃ r later, (unevenFraction.partfrac (some "x")
        ⟨Session.initial.scope, callWithin maxCallDepth⟩).run.run 0 = (.ok r, later) := by
  set context : Context := ⟨Session.initial.scope, callWithin maxCallDepth⟩
  obtain ⟨numerator, denominator, combined, above, below⟩ :=
    @exists_fraction context unevenFraction "x" [(10 ^ 2200 : ℕ), ((10 ^ 2200 : ℕ) : ℚ)⁻¹] [1, 0, 1] (by decide +kernel)
  have failed : ((unevenFraction.partfrac (some "x") context).run.run 0).1.toOption.isNone = true := by decide +kernel
  have nonzero : (ofList [1, 0, 1]).toPolynomial ≠ 0 := by
    rw [ne_eq, ← isZero_iff]
    decide
  refine ⟨numerator, denominator, _, _, combined, above, below, by decide, ?_, ?_⟩
  · rw [← rem_isZero_iff _ nonzero]
    decide +kernel
  · clear_value context
    rintro ⟨r, later, run⟩
    rw [run] at failed
    cases failed

end Expr
end ExactAlgebra
