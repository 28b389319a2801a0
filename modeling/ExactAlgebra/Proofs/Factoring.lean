import ExactAlgebra.Proofs.CommonFactors
import ExactAlgebra.Proofs.Decomposition
import ExactAlgebra.Proofs.PolynomialsInOne
import ExactAlgebra.Proofs.PrimitiveFactors
import Mathlib

/-! The factored form of a polynomial. It stands for the same polynomial, so it expands to the same text.
Factors that all terms share go out first, then a sum in one unknown is taken apart over the rationals. What
stops that is a key that cannot be written out of a factor that was found. -/
namespace ExactAlgebra.Expr
open Engine
open ExactAlgebra.Poly (Finds Factors IsUnlimited)

variable {context : Context} {a b e f r : Expr} {q s : MvPolynomial String ℚ} {x : String} {c : ℚ}

def HasLongFactor (e : Expr) : Prop := ∃ f ∈ e.factors, f.hasBaseKey = false

theorem not_hasLongFactor_number (c : ℚ) : ¬ HasLongFactor (number c) := by
  rintro ⟨f, member, -⟩
  cases member

/-- Polynomials are multiplied, unless a factor of one of them is too long. -/
theorem Denotes.mul_outcome (denotesA : Denotes q a) (denotesB : Denotes s b) :
    (∃ r, mul a b = .ok r ∧ Denotes (q * s) r ∧ (HasLongFactor r → HasLongFactor a ∨ HasLongFactor b)) ∨
      (mul a b = .error .unsupported ∧ (HasLongFactor a ∨ HasLongFactor b)) := by
  have parts {f : Expr} (member : f ∈ a.factors ++ b.factors) (keyless : f.hasBaseKey = false) :
      HasLongFactor a ∨ HasLongFactor b :=
    (List.mem_append.mp member).imp (fun left => ⟨f, left, keyless⟩) fun right => ⟨f, right, keyless⟩
  rcases (Kind.lawful_ofScheme .polynomial).mul denotesA.poly.formed denotesB.poly.formed denotesA.poly.built
    denotesB.poly.built with ⟨refused, f, member, keyless⟩ | ⟨r, returned, multiplies⟩
  · exact .inr ⟨refused, parts member keyless⟩
  · obtain ⟨poly, value⟩ := denote_mul denotesA.poly denotesB.poly returned
    refine .inl ⟨r, returned, ⟨poly, by rw [value, denotesA.value, denotesB.value]⟩, ?_⟩
    rintro ⟨f, member, keyless⟩
    obtain ⟨g, inside, keyless⟩ := multiplies.stops f member keyless
    exact parts inside keyless

theorem powers_natCast {n : ℕ} (positive : 1 ≤ n) : Scheme.polynomial.powers n :=
  ⟨Rat.den_natCast n, Nat.cast_pos.mpr positive⟩

/-- A polynomial with nothing but a sign in front is raised to a power. -/
theorem Denotes.powRat_of_sign (denotes : Denotes q a) (sign : a.coeff = 1 ∨ a.coeff = -1) {n : ℕ} (positive : 1 ≤ n) :
    ∃ r, a.powRat n = .ok r ∧ Denotes (q ^ n) r ∧ (HasLongFactor r → HasLongFactor a) := by
  have power := powers_natCast positive
  have closed (k : ℚ) (powerK : Scheme.polynomial.powers k) : Scheme.polynomial.powers (k * n) :=
    ⟨(mul_num powerK.1 power.1).2, mul_pos powerK.2 power.2⟩
  rcases powRat_built denotes.poly.formed denotes.poly.built power.1 closed with
    ⟨large, -⟩ | ⟨-, low⟩ | ⟨r, returned, raises⟩
  · exact absurd large (not_tooLarge_sign sign n)
  · exact absurd power.2 low.not_gt
  refine ⟨r, returned, ?_, ?_⟩
  · rcases denotes.powRat power with large | ⟨other, same, raised⟩
    · cases large.symm.trans returned
    · cases same.symm.trans returned
      rwa [Rat.num_natCast, Int.toNat_natCast] at raised
  · rintro ⟨f, member, keyless⟩
    obtain ⟨g, inside, same⟩ := raises.keyed f member
    exact ⟨g, inside, same ▸ keyless⟩

theorem mem_freeNames : x ∈ e.freeNames ↔ x ∈ e.names ∧ isVariableName x = true := by
  rw [freeNames, sortNames, List.mem_eraseDups, List.mem_mergeSort, List.mem_filter]

/-- The only unknown of a polynomial. -/
theorem IsPolynomial.in_single (poly : IsPolynomial e) (single : e.freeNames = [x]) :
    IsPolynomialIn x e ∧ Identifier x ∧ isVariableName x = true := by
  obtain ⟨member, unknown⟩ := mem_freeNames.mp (single ▸ List.mem_singleton_self x : x ∈ e.freeNames)
  refine ⟨.of_variables poly fun name inside named => ?_, (poly.spelled x member).1, unknown⟩
  exact List.mem_singleton.mp (single ▸ mem_freeNames.mpr ⟨inside, named⟩)

/-- A factor that cannot be written out, or that has a key that cannot be. -/
def LongFactor (x : String) (factor : Poly) : Prop :=
  Rational.digitBound ≤ factor.toPolynomial.natDegree ∨ ∃ s, factor.toExpr x = .ok s ∧ HasLongFactor s

/-- The factors of a polynomial are multiplied, unless one of them is too long. -/
theorem ofPolyFactors_outcome (named : Identifier x) (unknown : isVariableName x = true) (c : ℚ) {factors : Factors}
    (primitive : ∀ f ∈ factors, f.1.IsPrimitive) (multiplicity : ∀ f ∈ factors, 1 ≤ f.2) :
    (∃ r, ofPolyFactors x c factors = .ok r ∧ Denotes (inUnknown x (Polynomial.C c * factors.product)) r) ∨
      (ofPolyFactors x c factors = .error .unsupported ∧ ∃ f ∈ factors, LongFactor x f.1) := by
  suffices loop : ∀ rest, rest ⊆ factors → ∀ {P a}, Denotes (inUnknown x P) a →
      (HasLongFactor a → ∃ f ∈ factors, LongFactor x f.1) →
      (∃ r, rest.foldlM (fun result f => do mul result (← (← f.1.toExpr x).powRat f.2)) a = .ok r ∧
        Denotes (inUnknown x (P * Factors.product rest)) r) ∨
      (rest.foldlM (fun result f => do mul result (← (← f.1.toExpr x).powRat f.2)) a = .error .unsupported ∧
        ∃ f ∈ factors, LongFactor x f.1) by
    refine loop factors (List.Subset.refl _) ?_ fun long => absurd long (not_hasLongFactor_number c)
    rw [inUnknown, Polynomial.aeval_C, MvPolynomial.algebraMap_eq]
    exact denotes_number c
  intro rest
  induction rest with
  | nil =>
    intro _ P a denotes _
    refine .inl ⟨a, rfl, ?_⟩
    rwa [Factors.product, List.map_nil, List.prod_nil, mul_one]
  | cons factor rest ih =>
    intro inside P a denotes long
    obtain ⟨p, n⟩ := factor
    have member : (p, n) ∈ factors := inside List.mem_cons_self
    rw [List.foldlM_cons]
    rcases toExpr_outcome named unknown p with ⟨base, written, represents⟩ | ⟨refused, high⟩
    · have denotesBase : Denotes (inUnknown x p.toPolynomial) base := ⟨represents.expanded.isPolynomial, represents.value⟩
      obtain ⟨power, raised, denotesPower, keys⟩ :=
        denotesBase.powRat_of_sign (represents.coeff_eq_or (primitive _ member)) (multiplicity _ member)
      have longPower (long : HasLongFactor power) : ∃ f ∈ factors, LongFactor x f.1 :=
        ⟨_, member, .inr ⟨base, written, keys long⟩⟩
      have step : (do mul a (← (← p.toExpr x).powRat n) : Except Fault Expr) = mul a power := by
        rw [written]
        change (base.powRat n >>= fun power => mul a power) = _
        rw [raised]
        rfl
      dsimp only
      rw [step]
      rcases denotes.mul_outcome denotesPower with ⟨product, multiplied, denotesProduct, factor⟩ | ⟨refused, factor⟩
      · rw [multiplied]
        have later := ih (fun f after => inside (List.mem_cons_of_mem _ after)) (P := P * p.toPolynomial ^ n) (a := product)
          (by rwa [inUnknown, map_mul, map_pow]) fun high => (factor high).elim long longPower
        rwa [mul_assoc, ← Factors.product_cons (p, n)] at later
      · rw [refused]
        exact .inr ⟨rfl, factor.elim long longPower⟩
    · dsimp only
      rw [refused]
      exact .inr ⟨rfl, _, member, .inl high⟩

/-- What is factored on the way to the factored form of an expression: the factors of a product, the base of a
power, and what a sum leaves besides the common factor. -/
inductive Visits (e : Expr) : Expr → Prop
  | self : Visits e e
  | factor {c : ℚ} {factors : List Expr} {f : Expr} (visits : Visits e (product c factors)) (member : f ∈ factors) :
    Visits e f
  | base {c p : ℚ} {terms : List Expr} (visits : Visits e (sum c terms p)) (power : p ≠ 1) :
    Visits e (sum 1 terms 1)
  | rest {c : ℚ} {terms : List Expr} {common rest : Expr} (visits : Visits e (sum c terms 1))
    (shared : commonFactor (sum c terms 1).spreadTerms = .ok common) (proper : common.isOne = false)
    (divided : besides common (sum c terms 1).spreadTerms = .ok rest) : Visits e rest

def FactorsTo (context : Context) (e r : Expr) : Prop :=
  ∃ guard n, Opens context guard ∧ Yields (block context guard) (factorWithin n e) r

/-- Something too long to be written out is met: a factor in the factored form of a part, the degree of a part,
or a factor of its polynomial. -/
inductive HasLongPart (context : Context) (e : Expr) : Prop
  | factored {f r : Expr} (visits : Visits e f) (returned : FactorsTo context f r) (long : HasLongFactor r)
  | degree {f : Expr} (visits : Visits e f) (long : Rational.digitBound ≤ f.formalDegree)
  | polynomial {f : Expr} {x : String} {p : Poly} {factors : Factors} (visits : Visits e f)
    (single : f.freeNames = [x]) (read : p.toPolynomial = inOne f) (finds : Finds context p factors)
    (long : ∃ factor ∈ factors, LongFactor x factor.1)

/-- What stops factoring: a deadline, a limit on candidates that is no number, a power of a number with too
many digits, or something too long to be written out. -/
inductive FactoringStopped (context : Context) (e : Expr) : Fault → Prop
  | interrupted {fault : Fault} (interrupted : Interrupted context fault) : FactoringStopped context e fault
  | unlimited {fault : Fault} (refused : IsUnlimited context fault) : FactoringStopped context e fault
  | large : FactoringStopped context e (.powerTooLarge maxIntegerBits)
  | long (long : HasLongPart context e) : FactoringStopped context e .unsupported

variable {guard : Deadline.Guard} {whole : Expr}

theorem meets_factorUnivariate (opens : Opens context guard) (visits : Visits whole e) (poly : IsPolynomial e) :
    Meets (block context guard) (FactoringStopped context whole) e.factorUnivariate (Denotes (denote e)) := by
  have same : Denotes (denote e) e := ⟨poly, rfl⟩
  unfold factorUnivariate
  split
  next x single =>
    obtain ⟨polyIn, named, unknown⟩ := poly.in_single single
    have reads : Meets (block context guard) _ (e.poly? x) _ := polyIn.meets_poly?.and (returns_poly? (x := x) poly)
    refine Meets.bind _ (reads.accept fun fault stopped => ?_) ?_
    · rcases interrupted_of_stopped stopped with interrupted | ⟨rfl, long⟩
      · exact .interrupted (interrupted.of_block opens)
      · exact .long (.degree visits long)
    rintro _ ⟨⟨p, rfl, read⟩, values⟩
    have value : denote e = inUnknown x p.toPolynomial := values p rfl
    dsimp only
    split
    · exact Meets.pure same
    next high =>
    have found := (Poly.meets_findFactors opens p).and ((Poly.meets_factorization p).accept fun _ _ => trivial)
    refine Meets.bind _ (found.accept fun fault stopped => ?_) ?_
    · exact stopped.elim .interrupted .unlimited
    rintro ⟨c, factors⟩ ⟨finds, limit, -, split⟩
    dsimp only
    have factorization := Poly.factorization_isFactorization limit p
    rw [← split] at factorization
    split
    · exact Meets.pure same
    next =>
    rcases ofPolyFactors_outcome named unknown c factorization.primitive factorization.multiplicity with
      ⟨r, returned, denotes⟩ | ⟨refused, long⟩
    · rw [← factorization.product, ← value] at denotes
      refine (Meets.of_ok returned).imp ?_
      rintro _ rfl
      exact denotes
    · rw [refused]
      exact Meets.throw (.long (.polynomial visits single read finds long))
  next => exact Meets.pure same

theorem IsPolynomial.base {p : ℚ} {terms : List Expr} (poly : IsPolynomial (sum c terms p)) :
    IsPolynomial (sum 1 terms 1) := by
  obtain ⟨formed, built⟩ := poly
  cases built with
  | sum each shared power => exact ⟨⟨one_ne_zero, one_ne_zero, formed.2.2⟩, .sum each shared Scheme.polynomial.one⟩

theorem IsPolynomial.each {factors : List Expr} (poly : IsPolynomial (product c factors)) {f : Expr}
    (member : f ∈ factors) : IsPolynomial f := by
  obtain ⟨formed, built⟩ := poly
  cases built with
  | product each => exact ⟨allWellFormed_iff.mp formed.2.2 f member, each f member⟩

def factorSteps (e : Expr) : ℕ := 2 * e.bulk + if e.isPlainSum then 0 else 1

theorem factorSteps_le (e : Expr) : e.factorSteps ≤ 2 * e.bulk + 1 := by
  unfold factorSteps
  split <;> omega

/-- A factor weighs less than the product. -/
theorem bulk_lt_product {factors : List Expr} (poly : IsPolynomial (product c factors)) {f : Expr}
    (member : f ∈ factors) : f.bulk < (product c factors).bulk := by
  have positive : ∀ g ∈ factors, 0 < g.bulk := fun g inside =>
    (plainFactor_factors poly.formed poly.built g ((sortFactors_perm factors).mem_iff.mpr inside)).bulk_pos
  have several := poly.formed.2.1.several
  obtain ⟨before, after, rfl⟩ := List.append_of_mem member
  have others : (before ++ after).length ≤ ((before ++ after).map bulk).sum := by
    rw [← List.length_map bulk]
    refine List.length_le_sum_of_one_le _ fun i inside => ?_
    obtain ⟨g, here, rfl⟩ := List.mem_map.mp inside
    exact positive g (by simp only [List.mem_append, List.mem_cons] at here ⊢; tauto)
  rw [bulk, bulkAll_eq]
  simp only [List.map_append, List.sum_append, List.map_cons, List.sum_cons, List.length_append,
    List.length_cons] at others several ⊢
  omega

/-- The parts of a product are factored one after the other. -/
theorem meets_factorFactors {n : ℕ} {factors : List Expr} (opens : Opens context guard)
    (visits : Visits whole (product c factors))
    (each : ∀ f ∈ factors, Meets (block context guard) (FactoringStopped context whole) (factorWithin n f)
      (Denotes (denote f))) :
    Meets (block context guard) (FactoringStopped context whole)
      (factors.foldlM (fun result f => do mul result (← factorWithin n f)) (number c))
      (Denotes (denote (product c factors))) := by
  rw [denote, denoteProduct_eq]
  refine (Meets.foldlM_prod
    (fun q result => Denotes q result ∧ (HasLongFactor result → HasLongPart context whole)) denote
    ⟨denotes_number c, fun long => absurd long (not_hasLongFactor_number c)⟩ ?_).imp fun r kept => kept.1
  rintro q result ⟨denotes, long⟩ f member
  refine Meets.bind _ ((each f member).with_run.accept fun fault stopped => stopped.1) ?_
  rintro r ⟨denotesR, yields⟩
  have longR (high : HasLongFactor r) : HasLongPart context whole :=
    .factored (visits.factor member) ⟨guard, n, opens, yields⟩ high
  rcases denotes.mul_outcome denotesR with ⟨s, multiplied, denotesS, keys⟩ | ⟨refused, high⟩
  · refine (Meets.of_ok multiplied).imp ?_
    rintro _ rfl
    exact ⟨denotesS, fun high => (keys high).elim long longR⟩
  · rw [refused]
    exact Meets.throw (.long (high.elim long longR))

/-- The factored base is raised to the power. -/
theorem meets_factorPower {n : ℕ} {p : ℚ} {terms : List Expr} (poly : IsPolynomial (sum c terms p))
    (base : Meets (block context guard) (FactoringStopped context whole) (factorWithin n (sum 1 terms 1))
      (Denotes (denote (sum 1 terms 1)))) :
    Meets (block context guard) (FactoringStopped context whole)
      (do
        let powered ← (← factorWithin n (sum 1 terms 1)).powRat p
        return powered.scale c) (Denotes (denote (sum c terms p))) := by
  obtain ⟨formed, built⟩ := poly
  cases built with
  | sum each shared power =>
    have value : denote (sum c terms p) = MvPolynomial.C c * denote (sum 1 terms 1) ^ p.num.toNat := by
      simp [denote]
    refine Meets.bind _ base fun b denotes => ?_
    rcases denotes.powRat power with large | ⟨r, raised, denotesR⟩
    · rw [large]
      exact Meets.throw .large
    · refine Meets.bind _ (Meets.of_ok raised) ?_
      rintro _ rfl
      rw [value]
      exact Meets.pure (denotesR.scale c)

/-- In the context, what is left of the terms is added up as it is outside. -/
theorem meets_besides {common : Expr} {terms : List Expr} {accepts : Fault → Prop}
    (divided : besides common terms = .ok r) :
    Meets context accepts (terms.foldlM (fun rest t => do add rest (← div t common)) zero) (· = r) := by
  rw [besides] at divided
  generalize zero = start at divided ⊢
  induction terms generalizing start with
  | nil =>
    cases divided
    exact Meets.pure rfl
  | cons t rest ih =>
    rw [List.foldlM_cons] at divided ⊢
    obtain ⟨next, step, later⟩ := Outcome.bind_ok divided
    obtain ⟨q, quotient, added⟩ := Outcome.bind_ok step
    refine Meets.bind (· = next) (Meets.bind _ (Meets.of_ok quotient) ?_) ?_
    · rintro _ rfl
      exact Meets.of_ok added
    · rintro next rfl
      exact ih next later

/-- The common factor is taken out of a sum, and the rest is factored. -/
theorem meets_factorSum {n : ℕ} {terms : List Expr} (opens : Opens context guard)
    (visits : Visits whole (sum c terms 1)) (poly : IsPolynomial (sum c terms 1))
    (lighter : ∀ rest, Visits whole rest → IsPolynomial rest → rest.bulk < (sum c terms 1).bulk →
      Meets (block context guard) (FactoringStopped context whole) (factorWithin n rest) (Denotes (denote rest))) :
    Meets (block context guard) (FactoringStopped context whole)
      (do
        let common ← commonFactor (sum c terms 1).spreadTerms
        if common.isOne then factorUnivariate (sum c terms 1)
        else
          let rest ← (sum c terms 1).spreadTerms.foldlM (fun rest t => do add rest (← div t common)) zero
          mul common (← factorWithin n rest)) (Denotes (denote (sum c terms 1))) := by
  obtain ⟨common, shared, commonTo, takes⟩ := takesOut_outcome poly
  refine Meets.bind _ (Meets.of_ok shared) ?_
  rintro common rfl
  cases proper : common.isOne with
  | true => exact meets_factorUnivariate opens visits poly
  | false =>
    obtain ⟨rest, divided, takesOut⟩ := takes proper
    refine Meets.bind _ (meets_besides divided) ?_
    rintro rest rfl
    have visitsRest : Visits whole rest := visits.rest shared proper divided
    refine Meets.bind _ ((lighter rest visitsRest takesOut.polyRest takesOut.lighter).with_run.accept
      fun fault stopped => stopped.1) ?_
    rintro r ⟨denotes, yields⟩
    have denotesCommon : Denotes (denote common) common := ⟨takesOut.polyCommon, rfl⟩
    rcases denotesCommon.mul_outcome denotes with ⟨s, multiplied, denotesS, -⟩ | ⟨refused, high⟩
    · refine (Meets.of_ok multiplied).imp ?_
      rintro _ rfl
      rwa [takesOut.value] at denotesS
    · have keyed : ¬ HasLongFactor common := by
        rintro ⟨f, member, keyless⟩
        cases (commonTo.keyed f member).symm.trans keyless
      rw [refused]
      exact Meets.throw (.long (.factored visitsRest ⟨guard, n, opens, yields⟩ (high.resolve_left keyed)))

theorem factorWithin_plain (n : ℕ) (c : ℚ) (terms : List Expr) : factorWithin (n + 1) (sum c terms 1) = (do
    poll
    let common ← commonFactor (sum c terms 1).spreadTerms
    if common.isOne then factorUnivariate (sum c terms 1)
    else
      let rest ← (sum c terms 1).spreadTerms.foldlM (fun rest t => do add rest (← div t common)) zero
      mul common (← factorWithin n rest)) := by
  rw [factorWithin, if_neg (by simp)]

/-- Factoring keeps the polynomial, and comes to an end within the steps. -/
theorem meets_factorWithin {n : ℕ} (opens : Opens context guard) (visits : Visits whole e) (poly : IsPolynomial e)
    (enough : e.factorSteps < n) :
    Meets (block context guard) (FactoringStopped context whole) (factorWithin n e) (Denotes (denote e)) := by
  induction n generalizing e with
  | zero => omega
  | succ n ih =>
    have polls : Meets (block context guard) (FactoringStopped context whole) poll fun _ => True :=
      Engine.meets_poll.accept fun fault stopped => .interrupted (stopped.of_block opens)
    cases e with
    | product c factors =>
      rw [factorWithin]
      refine Meets.bind _ polls fun _ _ => meets_factorFactors opens visits fun f member =>
        ih (visits.factor member) (poly.each member) ?_
      have lighter := bulk_lt_product poly member
      have steps := factorSteps_le f
      rw [factorSteps] at enough
      omega
    | sum c terms p =>
      by_cases power : p = 1
      · subst power
        rw [factorWithin_plain]
        refine Meets.bind _ polls fun _ _ => meets_factorSum opens visits poly fun rest visitsRest polyRest lighter =>
          ih visitsRest polyRest ?_
        have steps := factorSteps_le rest
        rw [factorSteps] at enough
        omega
      · rw [factorWithin, if_pos power]
        refine Meets.bind _ polls fun _ _ => meets_factorPower poly (ih (visits.base power) poly.base ?_)
        simp only [factorSteps, bulk, isPlainSum, beq_self_eq_true, if_true, beq_iff_eq, power, if_false] at enough ⊢
        omega
    | number c => exact Meets.bind _ polls fun _ _ => Meets.pure ⟨poly, rfl⟩
    | symbol c name p => exact Meets.bind _ polls fun _ _ => Meets.pure ⟨poly, rfl⟩
    | call | exponential | foreign => cases poly.built

/-- The factored form of a polynomial is a polynomial in normal form that denotes the same, and expands to the
same text. -/
theorem factor_keeps_polynomial (poly : IsPolynomial e) (context : Context) :
    Meets context (FactoringStopped context e) e.factor fun r =>
      IsPolynomial r ∧ denote r = denote e ∧ ∀ {here there : Context} {a b : Expr},
        Yields here (expand e) a → Yields there (expand r) b → b.render = a.render := by
  refine meets_guarded (fun fault => .interrupted) fun guard opens => ?_
  have weight := bulk_le_size e
  have steps := factorSteps_le e
  refine (meets_factorWithin opens .self poly (by omega)).imp ?_
  rintro r ⟨polyR, value⟩
  refine ⟨polyR, value, fun {here there a b} expandsE expandsR => ?_⟩
  have first := (meets_expand poly).yielded expandsE
  have second := (meets_expand polyR).yielded expandsR
  exact (second.expanded.similar first.expanded (by rw [second.value, first.value, value])).render

/-- The difference of two cubes. -/
theorem factor_of_difference :
    let e := sum 1 [symbol 1 "x" 3, number (-1)] 1
    IsPolynomial e ∧ ∃ r, runIn Session.initial.scope e.factor = .ok r ∧ r.render = .ok "(x-1)*(x^2+x+1)" ∧
      IsPolynomial r ∧ denote r = MvPolynomial.X "x" ^ 3 - 1 := by
  intro e
  have poly : IsPolynomial e := by
    refine ⟨by decide +kernel, .sum (fun t member => ?_) (fun _ _ => trivial) Scheme.polynomial.one⟩
    rcases List.mem_cons.mp member with rfl | later
    · exact .symbol (by decide) ⟨rfl, three_pos⟩
    · obtain rfl := List.mem_singleton.mp later
      exact .number (-1)
  have value : denote e = MvPolynomial.X "x" ^ 3 - 1 := by
    simp [e, denote, denoteSum, sub_eq_add_neg]
  have written : (runIn Session.initial.scope e.factor >>= render).toOption = some "(x-1)*(x^2+x+1)" := by decide +kernel
  obtain ⟨r, returned, text⟩ := Outcome.bind_ok (Outcome.ok_of_toOption written)
  -- With the session left open, the elaborator does not start to run the computations.
  generalize Session.initial.scope = scope at returned ⊢
  obtain ⟨polyR, same, -⟩ := (factor_keeps_polynomial poly _).of_runIn returned
  exact ⟨poly, r, returned, text, polyR, same.trans value⟩

/-- The sum of `x^2*y` and a multiple of `x`; the number cannot be written out. -/
def longMultiple : Expr := sum 1 [product 1 [symbol 1 "x" 2, bare "y"], symbol (Rational.digitBound : ℕ) "x" 1] 1

theorem isPolynomial_longMultiple : IsPolynomial longMultiple := by
  have unknown {name : String} (named : isVariableName name = true) {c p : ℚ} (power : Scheme.polynomial.powers p) :
      BuiltBy .polynomial (symbol c name p) := .symbol named power
  refine ⟨by decide +kernel, .sum (fun t member => ?_) (fun _ _ => trivial) Scheme.polynomial.one⟩
  rcases List.mem_cons.mp member with rfl | later
  · refine .product fun f member => ?_
    rcases List.mem_cons.mp member with rfl | later
    · exact unknown (by decide) ⟨rfl, two_pos⟩
    · obtain rfl := List.mem_singleton.mp later
      exact unknown (by decide) Scheme.polynomial.one
  · obtain rfl := List.mem_singleton.mp later
    exact unknown (by decide) Scheme.polynomial.one

/-- What `x` leaves is a sum in two unknowns whose terms share nothing, and it has no key to be multiplied by. -/
theorem parts_of_longMultiple : ∃ common c terms, commonFactor longMultiple.spreadTerms = .ok common ∧
    common.isOne = false ∧ besides common longMultiple.spreadTerms = .ok (sum c terms 1) ∧
    (∃ inner, commonFactor (sum c terms 1).spreadTerms = .ok inner ∧ inner.isOne = true) ∧
    "x" ∈ (sum c terms 1).freeNames ∧ "y" ∈ (sum c terms 1).freeNames ∧
    ∃ fault, mul common (sum c terms 1) = .error fault := by
  have seen : ((commonFactor longMultiple.spreadTerms).toOption.any fun common =>
      !common.isOne && (besides common longMultiple.spreadTerms).toOption.any fun rest =>
        rest.isPlainSum && (commonFactor rest.spreadTerms).toOption.any isOne && rest.names.contains "x" &&
          rest.names.contains "y" && (mul common rest).toOption.isNone) = true := by decide +kernel
  obtain ⟨common, shared, seen⟩ := (Option.any_eq_true _ _).mp seen
  obtain ⟨proper, seen⟩ := Bool.and_eq_true_iff.mp seen
  obtain ⟨rest, divided, seen⟩ := (Option.any_eq_true _ _).mp seen
  simp only [Bool.and_eq_true, List.contains_iff_mem] at seen
  obtain ⟨⟨⟨⟨plain, alone⟩, first⟩, second⟩, refused⟩ := seen
  obtain ⟨inner, innerShared, one⟩ := (Option.any_eq_true _ _).mp alone
  cases rest with
  | sum c terms p =>
    obtain rfl : p = 1 := by simpa [isPlainSum] using plain
    refine ⟨common, c, terms, Outcome.ok_of_toOption shared, by simpa using proper, Outcome.ok_of_toOption divided,
      ⟨inner, Outcome.ok_of_toOption innerShared, one⟩, mem_freeNames.mpr ⟨first, by decide⟩,
      mem_freeNames.mpr ⟨second, by decide⟩, ?_⟩
    cases outcome : mul common (sum c terms 1) with
    | ok r =>
      rw [outcome] at refused
      cases refused
    | error fault => exact ⟨fault, rfl⟩
  | _ => cases plain

/-- A sum in two unknowns is not taken apart. -/
theorem factorUnivariate_of_two {y : String} (first : x ∈ e.freeNames) (second : y ∈ e.freeNames) (other : x ≠ y) :
    e.factorUnivariate = pure e := by
  unfold factorUnivariate
  split
  next z single =>
    rw [single, List.mem_singleton] at first second
    exact absurd (first.trans second.symm) other
  next => rfl

/-- Its factored form is refused, though no number in it is raised to a power. -/
theorem factor_of_longMultiple_refused :
    IsPolynomial longMultiple ∧ ∀ context : Context,
      Meets context (fun fault => Interrupted context fault ∨ fault = .unsupported) longMultiple.factor
        fun _ => False := by
  refine ⟨isPolynomial_longMultiple, fun context => ?_⟩
  obtain ⟨common, c, terms, shared, proper, divided, ⟨inner, innerShared, one⟩, first, second, fault, refused⟩ :=
    parts_of_longMultiple
  have unsupported : fault = .unsupported := by
    obtain ⟨other, same, commonTo, takes⟩ := takesOut_outcome isPolynomial_longMultiple
    cases same.symm.trans shared
    obtain ⟨rest, also, takesOut⟩ := takes proper
    cases also.symm.trans divided
    have denotes {e : Expr} (poly : IsPolynomial e) : Denotes (denote e) e := ⟨poly, rfl⟩
    rcases (denotes takesOut.polyCommon).mul_outcome (denotes takesOut.polyRest) with ⟨r, returned, -⟩ | ⟨failed, -⟩
    · cases returned.symm.trans refused
    · exact Except.error.inj (refused.symm.trans failed)
  refine meets_guarded (fun fault => .inl) fun guard opens => ?_
  have polls : Meets (block context guard) (fun fault => Interrupted context fault ∨ fault = .unsupported) poll
      fun _ => True := Engine.meets_poll.accept fun fault stopped => .inl (stopped.of_block opens)
  obtain ⟨n, fuel⟩ : ∃ n, 2 * longMultiple.size + 8 = n + 2 := ⟨2 * longMultiple.size + 6, rfl⟩
  rw [factorTree, fuel]
  obtain ⟨k, items, shape⟩ : ∃ k items, longMultiple = sum k items 1 := ⟨_, _, rfl⟩
  rw [shape] at shared divided ⊢
  rw [factorWithin_plain]
  refine Meets.bind _ polls fun _ _ => Meets.bind _ (Meets.of_ok shared) ?_
  rintro common rfl
  rw [proper]
  refine Meets.bind _ (meets_besides divided) ?_
  rintro rest rfl
  refine Meets.bind (· = sum c terms 1) ?_ ?_
  · rw [factorWithin_plain]
    refine Meets.bind _ polls fun _ _ => Meets.bind _ (Meets.of_ok innerShared) ?_
    rintro inner rfl
    rw [if_pos one, factorUnivariate_of_two first second (by decide)]
    exact Meets.pure rfl
  · rintro rest rfl
    rw [refused, unsupported]
    exact Meets.throw (.inr rfl)

end ExactAlgebra.Expr
