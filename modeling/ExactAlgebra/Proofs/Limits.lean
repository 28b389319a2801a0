import ExactAlgebra.Calculus.Limit
import ExactAlgebra.Proofs.PolynomialsInOne
import ExactAlgebra.Proofs.PowerFractions
import Mathlib

/-! Limits of rational functions in one unknown. At a number the multiplicities of the zeros of numerator and
denominator decide, which the rounds of differentiation take away one by one; at infinity the degrees do. -/
namespace ExactAlgebra.Expr
open Engine
open Polynomial (C X derivative)

/-- Put over a common denominator, the expression is a quotient of polynomials in the unknown. -/
structure IsRationalIn (x : String) (e numerator denominator : Expr) : Prop where
  combined : ∃ context, Yields context e.together (numerator, denominator)
  above : IsPolynomialIn x numerator
  below : IsPolynomialIn x denominator
  proper : inOne denominator ≠ 0

/-- The deadline stops a limit at a number, or a power of a number with too many digits, or something that arises
in one of so many differentiations and is too long to be written out. -/
def StopsLimit (context : Context) (x : String) (n : ℕ) (numerator denominator : Expr) (fault : Fault) : Prop :=
  Interrupted context fault ∨ fault = .powerTooLarge maxIntegerBits ∨
    RefusedFor (OverlongWithin x n numerator ∨ OverlongWithin x n denominator) fault

/-- The deadline stops a limit at infinity, or powers that are too long to be written out. -/
def StopsAtInfinity (context : Context) (numerator denominator : Expr) (fault : Fault) : Prop :=
  Interrupted context fault ∨
    RefusedFor (Rational.digitBound ≤ numerator.formalDegree ∨ Rational.digitBound ≤ denominator.formalDegree) fault

/-- There is no limit at the point, which is told if expression and point can be written out. -/
def TellsNoLimit (e : Expr) (x : String) (point : Expr) (fault : Fault) : Prop :=
  (∃ text place, e.render = .ok text ∧ point.render = .ok place ∧ fault = .limitDoesNotExist text x place) ∨
    RefusedFor (e.isLegible = false ∨ point.isLegible = false) fault

/-- There is no limit at infinity, which is told if the expression can be written out. -/
def TellsUnbounded (e : Expr) (x : String) (fault : Fault) : Prop :=
  (∃ text, e.render = .ok text ∧ fault = .limitUnbounded text x) ∨ RefusedFor (e.isLegible = false) fault

variable {context : Context} {x : String} {c : ℚ} {d e numerator denominator : Expr} {accepts : Fault → Prop}

/-- Differentiating as often as the multiplicity of a zero leaves what stands beside the zero, up to a factor. -/
theorem eval_iterate_derivative {p q : Polynomial ℚ} {k : ℕ} (shape : p = (X - C c) ^ k * q) :
    (∀ i < k, (derivative^[i] p).eval c = 0) ∧ (derivative^[k] p).eval c = k.factorial * q.eval c := by
  induction k generalizing p q with
  | zero => simp [shape]
  | succ k ih =>
    have lower : derivative p = (X - C c) ^ k * (C ((k : ℚ) + 1) * q + (X - C c) * derivative q) := by
      rw [shape, Polynomial.derivative_mul, Polynomial.derivative_X_sub_C_pow, Nat.add_sub_cancel]
      push_cast
      ring
    obtain ⟨zeros, value⟩ := ih lower
    constructor
    · intro i below
      cases i with
      | zero => simp [shape]
      | succ i =>
        rw [Function.iterate_succ_apply]
        exact zeros i (by omega)
    · rw [Function.iterate_succ_apply, value, Nat.factorial_succ]
      simp
      ring

/-- The value is the number that is left when a number is put for the unknown. -/
theorem meets_valueAt?_of_substitute {r : ℚ} (interrupted : ∀ fault, Interrupted context fault → accepts fault)
    (other : ∀ fault, accepts fault → fault.isUndefined = false)
    (put : Meets context accepts (e.substitute x (number c)) (· = number r)) :
    Meets context accepts (e.valueAt? x (number c)) (· = some (number r)) := by
  have value : Meets context accepts (do (← e.substitute x (number c)).expand) (· = number r) := by
    refine Meets.bind _ put ?_
    rintro _ rfl
    exact (meets_expand_number r).accept interrupted
  unfold valueAt?
  refine (Meets.attempt value other).imp ?_
  rintro _ ⟨_, rfl, rfl⟩
  rfl

theorem isUndefined_of_interrupted {fault : Fault} (interrupted : Interrupted context fault) :
    fault.isUndefined = false := by
  rcases interrupted.isLimit with kind | kind | kind <;> simp [Fault.isUndefined, Fault.isPole, kind]

/-- At a number a polynomial has its value. -/
theorem meets_valueAt? (poly : IsPolynomialIn x e) (c : ℚ) :
    Meets context (fun fault => Interrupted context fault ∨ fault = .powerTooLarge maxIntegerBits)
      (e.valueAt? x (number c)) (· = some (number ((inOne e).eval c))) := by
  rw [eval_inOne poly.poly.built]
  refine meets_valueAt?_of_substitute (fun _ => .inl) ?_ ((meets_substitute_number poly c).accept fun _ => .inr)
  rintro fault (interrupted | rfl)
  · exact isUndefined_of_interrupted interrupted
  · rfl

theorem OverlongWithin.mono {n m : ℕ} (long : OverlongWithin x n e) (le : n ≤ m) : OverlongWithin x m e := by
  obtain ⟨k, below, g, higher, overlong⟩ := long
  exact ⟨k, below.trans_le le, g, higher, overlong⟩

/-- Differentiating a polynomial, in blocks of the deadline. -/
theorem meets_diff_polynomial (poly : IsPolynomialIn x e) (unknown : isVariableName x = true) :
    Meets context (fun fault => Interrupted context fault ∨ RefusedFor (OverlongWithin x 1 e) fault)
      (e.diff (some x) 1) fun d => IsPolynomialIn x d ∧ inOne d = derivative (inOne e) ∧
        ∀ n, OverlongWithin x n d → OverlongWithin x (n + 1) e := by
  unfold diff
  refine meets_guarded (fun _ => .inl) fun guard _ => ?_
  rw [if_neg (by decide)]
  refine Meets.bind (fun _ => True) ((Meets.of_ok (checkOpen_of_wellFormed poly.poly.formed)).imp fun _ _ => trivial)
    fun _ _ => ?_
  change Meets _ _ (deriveTimes x 1 e) _
  unfold deriveTimes
  split
  next vanishes =>
    obtain rfl := eq_zero_of_isZero vanishes
    exact Meets.pure ⟨poly, by simp [zero], fun n long => long.mono n.le_succ⟩
  next =>
    refine Meets.bind _ ((meets_derive_polynomial poly unknown).accept fun fault refused => .inr
      (refused.imp fun long => ⟨0, one_pos, e, .zero e, long⟩)) ?_
    rintro d ⟨polyD, value, derived⟩
    refine Meets.pure ⟨polyD, value, fun n long => ?_⟩
    obtain ⟨k, below, g, higher, overlong⟩ := long
    exact ⟨k + 1, Nat.succ_lt_succ below, g, .succ derived higher, overlong⟩

/-- As long as numerator and denominator vanish, both are differentiated. -/
theorem meets_rounds {post : Option Expr → Prop} (unknown : isVariableName x = true) (n r : ℕ)
    (above : IsPolynomialIn x numerator) (below : IsPolynomialIn x denominator)
    (vanish : ∀ i < r, (derivative^[i] (inOne numerator)).eval c = 0 ∧ (derivative^[i] (inOne denominator)).eval c = 0)
    (stops : ∀ fault, StopsLimit context x r numerator denominator fault → accepts fault)
    (rest : ∀ f g, IsPolynomialIn x f → IsPolynomialIn x g → inOne f = derivative^[r] (inOne numerator) →
      inOne g = derivative^[r] (inOne denominator) → Meets context accepts (limitOfQuotient e x (number c) n f g) post) :
    Meets context accepts (limitOfQuotient e x (number c) (n + r) numerator denominator) post := by
  induction r generalizing numerator denominator with
  | zero => exact rest _ _ above below rfl rfl
  | succ r ih =>
    have early (fault : Fault) (stopped : Interrupted context fault ∨ fault = .powerTooLarge maxIntegerBits) :
        accepts fault := stops fault (stopped.imp_right .inl)
    obtain ⟨top, bottom⟩ := vanish 0 r.succ_pos
    rw [Function.iterate_zero_apply] at top bottom
    rw [← Nat.add_assoc, limitOfQuotient]
    refine Meets.bind _ (Engine.meets_poll.accept fun _ interrupted => early _ (.inl interrupted)) fun _ _ => ?_
    refine Meets.bind _ ((meets_valueAt? above c).accept early) ?_
    rintro _ rfl
    refine Meets.bind _ ((meets_valueAt? below c).accept early) ?_
    rintro _ rfl
    rw [top, bottom]
    refine Meets.bind _ ((meets_diff_polynomial above unknown).accept fun fault stopped => ?_) ?_
    · exact stops fault (stopped.imp_right fun refused => .inr (refused.imp fun long => .inl (long.mono (by omega))))
    rintro f ⟨polyF, valueF, longF⟩
    refine Meets.bind _ ((meets_diff_polynomial below unknown).accept fun fault stopped => ?_) ?_
    · exact stops fault (stopped.imp_right fun refused => .inr (refused.imp fun long => .inr (long.mono (by omega))))
    rintro g ⟨polyG, valueG, longG⟩
    refine ih polyF polyG (fun i small => ?_) (fun fault stopped => stops fault ?_) fun f' g' polyF' polyG' sameF sameG =>
      rest f' g' polyF' polyG' ?_ ?_
    · rw [valueF, valueG, ← Function.iterate_succ_apply, ← Function.iterate_succ_apply]
      exact vanish (i + 1) (by omega)
    · refine stopped.imp_right fun stopped => stopped.imp_right fun refused => refused.imp ?_
      exact Or.imp (longF r) (longG r)
    · rw [sameF, valueF, Function.iterate_succ_apply]
    · rw [sameG, valueG, Function.iterate_succ_apply]

/-- Where the denominator does not vanish, the quotient is the limit. -/
theorem meets_lastRound (n : ℕ) (above : IsPolynomialIn x numerator) (below : IsPolynomialIn x denominator)
    (nonzero : (inOne denominator).eval c ≠ 0) :
    Meets context (fun fault => Interrupted context fault ∨ fault = .powerTooLarge maxIntegerBits)
      (limitOfQuotient e x (number c) (n + 1) numerator denominator)
      (· = some (number ((inOne numerator).eval c / (inOne denominator).eval c))) := by
  rw [limitOfQuotient]
  refine Meets.bind _ (Engine.meets_poll.accept fun _ => .inl) fun _ _ => ?_
  refine Meets.bind _ (meets_valueAt? above c) ?_
  rintro _ rfl
  refine Meets.bind _ (meets_valueAt? below c) ?_
  rintro _ rfl
  dsimp only
  rw [if_pos (by simpa [isZero] using nonzero)]
  refine Meets.bind _ (Meets.of_ok (div_numbers nonzero)) ?_
  rintro _ rfl
  exact Meets.pure rfl

theorem render_eq (e : Expr) : e.render = if e.isLegible then .ok e.text else .error .unsupported := rfl

theorem meets_render (e : Expr) :
    Meets context (RefusedFor (e.isLegible = false)) (liftM e.render) fun text => e.render = .ok text := by
  refine Meets.lift (fun text written => written) fun fault failed => ?_
  rw [render_eq] at failed
  split at failed
  next => cases failed
  next illegible =>
    cases failed
    exact ⟨rfl, Bool.eq_false_iff.mpr illegible⟩

/-- Where only the denominator vanishes, there is no limit. -/
theorem meets_pole {r : ℚ} (n : ℕ) (interrupted : ∀ fault, Interrupted context fault → accepts fault)
    (told : ∀ fault, TellsNoLimit e x (number c) fault → accepts fault)
    (top : Meets context accepts (numerator.valueAt? x (number c)) (· = some (number r)))
    (bottom : Meets context accepts (denominator.valueAt? x (number c)) (· = some zero)) (nonzero : r ≠ 0) :
    Meets context accepts (limitOfQuotient e x (number c) (n + 1) numerator denominator) fun _ => False := by
  rw [limitOfQuotient]
  refine Meets.bind _ (Engine.meets_poll.accept interrupted) fun _ _ => ?_
  refine Meets.bind _ top ?_
  rintro _ rfl
  refine Meets.bind _ bottom ?_
  rintro _ rfl
  dsimp only
  rw [if_neg (by decide), if_pos (by simpa [isZero] using nonzero)]
  generalize number c = place at told ⊢
  refine Meets.bind _ ((meets_render e).accept fun fault refused => told fault (.inr (refused.imp .inl)))
    fun text written => ?_
  refine Meets.bind _ ((meets_render place).accept fun fault refused => told fault (.inr (refused.imp .inr)))
    fun spot writtenSpot => ?_
  exact Meets.throw (told _ (.inl ⟨text, spot, written, writtenSpot, rfl⟩))

theorem meets_together (quotient : IsRationalIn x e numerator denominator) {guard : Deadline.Guard}
    (opens : Opens context guard) :
    Meets (block context guard) (Interrupted context) e.together (· = (numerator, denominator)) := by
  obtain ⟨session, combined⟩ := quotient.combined
  exact (repeatable_together e combined _).accept fun fault interrupted => interrupted.of_block opens

/-- The limit that is found is returned. At a number it is looked for in numerator and denominator. -/
theorem meets_limit {post : Expr → Prop} {point : Expr} (occurs : e.contains x = true)
    (quotient : IsRationalIn x e numerator denominator)
    (interrupted : ∀ fault, Interrupted context fault → accepts fault)
    (infinite : point.isInfinity = true → ∀ guard, Opens context guard → Meets (block context guard) accepts
      (e.limitAtInfinity x) fun r => ∃ s, r = some s ∧ post s)
    (finite : point.isInfinity = false → ∀ guard, Opens context guard → Meets (block context guard) accepts
      (limitOfQuotient e x point maxLimitDepth numerator denominator) fun r => ∃ s, r = some s ∧ post s) :
    Meets context accepts (e.limit x (.expr point)) post := by
  obtain ⟨session, combined⟩ := quotient.combined
  unfold limit
  refine meets_guarded interrupted fun guard opens => ?_
  refine Meets.bind (fun _ => True) ((Meets.of_ok (checkOpen_of_together combined)).imp fun _ _ => trivial)
    fun _ _ => ?_
  rw [occurs, Bool.not_true, if_neg Bool.false_ne_true]
  have given : (Value.expr point).toExpr = .ok point := rfl
  refine Meets.bind _ (Meets.of_ok given) ?_
  rintro _ rfl
  dsimp only
  split
  next infinity =>
    refine Meets.bind _ (infinite infinity guard opens) ?_
    rintro _ ⟨s, rfl, holds⟩
    exact Meets.pure holds
  next number =>
    refine Meets.bind _ ((meets_together quotient opens).accept interrupted) ?_
    rintro _ rfl
    refine Meets.bind _ (finite (Bool.eq_false_iff.mpr number) guard opens) ?_
    rintro _ ⟨s, rfl, holds⟩
    exact Meets.pure holds

/-- At infinity the degrees decide. -/
theorem meets_limitAtInfinity (quotient : IsRationalIn x e numerator denominator) {guard : Deadline.Guard}
    (opens : Opens context guard) :
    Meets (block context guard) (fun fault => StopsAtInfinity context numerator denominator fault ∨
        ((inOne denominator).natDegree < (inOne numerator).natDegree ∧ TellsUnbounded e x fault))
      (e.limitAtInfinity x) fun r => (inOne numerator).natDegree ≤ (inOne denominator).natDegree ∧
        ∃ s, r = some s ∧
          s = if (inOne numerator).natDegree < (inOne denominator).natDegree then zero
            else number ((inOne numerator).leadingCoeff / (inOne denominator).leadingCoeff) := by
  have stops {f : Expr} (long : Rational.digitBound ≤ f.formalDegree → Rational.digitBound ≤ numerator.formalDegree ∨
      Rational.digitBound ≤ denominator.formalDegree) (fault : Fault)
      (stopped : Stopped (block context guard) f.formalDegree fault) :
      StopsAtInfinity context numerator denominator fault := by
    rcases interrupted_of_stopped stopped with interrupted | ⟨rfl, large⟩
    · exact .inl (interrupted.of_block opens)
    · exact .inr ⟨rfl, long large⟩
  unfold limitAtInfinity
  refine Meets.bind _ ((meets_together quotient opens).accept fun fault interrupted => .inl (.inl interrupted)) ?_
  rintro _ rfl
  dsimp only
  refine Meets.bind _ (quotient.above.meets_coeffs?.accept fun fault stopped => .inl (stops .inl fault stopped)) ?_
  rintro _ ⟨top, rfl, -, lengthTop, lastTop⟩
  refine Meets.bind _ (quotient.below.meets_coeffs?.accept fun fault stopped => .inl (stops .inr fault stopped)) ?_
  rintro _ ⟨bottom, rfl, -, lengthBottom, lastBottom⟩
  dsimp only
  rw [List.length_map, List.length_map, lengthTop, lengthBottom]
  simp only [Nat.add_lt_add_iff_right]
  split
  next less => exact Meets.pure ⟨less.le, zero, rfl, rfl⟩
  next notLess =>
    split
    next more =>
      refine Meets.bind _ ((meets_render e).accept fun fault refused =>
        .inr ⟨more, .inr refused⟩) fun text written => ?_
      exact Meets.throw (.inr ⟨more, .inl ⟨text, written, rfl⟩⟩)
    next notMore =>
      have last (cs : List ℚ) : (cs.map number).getLastD zero = number (cs.getLastD 0) := by
        rw [zero, List.getLastD_map]
      have proper : (inOne denominator).leadingCoeff ≠ 0 := Polynomial.leadingCoeff_ne_zero.mpr quotient.proper
      rw [last, last, lastTop, lastBottom]
      refine Meets.bind _ (Meets.of_ok (div_numbers proper)) ?_
      rintro _ rfl
      exact Meets.pure ⟨not_lt.mp notMore, _, rfl, rfl⟩

/-- Where the numerator has a zero of higher order, the limit is zero; where both have one of the same order, what
stands beside them gives the limit. -/
theorem meets_limit_of_multiplicities {p q : Polynomial ℚ} {k m : ℕ} (unknown : isVariableName x = true)
    (occurs : e.contains x = true) (quotient : IsRationalIn x e numerator denominator)
    (below : inOne denominator = (X - C c) ^ m * q) (nonzero : q.eval c ≠ 0) (few : m < maxLimitDepth)
    (above : inOne numerator = (X - C c) ^ k * p) (le : m ≤ k) :
    Meets context (StopsLimit context x m numerator denominator) (e.limit x (.expr (number c)))
      (· = number (if m = k then p.eval c / q.eval c else 0)) := by
  refine meets_limit occurs quotient (fun fault => .inl) (fun infinity => Bool.noConfusion infinity)
    fun _ guard opens => ?_
  obtain ⟨zerosBelow, valueBelow⟩ := eval_iterate_derivative below
  obtain ⟨zerosAbove, valueAbove⟩ := eval_iterate_derivative above
  obtain ⟨n, depth⟩ : ∃ n, maxLimitDepth = n + 1 + m := ⟨maxLimitDepth - (m + 1), by omega⟩
  rw [depth]
  have outside (fault : Fault) (stops : StopsLimit (block context guard) x m numerator denominator fault) :
      StopsLimit context x m numerator denominator fault := stops.imp_left fun interrupted => interrupted.of_block opens
  refine meets_rounds unknown (n + 1) m quotient.above quotient.below
    (fun i small => ⟨zerosAbove i (small.trans_le le), zerosBelow i small⟩) outside
    fun f g polyF polyG sameF sameG => ?_
  have factorial : (m.factorial : ℚ) ≠ 0 := Nat.cast_ne_zero.mpr m.factorial_ne_zero
  have regular : (inOne g).eval c ≠ 0 := by
    rw [sameG, valueBelow]
    exact mul_ne_zero factorial nonzero
  have value : (inOne f).eval c / (inOne g).eval c = if m = k then p.eval c / q.eval c else 0 := by
    rw [sameF, sameG, valueBelow]
    split
    next same => rw [same, valueAbove, ← same, mul_div_mul_left _ _ factorial]
    next other => rw [zerosAbove m (lt_of_le_of_ne le other), zero_div]
  rw [← value]
  refine ((meets_lastRound n polyF polyG regular).accept fun fault stopped => ?_).imp fun r found => ⟨_, found, rfl⟩
  exact outside fault (stopped.imp_right .inl)

/-- Where the denominator has a zero of higher order, there is no limit. -/
theorem meets_limit_of_pole {p q : Polynomial ℚ} {k m : ℕ} (unknown : isVariableName x = true)
    (occurs : e.contains x = true) (quotient : IsRationalIn x e numerator denominator)
    (below : inOne denominator = (X - C c) ^ m * q) (few : m < maxLimitDepth)
    (above : inOne numerator = (X - C c) ^ k * p) (nonzero : p.eval c ≠ 0) (less : k < m) :
    Meets context (fun fault => StopsLimit context x k numerator denominator fault ∨ TellsNoLimit e x (number c) fault)
      (e.limit x (.expr (number c))) fun _ => False := by
  refine meets_limit occurs quotient (fun fault interrupted => .inl (.inl interrupted))
    (fun infinity => Bool.noConfusion infinity) fun _ guard opens => ?_
  obtain ⟨zerosBelow, -⟩ := eval_iterate_derivative below
  obtain ⟨zerosAbove, valueAbove⟩ := eval_iterate_derivative above
  obtain ⟨n, depth⟩ : ∃ n, maxLimitDepth = n + 1 + k := ⟨maxLimitDepth - (k + 1), by omega⟩
  rw [depth]
  have outside (fault : Fault) (stops : StopsLimit (block context guard) x k numerator denominator fault) :
      StopsLimit context x k numerator denominator fault := stops.imp_left fun interrupted => interrupted.of_block opens
  refine meets_rounds unknown (n + 1) k quotient.above quotient.below
    (fun i small => ⟨zerosAbove i small, zerosBelow i (small.trans less)⟩) (fun fault stops => .inl (outside fault stops))
    fun f g polyF polyG sameF sameG => ?_
  have vanishes : (inOne g).eval c = 0 := by rw [sameG, zerosBelow k less]
  have remains : (inOne f).eval c ≠ 0 := by
    rw [sameF, valueAbove]
    exact mul_ne_zero (Nat.cast_ne_zero.mpr k.factorial_ne_zero) nonzero
  have early (fault : Fault)
      (stopped : Interrupted (block context guard) fault ∨ fault = .powerTooLarge maxIntegerBits) :
      StopsLimit context x k numerator denominator fault ∨ TellsNoLimit e x (number c) fault :=
    .inl (outside fault (stopped.imp_right .inl))
  have bottom := (meets_valueAt? polyG c).accept early
  rw [vanishes] at bottom
  exact (meets_pole n (fun fault interrupted => early fault (.inl interrupted)) (fun _ => .inr)
    ((meets_valueAt? polyF c).accept early) bottom remains).imp fun _ => False.elim

/-- The limit of a rational function. At a number the multiplicities `k` and `m` of the zeros of numerator and
denominator are compared, at infinity the degrees. -/
theorem limit_of_rational_function (unknown : isVariableName x = true) (occurs : e.contains x = true)
    (quotient : IsRationalIn x e numerator denominator) (context : Context) :
    (∀ c m q, inOne denominator = (X - C c) ^ m * q → q.eval c ≠ 0 → m < maxLimitDepth →
      (inOne numerator = 0 → Meets context (StopsLimit context x m numerator denominator)
        (e.limit x (.expr (number c))) (· = zero)) ∧
      ∀ k p, inOne numerator = (X - C c) ^ k * p → p.eval c ≠ 0 →
        (m < k → Meets context (StopsLimit context x m numerator denominator)
          (e.limit x (.expr (number c))) (· = zero)) ∧
        (k = m → Meets context (StopsLimit context x m numerator denominator)
          (e.limit x (.expr (number c))) (· = number (p.eval c / q.eval c))) ∧
        (k < m → Meets context
          (fun fault => StopsLimit context x k numerator denominator fault ∨ TellsNoLimit e x (number c) fault)
          (e.limit x (.expr (number c))) fun _ => False)) ∧
    ∀ point, point.isInfinity = true →
      (inOne numerator = 0 ∨ (inOne numerator).natDegree < (inOne denominator).natDegree →
        Meets context (StopsAtInfinity context numerator denominator) (e.limit x (.expr point)) (· = zero)) ∧
      ((inOne numerator).natDegree = (inOne denominator).natDegree →
        Meets context (StopsAtInfinity context numerator denominator) (e.limit x (.expr point))
          (· = number ((inOne numerator).leadingCoeff / (inOne denominator).leadingCoeff))) ∧
      ((inOne denominator).natDegree < (inOne numerator).natDegree →
        Meets context (fun fault => StopsAtInfinity context numerator denominator fault ∨ TellsUnbounded e x fault)
          (e.limit x (.expr point)) fun _ => False) := by
  constructor
  · intro c m q below nonzero few
    have upTo {k : ℕ} {p : Polynomial ℚ} (above : inOne numerator = (X - C c) ^ k * p) (le : m ≤ k) :
        Meets context _ _ _ := meets_limit_of_multiplicities unknown occurs quotient below nonzero few above le
    refine ⟨fun vanishes => ?_, fun k p above remains => ⟨fun less => ?_, ?_, fun less => ?_⟩⟩
    · refine (upTo (by rw [vanishes, mul_zero]) m.le_succ).imp fun r found => ?_
      rw [found, if_neg m.lt_succ_self.ne, zero]
    · refine (upTo above less.le).imp fun r found => ?_
      rw [found, if_neg less.ne, zero]
    · rintro rfl
      simpa using upTo above le_rfl
    · exact meets_limit_of_pole unknown occurs quotient below few above remains less
  · intro point infinite
    have compared : Meets context (fun fault => StopsAtInfinity context numerator denominator fault ∨
        ((inOne denominator).natDegree < (inOne numerator).natDegree ∧ TellsUnbounded e x fault))
        (e.limit x (.expr point)) fun r => (inOne numerator).natDegree ≤ (inOne denominator).natDegree ∧
          r = if (inOne numerator).natDegree < (inOne denominator).natDegree then zero
            else number ((inOne numerator).leadingCoeff / (inOne denominator).leadingCoeff) := by
      refine meets_limit occurs quotient (fun fault interrupted => .inl (.inl interrupted)) (fun _ guard opens => ?_)
        fun finite => absurd (finite.symm.trans infinite) Bool.false_ne_true
      refine (meets_limitAtInfinity quotient opens).imp ?_
      rintro _ ⟨le, s, found, value⟩
      exact ⟨s, found, le, value⟩
    refine ⟨fun small => ?_, fun same => ?_, fun less => ?_⟩
    · refine (compared.accept fun fault stops => stops.resolve_right fun more => ?_).imp ?_
      · rcases small with vanishes | less
        · rw [vanishes, Polynomial.natDegree_zero] at more
          exact Nat.not_lt_zero _ more.1
        · exact less.asymm more.1
      · rintro _ ⟨-, rfl⟩
        split
        next => rfl
        next notLess => rw [small.resolve_right notLess, Polynomial.leadingCoeff_zero, zero_div, zero]
    · refine (compared.accept fun fault stops => stops.resolve_right fun more => more.1.ne' same).imp ?_
      rintro _ ⟨-, rfl⟩
      rw [if_neg same.not_lt]
    · exact (compared.accept fun fault stops => stops.imp_right And.right).imp fun r found => found.1.not_gt less

/-- The limit of `(x^2+2*x+1)/(x+1)` at its zero is zero, and at infinity there is none. -/
theorem limits_of_square_over_root :
    let e := product 1 [sum 1 [symbol 1 "x" 2, symbol 2 "x" 1, number 1] 1, sum 1 [bare "x", number 1] (-1)]
    (∃ numerator denominator, IsRationalIn "x" e numerator denominator) ∧
      runIn Session.initial.scope (e.limit "x" (.expr (number (-1)))) = .ok zero ∧
      ∃ fault, runIn Session.initial.scope (e.limit "x" (.expr (bare "Infinity"))) = .error fault ∧
        fault = .limitUnbounded "(x^2+2*x+1)/(x+1)" "x" ∧ TellsUnbounded e "x" fault := by
  intro e
  set context : Context := ⟨Session.initial.scope, callWithin maxCallDepth⟩
  have occurs : e.contains "x" = true := by decide +kernel
  obtain ⟨parts, found⟩ := Option.isSome_iff_exists.mp
    (show ((e.together context).run.run 0).1.toOption.isSome = true by decide +kernel)
  have shape : ((e.together context).run.run 0).1.toOption.any (fun parts =>
      isSumOf "x" [(1, 2), (2, 1), (1, 0)] parts.1 && isSumOf "x" [(1, 1), (1, 0)] parts.2) = true := by
    decide +kernel
  obtain ⟨r, returned⟩ := Option.isSome_iff_exists.mp
    (show (runIn Session.initial.scope (e.limit "x" (.expr (number (-1))))).toOption.isSome = true by decide +kernel)
  replace returned := Outcome.ok_of_toOption returned
  have refused : (match runIn Session.initial.scope (e.limit "x" (.expr (bare "Infinity"))) with
      | .ok _ => none
      | .error fault => some fault) = some (.limitUnbounded "(x^2+2*x+1)/(x+1)" "x") := by decide +kernel
  generalize outcome : runIn Session.initial.scope (e.limit "x" (.expr (bare "Infinity"))) = result at refused
  clear_value context e
  generalize Session.initial.scope = scope at returned outcome ⊢
  obtain ⟨last, run⟩ := exists_run found
  rw [found, Option.any_some, Bool.and_eq_true] at shape
  obtain ⟨numerator, denominator⟩ := parts
  have above : numerator = sum 1 [symbol 1 "x" 2, symbol 2 "x" 1, number 1] 1 := eq_of_isSumOf shape.1
  have below : denominator = sum 1 [bare "x", number 1] 1 := eq_of_isSumOf shape.2
  have square : inOne numerator = (X - C (-1)) ^ 2 * C 1 := by
    rw [above, inOne_sum]
    simp [map_ofNat C 2]
    ring
  have root : inOne denominator = (X - C (-1)) ^ 1 * C 1 := by
    rw [below, inOne_sum]
    simp [bare]
  have quotient : IsRationalIn "x" e numerator denominator := by
    refine ⟨⟨context, 0, last, run⟩, ?_, ?_, ?_⟩
    · rw [above]
      exact ⟨isPolynomial_square_expanded, fun name member => by simpa [names, namesAll] using member⟩
    · rw [below]
      exact ⟨isPolynomial_succ_x, fun name member => by simpa [bare, names, namesAll] using member⟩
    · rw [root]
      exact mul_ne_zero (pow_ne_zero _ (Polynomial.X_sub_C_ne_zero _)) (Polynomial.C_ne_zero.mpr one_ne_zero)
  obtain ⟨finite, infinite⟩ :=
    limit_of_rational_function (by decide) occurs quotient ⟨scope, callWithin maxCallDepth⟩
  refine ⟨⟨numerator, denominator, quotient⟩, ?_, ?_⟩
  · have regular : (C (1 : ℚ)).eval (-1) ≠ 0 := by simp
    have vanishes := ((finite (-1) 1 (C 1) root regular (by decide)).2 2 (C 1) square regular).1 one_lt_two
    rw [returned, vanishes.of_runIn returned]
  · cases result with
    | ok => cases refused
    | error fault =>
      obtain rfl := Option.some.inj refused
      refine ⟨_, rfl, rfl, ?_⟩
      have degree (n : ℕ) : ((X - C (-1 : ℚ)) ^ n * C 1).natDegree = n := by
        rw [map_one, mul_one, (Polynomial.monic_X_sub_C _).natDegree_pow, Polynomial.natDegree_X_sub_C, mul_one]
      have grows : (inOne denominator).natDegree < (inOne numerator).natDegree := by
        rw [square, root, degree, degree]
        exact one_lt_two
      rcases ((infinite (bare "Infinity") (by decide)).2.2 grows).refused_of_runIn outcome with
        (interrupted | ⟨unsupported, -⟩) | told
      · exact absurd interrupted.isLimit (by simp [IsLimit, Fault.kind])
      · cases unsupported
      · exact told

theorem isPolynomialIn_bare : IsPolynomialIn "x" (bare "x") :=
  ⟨⟨wellFormed_bare (by decide) (by decide), .symbol (by decide) Scheme.polynomial.one⟩, .symbol rfl⟩

/-- A number over the unknown is such a quotient. -/
theorem isRationalIn_reciprocal (nonzero : c ≠ 0) :
    IsRationalIn "x" (symbol c "x" (-1)) (number c) (bare "x") := by
  have single := @PowerSum.single "x" reciprocal (by decide) (by decide) 0 c nonzero
  have free : ∃ free : Context, 0 < free.scope.guard.depth ∧ free.scope.guard.expiry = none :=
    ⟨⟨{ Session.initial.scope with guard := ⟨1, none, ""⟩ }, callWithin maxCallDepth⟩, one_pos, rfl⟩
  obtain ⟨free, opened, unlimited⟩ := free
  have meets : Meets free (Interrupted free) (powerTerm "x" c (reciprocal 0)).together _ :=
    single.meets_together (m := 0) (by decide) (by decide) (by simp) (by simp)
  obtain ⟨⟨top, bottom⟩, combined, above, below⟩ := meets.exists_yields fun fault => not_interrupted opened unlimited
  have start : powerTerm "x" c (reciprocal 0) = symbol c "x" (-1) := by
    simp [powerTerm, reciprocal]
  have sameTop : top = number c := by simpa [descending] using above.eq_single
  have sameBottom : bottom = bare "x" := by simpa [denominator, bare] using below
  rw [start, sameTop, sameBottom] at combined
  refine ⟨⟨free, combined⟩, .number c, isPolynomialIn_bare, ?_⟩
  simp [bare]

theorem isLegible_reciprocal (long : Rational.isWritable c = false) : (symbol c "x" (-1)).isLegible = false := by
  simp [isLegible, face, singleFace, Face.isLegibleTimes, Layout.isWritable, power, Expr.coeff, long]

/-- In a long number over the unknown numerator and denominator have values, but the quotient is too long to be
written out. -/
theorem meets_pole_of_long_number (nonzero : c ≠ 0) (long : Rational.isWritable c = false) (n : ℕ) :
    Meets context (fun fault => Interrupted context fault ∨ fault = .unsupported)
      (limitOfQuotient (symbol c "x" (-1)) "x" (number 0) (n + 1) (number c) (bare "x")) fun _ => False := by
  have other (fault : Fault) (stops : Interrupted context fault ∨ fault = .unsupported) :
      fault.isUndefined = false := by
    rcases stops with interrupted | rfl
    · exact isUndefined_of_interrupted interrupted
    · rfl
  refine meets_pole n (fun _ => .inl) (fun fault tells => ?_)
    (meets_valueAt?_of_substitute (fun _ => .inl) other (Meets.pure rfl))
    (meets_valueAt?_of_substitute (fun _ => .inl) other ?_) nonzero
  · rcases tells with ⟨text, place, written, -⟩ | ⟨refused, -⟩
    · rw [render_eq, isLegible_reciprocal long, if_neg Bool.false_ne_true] at written
      cases written
    · exact .inr refused
  · change Meets _ _ (do return (← (number 0).powRat 1).scale 1 : Engine Expr) _
    rw [powRat_one]
    exact Meets.pure (by rw [scale_number, mul_one])

/-- A number with too many digits over the unknown has no limit at zero, but that is not told. -/
theorem long_number_over_unknown_not_told :
    ∃ m : ℚ, m ≠ 0 ∧ IsRationalIn "x" (symbol m "x" (-1)) (number m) (bare "x") ∧
      inOne (number m) = (X - C 0) ^ 0 * C m ∧ inOne (bare "x") = (X - C 0) ^ 1 * C 1 ∧
      ∀ context, Meets context (fun fault => Interrupted context fault ∨ fault = .unsupported)
        ((symbol m "x" (-1)).limit "x" (.expr zero)) fun _ => False := by
  obtain ⟨n, positive, long⟩ := exists_not_isWritable
  have nonzero : (n : ℚ) ≠ 0 := Nat.cast_ne_zero.mpr positive
  have quotient := isRationalIn_reciprocal nonzero
  refine ⟨n, nonzero, quotient, by simp, by simp [bare], fun context => ?_⟩
  refine meets_limit rfl quotient (fun _ => .inl) (fun infinity => Bool.noConfusion infinity)
    fun _ guard opens => ?_
  refine ((meets_pole_of_long_number nonzero long (maxLimitDepth - 1)).accept fun fault stops => ?_).imp
    fun _ => False.elim
  exact stops.imp_left fun interrupted => interrupted.of_block opens

end ExactAlgebra.Expr
