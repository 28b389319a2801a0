import ExactAlgebra.Algebra.Simplification
import ExactAlgebra.Proofs.ExactRoots
import ExactAlgebra.Proofs.Substitution
import Mathlib

/-! What can interrupt a computation, and the computations on numbers that nothing else stops. Numbers
are expanded, put over a common denominator and simplified to themselves; of these only the last one
writes the number out. -/
namespace ExactAlgebra.Engine

variable {α : Type} {context : Context} {accepts : Fault → Prop} {fault : Fault} {x : Engine α}
  {post : α → Prop} {budget : Datum}

/-- The fault is that of a limit: of time, of the size of a power, or of what can be written out. -/
def IsLimit (fault : Fault) : Prop :=
  fault.kind = .timeout ∨ fault.kind = .outOfRange ∨ fault.kind = .unsupported

theorem isLimit_of_check {guard : Deadline.Guard} {now : ℚ} (expired : guard.check now = .error fault) :
    IsLimit fault := by
  unfold Deadline.Guard.check at expired
  split at expired
  · split at expired
    · cases expired
      exact .inl rfl
    · cases expired
  · cases expired

theorem unsupported_of_compareTo {a : ℚ} (failed : budget.compareTo a = .error fault) :
    fault = .unsupported := by
  cases budget with
  | real value =>
    unfold Datum.compareTo at failed
    dsimp only at failed
    split at failed <;> cases failed
  | flag | whole => cases failed
  | _ =>
    cases failed
    rfl

theorem unsupported_of_measure (failed : budget.measure = .error fault) : fault = .unsupported := by
  cases budget with
  | whole value =>
    unfold Datum.measure Binary64.ofRat at failed
    dsimp only at failed
    split at failed <;> cases failed
    rfl
  | flag | real => cases failed
  | _ =>
    cases failed
    rfl

theorem unsupported_of_expiryOf {now : ℚ} (failed : Deadline.expiryOf budget now = .error fault) :
    fault = .unsupported := by
  unfold Deadline.expiryOf at failed
  obtain failed | ⟨value, -, failed⟩ := Outcome.bind_error failed
  · exact unsupported_of_measure failed
  · split at failed <;> cases failed

theorem unsupported_of_isLimit (failed : Deadline.isLimit budget = .error fault) :
    fault = .unsupported := by
  unfold Deadline.isLimit at failed
  split at failed
  · obtain failed | ⟨place, -, failed⟩ := Outcome.bind_error failed
    · exact unsupported_of_compareTo failed
    · cases failed
  · cases failed

theorem unsupported_of_shown (limits : Deadline.isLimit budget = .ok true)
    (failed : budget.shown = .error fault) : fault = .unsupported := by
  cases budget with
  | whole value =>
    unfold Datum.shown Datum.described Datum.integerText at failed
    dsimp only at failed
    split at failed <;> cases failed
    rfl
  | flag | real | text => cases failed
  | absent => cases limits
  | list | record =>
    unfold Deadline.isLimit at limits
    split at limits <;> cases limits

/-- A budget cannot be set when it is no number or has too many digits to be written out. -/
theorem unsupported_of_enter {guard : Deadline.Guard} {now : ℚ}
    (refused : guard.enter budget now = .error fault) : fault = .unsupported := by
  unfold Deadline.Guard.enter at refused
  split at refused
  · cases refused
  obtain failed | ⟨limited, known, refused⟩ := Outcome.bind_error refused
  · exact unsupported_of_isLimit failed
  split at refused
  next limits =>
    obtain failed | ⟨expiry, -, refused⟩ := Outcome.bind_error refused
    · exact unsupported_of_expiryOf failed
    obtain failed | ⟨shown, -, refused⟩ := Outcome.bind_error refused
    · exact unsupported_of_shown (limits ▸ known) failed
    · cases refused
  next => cases refused

theorem Interrupted.isLimit (interrupted : Interrupted context fault) : IsLimit fault := by
  rcases interrupted with ⟨now, expired⟩ | ⟨now, refused⟩ | ⟨guard, now, -, expired⟩
  · exact isLimit_of_check expired
  · exact .inr (.inr (congrArg Fault.kind (unsupported_of_enter refused)))
  · exact isLimit_of_check expired

theorem isLimit_of_tooLong (long : Expr.TooLong fault) : IsLimit fault := by
  rcases long with rfl | ⟨bits, rfl⟩
  · exact .inr (.inr rfl)
  · exact .inr (.inl rfl)

/-- A setting that counts is read off the session, unless it is no integer. -/
theorem meets_count {setting : Setting}
    (refused : ∀ fault, (context.scope.settings.get setting).integer = .error fault → accepts fault) :
    Meets context accepts (count setting) fun n => (context.scope.settings.get setting).integer = .ok n := by
  unfold count settings
  refine Meets.bind (· = context.scope.settings) ?_ ?_
  · refine Meets.bind (· = context) (Meets.read rfl) ?_
    rintro _ rfl
    exact Meets.pure rfl
  · rintro _ rfl
    exact Meets.lift (fun _ => id) refused

def Fails (x : Engine α) (fault : Fault) : Prop :=
  ∃ context looks later, (x context).run.run looks = (.error fault, later)

/-- What comes of a computation comes of a run of it. -/
theorem Meets.with_run (meets : Meets context accepts x post) :
    Meets context (fun fault => accepts fault ∧ Fails x fault) x fun r =>
      post r ∧ Yields context x r := by
  intro looks
  have reached := meets looks
  cases run : (x context).run.run looks with
  | mk result later =>
    rw [run] at reached
    cases result with
    | ok r => exact ⟨reached, looks, later, run⟩
    | error fault => exact ⟨reached, context, looks, later, run⟩

end ExactAlgebra.Engine

namespace ExactAlgebra.Expr
open Engine

variable {context : Context} {accepts : Fault → Prop} {c d : ℚ}

theorem div_numbers (nonzero : d ≠ 0) : div (number c) (number d) = .ok (number (c / d)) := by
  have proper : (number d).isZero = false := by simpa [isZero] using nonzero
  have inverse : inv (number d) = .ok (number d⁻¹) := by
    rw [inv, Rational.invert, if_neg nonzero]
    rfl
  rw [div, proper, inverse, div_eq_mul_inv]
  exact mul_numbers c d⁻¹

/-- A number is written out when both of its parts are short enough. -/
theorem render_number (c : ℚ) : (number c).render =
    if Rational.isWritable c then .ok (number c).text else .error .unsupported := by
  have legible : (number c).face.isLegibleTimes (number c).coeff = Rational.isWritable c := by
    simp [face, Face.isLegibleTimes, Layout.isWritable, coeff]
  rw [render, legible]
  rfl

theorem meets_expand_number (c : ℚ) :
    Meets context (Interrupted context) (expand (number c)) (· = number c) :=
  meets_guarded (fun _ => id) fun _ _ => Meets.pure rfl

theorem meets_together_number (c : ℚ) :
    Meets context (Interrupted context) (number c).together (· = (number c, one)) := by
  unfold together
  refine Meets.bind _ (meets_expand_number c) ?_
  rintro _ rfl
  refine Meets.bind (· = [(number c, one)]) (Meets.pure rfl) ?_
  rintro _ rfl
  refine Meets.bind (· = one) (Meets.pure rfl) ?_
  rintro _ rfl
  refine Meets.bind (· = number c) ?_ ?_
  · refine Meets.bind (· = number c) ?_ ?_
    · refine Meets.bind _ Engine.meets_poll fun _ _ => ?_
      refine Meets.bind _ (Meets.of_ok (div_numbers one_ne_zero)) ?_
      rintro _ rfl
      refine Meets.bind _ (Meets.of_ok (mul_numbers c _)) ?_
      rintro _ rfl
      refine Meets.bind _ (meets_expand_number _) ?_
      rintro _ rfl
      refine (Meets.of_ok (add_numbers 0 _)).imp ?_
      rintro _ rfl
      rw [div_one, mul_one, zero_add]
    · rintro _ rfl
      exact Meets.pure rfl
  · rintro _ rfl
    exact Meets.pure rfl

theorem meets_cancel_number (c : ℚ) :
    Meets context (Interrupted context) (number c).cancel (· = number c) := by
  unfold cancel
  refine Meets.bind _ (meets_together_number c) ?_
  rintro _ rfl
  exact Meets.pure rfl

inductive Unsimplified (context : Context) (c : ℚ) : Fault → Prop
  | interrupted {fault : Fault} (interrupted : Interrupted context fault) : Unsimplified context c fault
  | setting {fault : Fault}
    (refused : (context.scope.settings.get .simplifyMaxPasses).integer = .error fault) :
    Unsimplified context c fault
  | long (long : Rational.isWritable c = false) : Unsimplified context c .unsupported

/-- A text that is put for another: a shorter one, or the lesser one of two equally short texts. -/
def Undercuts (s t : String) : Prop := s.length < t.length ∨ s.length = t.length ∧ s < t

theorem shorter_of_undercuts {a b : Expr × String} (undercuts : Undercuts b.2 a.2) : shorter a b = b := by
  rw [shorter, if_pos]
  simpa [Undercuts] using undercuts

theorem shorter_of_not_undercuts {a b : Expr × String} (longer : ¬ Undercuts b.2 a.2) : shorter a b = a := by
  rw [shorter, if_neg]
  simpa [Undercuts] using longer

theorem not_undercuts_self (t : String) : ¬ Undercuts t t := by
  rintro (shorter | ⟨-, lesser⟩)
  · exact lt_irrefl _ shorter
  · exact lt_irrefl t lesser

theorem Undercuts.asymm {s t : String} (undercuts : Undercuts s t) : ¬ Undercuts t s := by
  rintro (shorter | ⟨same, lesser⟩)
  · rcases undercuts with other | ⟨same, -⟩ <;> omega
  · rcases undercuts with other | ⟨-, greater⟩
    · omega
    · exact lt_asymm lesser greater

/-- A form that is not put for the expression: it undercuts no text of it, or it cannot be written out. -/
structure NotShorter (accepts : Fault → Prop) (e c : Expr) : Prop where
  unwritten : ∀ fault, c.render = .error fault → accepts fault
  longer : ∀ s, c.render = .ok s → ¬ Undercuts s e.text

theorem notShorter_self {e : Expr} (unwritten : ∀ fault, e.render = .error fault → accepts fault) :
    NotShorter accepts e e := by
  refine ⟨unwritten, fun s written => ?_⟩
  rw [text_of_render written]
  exact not_undercuts_self s

/-- Where no form that is tried is shorter than the expression, the first pass is the last one. -/
theorem meets_simplifyPasses {e : Expr} (polls : Meets context accepts poll fun _ => True)
    (expands : Meets context accepts (expand e) (NotShorter accepts e)) (kept : e.pythagorean = .ok e)
    (cancels : Meets context accepts e.cancel (NotShorter accepts e))
    (unwritten : ∀ fault, e.render = .error fault → accepts fault) (passes : ℕ) :
    Meets context accepts (simplifyPasses passes e) (· = e) := by
  cases passes with
  | zero => exact Meets.pure rfl
  | succ passes =>
    refine Meets.bind _ polls fun _ _ => ?_
    refine Meets.bind _ expands fun expanded first => ?_
    refine Meets.bind _ (Meets.of_ok kept) ?_
    rintro e rfl
    refine Meets.bind _ cancels fun cancelled last => ?_
    have forms : ∀ c ∈ [expanded, e, cancelled], NotShorter accepts e c := by
      simp [first, last, notShorter_self unwritten]
    refine Meets.bind (· = e.text) (Meets.lift (fun _ written => (text_of_render written).symm) unwritten) ?_
    rintro _ rfl
    refine Meets.bind (· = (e, e.text)) (Meets.foldlM rfl ?_) ?_
    · rintro _ rfl c member
      obtain ⟨unwrittenC, longer⟩ := forms c member
      refine Meets.bind (fun s => c.render = .ok s) (Meets.lift (fun _ => id) unwrittenC) fun s written => ?_
      exact Meets.pure (shorter_of_not_undercuts (longer s written))
    · rintro _ rfl
      simp only [beq_self_eq_true, if_true]
      exact Meets.pure rfl

theorem Unsimplified.of_render {fault : Fault} (failed : (number c).render = .error fault) :
    Unsimplified context c fault := by
  rw [render_number] at failed
  split at failed
  · cases failed
  next long =>
    cases failed
    exact .long (by simpa using long)

theorem Unsimplified.of_block {guard : Deadline.Guard} {fault : Fault} (opens : Opens context guard)
    (stopped : Unsimplified (block context guard) c fault) : Unsimplified context c fault := by
  cases stopped with
  | interrupted interrupted => exact .interrupted (interrupted.of_block opens)
  | setting refused =>
    rw [get_block context guard (by decide)] at refused
    exact .setting refused
  | long long => exact .long long

/-- A number is simplified to itself. -/
theorem meets_simplify_number (c : ℚ) :
    Meets context (Unsimplified context c) (number c).simplify (· = number c) := by
  refine meets_guarded (fun _ => .interrupted) fun guard opens =>
    Meets.accept ?_ fun _ => Unsimplified.of_block opens
  refine Meets.bind (· = number c) (Meets.pure rfl) ?_
  rintro _ rfl
  have same : ∀ form, form = number c → NotShorter (Unsimplified (block context guard) c) (number c) form := by
    rintro _ rfl
    exact notShorter_self fun _ => .of_render
  exact Meets.bind _ (meets_count fun _ => .setting) fun passes _ =>
    meets_simplifyPasses (Engine.meets_poll.accept fun _ => .interrupted)
      (((meets_expand_number c).accept fun _ => .interrupted).imp same) rfl
      (((meets_cancel_number c).accept fun _ => .interrupted).imp same) (fun _ => .of_render) _

end ExactAlgebra.Expr
