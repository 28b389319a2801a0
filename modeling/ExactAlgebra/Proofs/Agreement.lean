import ExactAlgebra.Algebra.Fraction
import ExactAlgebra.Proofs.Expansion
import Mathlib

/-! Runs that agree. Expanding, putting over a common denominator and collecting coefficients look at
the clock but at nothing else of their context, so what they return does not depend on where and when
they run. A deadline or a limit decides only whether they return. -/
namespace ExactAlgebra.Engine

variable {α β : Type} {x : Engine α} {context : Context} {accepts : Fault → Prop} {fault : Fault}
  {post : α → Prop}

def Yields (context : Context) (x : Engine α) (r : α) : Prop :=
  ∃ looks later, (x context).run.run looks = (.ok r, later)

theorem Meets.yielded (meets : Meets context accepts x post) {r : α} (yields : Yields context x r) : post r := by
  obtain ⟨looks, later, run⟩ := yields
  exact meets.returned run

/-- What nothing stops returns. -/
theorem Meets.exists_yields (meets : Meets context accepts x post) (never : ∀ fault, ¬ accepts fault) :
    ∃ r, Yields context x r ∧ post r := by
  have reached := @meets 0
  cases outcome : (x context).run.run 0 with
  | mk result later =>
    rw [outcome] at reached
    cases result with
    | ok r => exact ⟨r, ⟨0, later, outcome⟩, reached⟩
    | error fault => exact (never fault reached).elim

/-- A composed computation returned, so its parts did. -/
theorem Yields.bind {f : α → Engine β} {r : β} (yields : Yields context (x >>= f) r) :
    ∃ a, Yields context x a ∧ Yields context (f a) r := by
  obtain ⟨looks, later, returned⟩ := yields
  rw [run_bind] at returned
  split at returned
  next a mid first => exact ⟨a, ⟨looks, mid, first⟩, mid, later, returned⟩
  next => cases returned

/-- In a loop that returned every item had its turn. -/
theorem Yields.of_foldlM {step : β → α → Engine β} {items : List α} {init r : β}
    (yields : Yields context (items.foldlM step init) r) {a : α} (member : a ∈ items) :
    ∃ before after, Yields context (step before a) after := by
  induction items generalizing init with
  | nil => cases member
  | cons first rest ih =>
    rw [List.foldlM_cons] at yields
    obtain ⟨after, here, later⟩ := yields.bind
    rcases List.mem_cons.mp member with rfl | inside
    · exact ⟨init, after, here⟩
    · exact ih later inside

/-- What a guarded block sees of the context: a guard, and operands are copied. -/
def block (context : Context) (guard : Deadline.Guard) : Context :=
  { context with
    scope := { context.scope with
      guard := guard
      settings :=
        if context.scope.settings.chosen .immutable then context.scope.settings
        else context.scope.settings.set .immutable (.flag true) } }

/-- Entering a block opens it. -/
theorem depth_pos_of_enter {guard entered : Deadline.Guard} {budget : Datum} {now : Rat}
    (returned : guard.enter budget now = .ok entered) : 0 < entered.depth := by
  unfold Deadline.Guard.enter at returned
  split at returned
  next nested =>
    cases returned
    exact Nat.succ_pos _
  next =>
    obtain ⟨limited, -, returned⟩ := Outcome.bind_ok returned
    split at returned
    · obtain ⟨expiry, -, returned⟩ := Outcome.bind_ok returned
      obtain ⟨shown, -, returned⟩ := Outcome.bind_ok returned
      cases returned
      exact one_pos
    · cases returned
      exact one_pos

theorem returns_openBlock (context : Context) : Returns context openBlock fun guard => 0 < guard.depth := by
  unfold openBlock
  refine Meets.bind _ (Meets.anyway _) fun here _ => ?_
  have enter (now : Rat) : Returns context
      (liftM (here.scope.guard.enter (here.scope.settings.get .timeoutMs) now)) fun guard =>
        0 < guard.depth := Returns.lift fun guard entered => depth_pos_of_enter entered
  dsimp only
  split
  · exact Meets.bind _ (Meets.anyway _) fun now _ => enter now
  · exact Meets.bind _ (Meets.anyway _) fun now _ => enter now

theorem Returns.guarded
    (inside : ∀ guard, 0 < guard.depth → Returns (block context guard) x post) :
    Returns context (guarded x) post :=
  Meets.bind _ (returns_openBlock context) fun guard opened => Meets.inScope (inside guard opened)

/-- A block changes no setting but the one for copies. -/
theorem get_block (context : Context) (guard : Deadline.Guard) {setting : Setting}
    (other : setting ≠ .immutable) :
    (block context guard).scope.settings.get setting = context.scope.settings.get setting := by
  unfold block
  dsimp only
  split
  · rfl
  · exact if_neg other

/-- A block that the context opens has this guard. -/
def Opens (context : Context) (guard : Deadline.Guard) : Prop :=
  ∃ now, context.scope.guard.enter (context.scope.settings.get .timeoutMs) now = .ok guard

/-- The deadline in force is over, or that of a block opened here is, or it cannot be set. -/
def Interrupted (context : Context) (fault : Fault) : Prop :=
  (∃ now, context.scope.guard.check now = .error fault) ∨
    (∃ now, context.scope.guard.enter (context.scope.settings.get .timeoutMs) now = .error fault) ∨
    ∃ guard now, Opens context guard ∧ guard.check now = .error fault

/-- What interrupts in a block interrupts outside of it. -/
theorem Interrupted.of_block {guard : Deadline.Guard} (opens : Opens context guard)
    (interrupted : Interrupted (block context guard) fault) : Interrupted context fault := by
  obtain ⟨start, entered⟩ := opens
  have opened : 0 < guard.depth := depth_pos_of_enter entered
  have inside (budget : Datum) (now : Rat) :
      guard.enter budget now = .ok { guard with depth := guard.depth + 1 } := by
    rw [Deadline.Guard.enter, if_pos opened]
    rfl
  rcases interrupted with ⟨now, expired⟩ | ⟨now, refused⟩ | ⟨deeper, now, ⟨_, nested⟩, expired⟩
  · exact .inr (.inr ⟨guard, now, ⟨start, entered⟩, expired⟩)
  · cases (inside _ now).symm.trans refused
  · cases (inside _ _).symm.trans nested
    exact .inr (.inr ⟨guard, now, ⟨start, entered⟩, expired⟩)

/-- With nothing too long to be written out, only a deadline stops an expansion. -/
theorem interrupted_of_stopped {limit : ℕ} (stopped : Expr.Stopped context limit fault) :
    Interrupted context fault ∨ (fault = .unsupported ∧ Rational.digitBound ≤ limit) := by
  rcases stopped with unset | ⟨now, later, guard, entered, expired⟩ | long
  · exact .inl (.inr (.inl unset))
  · exact .inl (.inr (.inr ⟨guard, later, ⟨now, entered⟩, expired⟩))
  · exact .inr long

theorem not_digitBound_le_zero : ¬ Rational.digitBound ≤ 0 := by
  have two := Expr.two_le_digitBound
  omega

/-- In a block without a limit nothing interrupts. -/
theorem not_interrupted (opened : 0 < context.scope.guard.depth) (unlimited : context.scope.guard.expiry = none) :
    ¬ Interrupted context fault := by
  have checks (now : ℚ) : context.scope.guard.check now = .ok () := by rw [Deadline.Guard.check, unlimited]
  rintro (⟨now, expired⟩ | ⟨now, refused⟩ | ⟨guard, now, ⟨start, entered⟩, expired⟩)
  · cases (checks now).symm.trans expired
  · rw [Deadline.Guard.enter, if_pos opened] at refused
    cases refused
  · rw [Deadline.Guard.enter, if_pos opened] at entered
    cases entered
    cases (checks now).symm.trans expired

/-- A block stops where it cannot be opened, and where its inside stops. -/
theorem meets_opened (unset : ∀ fault, Expr.Unset context fault → accepts fault)
    (inside : ∀ guard, Opens context guard → Meets (block context guard) accepts x post) :
    Meets context accepts (guarded x) post :=
  Meets.bind _ (Expr.meets_openBlock.accept unset) fun guard opens => Meets.inScope (inside guard opens)

theorem interrupted_of_unset (unset : Expr.Unset context fault) : Interrupted context fault := .inr (.inl unset)

theorem meets_guarded (interrupted : ∀ fault, Interrupted context fault → accepts fault)
    (inside : ∀ guard, Opens context guard → Meets (block context guard) accepts x post) :
    Meets context accepts (guarded x) post :=
  meets_opened (fun fault unset => interrupted fault (interrupted_of_unset unset)) inside

theorem meets_poll : Meets context (Interrupted context) poll fun _ => True := by
  have polled : Meets context (Expr.Refused context 0) poll fun _ => True := Expr.meets_poll
  exact polled.accept fun _ refused =>
    .inl (refused.resolve_right fun long => not_digitBound_le_zero long.2)

theorem meets_pollTimes (n : ℕ) : Meets context (Interrupted context) (pollTimes n) fun _ => True := by
  induction n with
  | zero => exact Meets.pure trivial
  | succ n ih => exact Meets.bind _ meets_poll fun _ _ => ih

theorem meets_pollSteps (steps : Unit → ℕ) :
    Meets context (Interrupted context) (pollSteps steps) fun _ => True := by
  unfold pollSteps
  refine Meets.bind (fun _ => True) (Meets.read trivial) fun here _ => ?_
  split
  · exact meets_pollTimes _
  · exact Meets.pure trivial

/-- What one run returned any other run returns, unless it is interrupted. -/
def Repeatable (x : Engine α) : Prop :=
  ∀ ⦃context : Context⦄ ⦃r : α⦄, Yields context x r →
    ∀ other : Context, Meets other (Interrupted other) x (· = r)

/-- Runs that return agree, whatever their contexts and clocks. -/
def Steady (x : Engine α) : Prop :=
  ∀ ⦃context : Context⦄ ⦃r : α⦄, Yields context x r → ∀ other : Context, Returns other x (· = r)

namespace Repeatable

theorem steady (repeatable : Repeatable x) : Steady x := fun _ _ yields other =>
  (repeatable yields other).accept fun _ _ => trivial

theorem pure (a : α) : Repeatable (Pure.pure a) := by
  rintro context r ⟨looks, later, returned⟩ other
  cases returned
  exact Meets.pure rfl

theorem throw (fault : Fault) : Repeatable (MonadExcept.throw fault : Engine α) := by
  rintro context r ⟨looks, later, returned⟩
  cases returned

theorem lift (x : Except Fault α) : Repeatable (liftM x : Engine α) := by
  rintro context r ⟨looks, later, returned⟩ other
  cases x with
  | ok a =>
    cases returned
    exact Meets.pure rfl
  | error => cases returned

theorem poll : Repeatable poll := by
  intro context r _ other
  exact meets_poll.imp fun _ _ => rfl

theorem bind {f : α → Engine β} (first : Repeatable x) (next : ∀ a, Repeatable (f a)) :
    Repeatable (x >>= f) := by
  intro context r yields other
  obtain ⟨a, left, right⟩ := yields.bind
  refine Meets.bind _ (first left other) ?_
  rintro _ rfl
  exact next _ right other

theorem foldlM {step : β → α → Engine β} {items : List α} (init : β)
    (each : ∀ b, ∀ a ∈ items, Repeatable (step b a)) : Repeatable (items.foldlM step init) := by
  induction items generalizing init with
  | nil => exact pure init
  | cons a rest ih =>
    rw [List.foldlM_cons]
    exact (each init a List.mem_cons_self).bind fun b =>
      ih b fun c d later => each c d (List.mem_cons_of_mem _ later)

theorem mapM {f : α → Engine β} {items : List α} (each : ∀ a ∈ items, Repeatable (f a)) :
    Repeatable (items.mapM f) := by
  induction items with
  | nil => exact pure []
  | cons a rest ih =>
    rw [List.mapM_cons]
    refine (each a List.mem_cons_self).bind fun b => ?_
    exact (ih fun c later => each c (List.mem_cons_of_mem _ later)).bind fun bs => pure (b :: bs)

/-- The block of the deadline decides only whether there is an answer. -/
theorem guarded (repeatable : Repeatable x) : Repeatable (guarded x) := by
  intro context r yields other
  obtain ⟨guard, -, looks, later, inside⟩ := yields.bind
  refine meets_guarded (fun _ => id) fun deeper opens => ?_
  exact (repeatable ⟨looks, later, inside⟩ _).accept fun _ => Interrupted.of_block opens

end Repeatable

end ExactAlgebra.Engine

namespace ExactAlgebra.Expr
open Engine

theorem repeatable_distribute (a b : Expr) : Repeatable (distribute a b) := by
  unfold distribute
  refine (Repeatable.foldlM zero fun total s _ => Repeatable.foldlM total fun total t _ => ?_).bind fun total =>
    .pure _
  refine (Repeatable.poll).bind fun _ => ?_
  exact (Repeatable.lift (mul s t)).bind fun product => .lift (add total product)

theorem repeatable_distributeTimes (a b : Expr) (n : ℕ) : Repeatable (distributeTimes a b n) := by
  induction n generalizing a with
  | zero => exact .pure a
  | succ n ih => exact (repeatable_distribute a b).bind ih

theorem repeatable_expandPower (inner : Expr) (p : Rat) : Repeatable (expandPower inner p) := by
  unfold expandPower
  split
  · exact .pure inner
  split
  · exact repeatable_distributeTimes inner inner _
  · exact .lift _

theorem repeatable_expandTree (e : Expr) : Repeatable (expandTree e) := by
  induction e using Expr.induction with
  | number c => exact .pure _
  | symbol c name p => exact .pure _
  | call c name args p ih =>
    have all : Repeatable (expandAll args) := by
      induction args with
      | nil => exact .pure []
      | cons a rest ihRest =>
        refine (ih a List.mem_cons_self).bind fun first => ?_
        exact (ihRest fun b later => ih b (List.mem_cons_of_mem _ later)).bind fun others => .pure _
    exact all.bind fun expanded => .pure _
  | sum c terms p ih =>
    rw [expandTree, expandSum_eq]
    refine (Repeatable.foldlM zero fun total t member => ?_).bind fun total =>
      (repeatable_expandPower total p).bind fun power => .pure _
    exact (ih t member).bind fun expanded => .lift (add total expanded)
  | product c factors ih =>
    rw [expandTree_product]
    refine Repeatable.foldlM _ fun result f member => ?_
    exact (ih f ((sortFactors_perm factors).mem_iff.mp member)).bind fun expanded =>
      repeatable_distribute result expanded
  | exponential c base exponent ihBase ihExponent =>
    refine ihBase.bind fun base => ihExponent.bind fun exponent => ?_
    exact (Repeatable.lift (pow base exponent)).bind fun power => .pure _
  | foreign => exact .throw _

theorem repeatable_expand (e : Expr) : Repeatable (expand e) := (repeatable_expandTree e).guarded

theorem anyForeign_eq_false {es : List Expr} (each : ∀ e ∈ es, e.holdsForeign = false) :
    anyForeign es = false := by
  induction es with
  | nil => rfl
  | cons e rest ih =>
    rw [anyForeign, each e List.mem_cons_self, ih fun f later => each f (List.mem_cons_of_mem _ later)]
    rfl

/-- What was expanded is an expression everywhere. -/
theorem holdsForeign_of_expandTree {context : Context} {e r : Expr} (yields : Yields context (expandTree e) r) :
    e.holdsForeign = false := by
  induction e using Expr.induction generalizing r with
  | number | symbol => rfl
  | call c name args p ih =>
    obtain ⟨expanded, all, -⟩ := yields.bind
    clear yields
    refine anyForeign_eq_false ?_
    induction args generalizing expanded with
    | nil => simp
    | cons a rest ihRest =>
      obtain ⟨first, here, others⟩ := all.bind
      obtain ⟨later, all, -⟩ := others.bind
      exact List.forall_mem_cons.mpr ⟨ih a List.mem_cons_self here,
        ihRest (fun b member => ih b (List.mem_cons_of_mem _ member)) later all⟩
  | sum c terms p ih =>
    rw [expandTree, expandSum_eq] at yields
    obtain ⟨total, all, -⟩ := yields.bind
    refine anyForeign_eq_false fun t member => ?_
    obtain ⟨before, after, here⟩ := all.of_foldlM member
    obtain ⟨expanded, here, -⟩ := here.bind
    exact ih t member here
  | product c factors ih =>
    rw [expandTree_product] at yields
    refine anyForeign_eq_false fun f member => ?_
    obtain ⟨before, after, here⟩ := yields.of_foldlM ((sortFactors_perm factors).mem_iff.mpr member)
    obtain ⟨expanded, here, -⟩ := here.bind
    exact ih f member here
  | exponential c base exponent ihBase ihExponent =>
    obtain ⟨b, below, rest⟩ := yields.bind
    obtain ⟨a, above, -⟩ := rest.bind
    rw [holdsForeign, ihBase below, ihExponent above]
    rfl
  | foreign =>
    obtain ⟨looks, later, returned⟩ := yields
    cases returned

theorem repeatable_together (e : Expr) : Repeatable e.together := by
  unfold together
  refine (repeatable_expand e).bind fun expanded => ?_
  refine (Repeatable.mapM fun t _ => .lift t.splitFraction).bind fun parts => ?_
  dsimp only
  split
  · exact .throw _
  refine (Repeatable.lift _).bind fun denominator => ?_
  refine (Repeatable.foldlM zero fun total part _ => ?_).bind fun numerator => .pure _
  refine (Repeatable.poll).bind fun _ => ?_
  refine (Repeatable.lift (div denominator part.2)).bind fun quotient => ?_
  refine (Repeatable.lift (mul part.1 quotient)).bind fun scaled => ?_
  exact (repeatable_expand scaled).bind fun expanded => .lift (add total expanded)

theorem steady_together (e : Expr) : Steady e.together := (repeatable_together e).steady

theorem checkOpen_of_expand {context : Context} {e r : Expr} (expands : Yields context e.expand r) :
    e.checkOpen = .ok () := by
  obtain ⟨guard, -, looks, later, inside⟩ := expands.bind
  exact if_neg (by rw [holdsForeign_of_expandTree ⟨looks, later, inside⟩]; exact Bool.false_ne_true)

/-- What was put over a common denominator is an expression everywhere. -/
theorem checkOpen_of_together {context : Context} {e : Expr} {parts : Expr × Expr}
    (combined : Yields context e.together parts) : e.checkOpen = .ok () := by
  obtain ⟨expanded, expands, -⟩ := combined.bind
  exact checkOpen_of_expand expands

theorem repeatable_coeffs? (e : Expr) (x : String) : Repeatable (e.coeffs? x) := by
  unfold coeffs?
  refine (repeatable_expand e).bind fun expanded => ?_
  refine (Repeatable.lift (collect x [] expanded.spreadTerms)).bind fun collected => ?_
  cases collected with
  | none => exact .pure none
  | some cs => exact .pure _

theorem repeatable_poly? (e : Expr) (x : String) : Repeatable (e.poly? x) := by
  unfold poly?
  refine (repeatable_coeffs? e x).bind fun cs? => ?_
  cases cs? with
  | none => exact .pure none
  | some cs => exact .pure _

/-- What was read as a polynomial was expanded. -/
theorem expands_of_poly? {context : Context} {e : Expr} {x : String} {p? : Option Poly}
    (read : Yields context (e.poly? x) p?) : ∃ r, Yields context e.expand r := by
  obtain ⟨cs?, collects, -⟩ := read.bind
  obtain ⟨r, expands, -⟩ := collects.bind
  exact ⟨r, expands⟩

theorem checkOpen_of_poly? {context : Context} {e : Expr} {x : String} {p? : Option Poly}
    (read : Yields context (e.poly? x) p?) : e.checkOpen = .ok () := by
  obtain ⟨r, expands⟩ := expands_of_poly? read
  exact checkOpen_of_expand expands

theorem steady_poly? (e : Expr) (x : String) : Steady (e.poly? x) := (repeatable_poly? e x).steady

end ExactAlgebra.Expr

namespace ExactAlgebra.Poly
open Engine

def candidateBound (search : RootSearch) (setting : Datum) : Except Fault Int :=
  match search with
  | ⟨_, some _, some _⟩ => do
    if ← setting.isBelow 0 then return -1
    else return (← setting.floor?).getD unlimited
  | _ => .ok 0

theorem candidateLimit_eq (search : RootSearch) (context : Context) : candidateLimit search context =
    (liftM (candidateBound search (context.scope.settings.get .maxRationalRootCandidates)) : Watch Int) := by
  rcases search with ⟨target, _ | numerators, _ | denominators⟩
  case some.some =>
    change (do
      if ← (context.scope.settings.get .maxRationalRootCandidates).isBelow 0 then return -1
      else return (← (context.scope.settings.get .maxRationalRootCandidates).floor?).getD unlimited :
        Engine Int) context = _
    generalize context.scope.settings.get .maxRationalRootCandidates = setting
    rw [candidateBound]
    rcases setting.isBelow 0 with _ | _ | _
    · rfl
    · rcases setting.floor? <;> rfl
    · rfl
  all_goals rfl

/-- The limit on candidates is refused only where the setting is no number. -/
theorem isBelow_of_candidateBound {search : RootSearch} {setting : Datum} {fault : Fault}
    (refused : candidateBound search setting = .error fault) : setting.isBelow 0 = .error fault := by
  rcases search with ⟨target, _ | numerators, _ | denominators⟩
  case some.some =>
    rw [candidateBound] at refused
    cases compared : setting.isBelow 0 with
    | error other =>
      rw [compared] at refused
      cases refused
      rfl
    | ok below =>
      rw [compared] at refused
      cases below with
      | true => cases refused
      | false =>
        -- A setting that was compared with zero can be cut to an integer.
        cases setting with
        | flag | whole | real => cases refused
        | _ => cases compared
  all_goals cases refused

theorem meets_candidateLimit {context : Context} (search : RootSearch) :
    Meets context (fun fault => (context.scope.settings.get .maxRationalRootCandidates).isBelow 0 = .error fault)
      (candidateLimit search) fun limit =>
        candidateBound search (context.scope.settings.get .maxRationalRootCandidates) = .ok limit := by
  intro looks
  rw [candidateLimit_eq]
  cases bound : candidateBound search (context.scope.settings.get .maxRationalRootCandidates) with
  | ok limit => exact rfl
  | error fault => exact isBelow_of_candidateBound bound

/-- The limit of a search is the same in all contexts with that setting. -/
theorem meets_searchLimit {p : Poly} {context other : Context} {limit : ℤ}
    (yields : Yields context p.searchLimit limit)
    (same : other.scope.settings.get .maxRationalRootCandidates =
      context.scope.settings.get .maxRationalRootCandidates) :
    Meets other (Interrupted other) p.searchLimit (· = limit) := by
  unfold searchLimit at yields ⊢
  split at yields
  next low =>
    rw [if_pos low]
    exact Repeatable.pure 0 yields other
  next high =>
    rw [if_neg high]
    cases found : p.rootSearch? with
    | none =>
      rw [found] at yields
      exact Repeatable.pure _ yields other
    | some search =>
      rw [found] at yields
      obtain ⟨_, -, yields⟩ := yields.bind
      obtain ⟨reached, ⟨looks, later, first⟩, yields⟩ := yields.bind
      obtain ⟨_, -, _, _, returned⟩ := yields.bind
      cases returned
      refine Meets.bind _ (meets_pollSteps _) fun _ _ => ?_
      refine Meets.bind (· = limit) ?_ ?_
      · intro start
        rw [candidateLimit_eq, same]
        rw [candidateLimit_eq] at first
        cases bound : candidateBound search (context.scope.settings.get .maxRationalRootCandidates) with
        | ok n =>
          rw [bound] at first
          cases first
          rfl
        | error =>
          rw [bound] at first
          cases first
      · rintro _ rfl
        exact Meets.bind _ (meets_pollSteps _) fun _ _ => Meets.pure rfl

theorem returns_searchLimit {p : Poly} {context other : Context} {limit : ℤ}
    (yields : Yields context p.searchLimit limit)
    (same : other.scope.settings.get .maxRationalRootCandidates =
      context.scope.settings.get .maxRationalRootCandidates) :
    Returns other p.searchLimit (· = limit) :=
  (meets_searchLimit yields same).accept fun _ _ => trivial

end ExactAlgebra.Poly
