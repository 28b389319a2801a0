import ExactAlgebra.Builtin.Call
import ExactAlgebra.Proofs.Interruption
import ExactAlgebra.Proofs.Tidiness
import Mathlib

/-! Two runs of the same session. They see the same settings and the same functions, but neither the
same clock nor the same deadline, and their calls may nest to different depths. A computation that gives
the same tidy answer in both, unless one of them meets a limit, is reliable. -/
namespace ExactAlgebra
open ExactAlgebra.Expr

/-- The built-in functions that give a list for expressions. -/
def givesList (name : String) : Bool := ["divide", "coeffs", "roots", "solve"].contains name

/-- A function that a session may have under a name: a built-in one, a definition, or a rule from outside
that gives tidy expressions for tidy expressions. -/
inductive FunctionSpec.IsSound (name : String) (spec : FunctionSpec) : Prop
  | builtin (known : Builtin.functions.lookup name = some spec)
  | definition {params : List String} {body : Expr} (rule : spec.body = .definition params (.expr body))
    (tidy : Tidy body)
  | native {rule : List Value → Except Fault Value} (given : spec.body = .native rule)
    (sound : ∀ args : List Expr, (∀ a ∈ args, Tidy a) → ∀ v, rule (args.map .expr) = .ok v →
      ∃ e, v = .expr e ∧ Tidy e)

def SoundFunctions (functions : FunctionTable) : Prop :=
  ∀ name spec, functions.lookup name = some spec → spec.IsSound name

theorem soundFunctions_builtin : SoundFunctions Builtin.functions := fun _ _ => .builtin

structure Scope.Matches (s t : Scope) : Prop where
  functions : t.functions = s.functions
  settings : t.settings = s.settings
  rootFinder : t.rootFinder = s.rootFinder
  sound : SoundFunctions s.functions

instance : HoldsExprs Datum := ⟨fun _ => True⟩
instance : HoldsExprs Settings := ⟨fun _ => True⟩
instance : HoldsExprs Numeric.RootFinder := ⟨fun _ => True⟩
instance : HoldsExprs Poly := ⟨fun _ => True⟩
instance : HoldsExprs Formula := ⟨fun _ => True⟩

/-- A value of which this holds is an expression. -/
instance : HoldsExprs Value := ⟨fun v => ∃ e, v = .expr e ∧ Tidy e⟩

namespace Engine

variable {α β γ δ : Type}

/-- Two outcomes are related answers or the same fault, unless one of them is the fault of a limit. -/
def Agree (related : α → β → Prop) : Except Fault α → Except Fault β → Prop
  | .ok a, .ok b => related a b
  | .error fault, .error other => fault = other ∨ IsLimit fault ∨ IsLimit other
  | .error fault, .ok _ => IsLimit fault
  | .ok _, .error fault => IsLimit fault

theorem Agree.imp {related weaker : α → β → Prop} (implies : ∀ a b, related a b → weaker a b)
    {x : Except Fault α} {y : Except Fault β} (agree : Agree related x y) : Agree weaker x y := by
  cases x <;> cases y
  case ok.ok => exact implies _ _ agree
  all_goals exact agree

theorem Agree.of_eq {related : α → α → Prop} {x : Except Fault α} (same : ∀ a, x = .ok a → related a a) :
    Agree related x x := by
  cases x with
  | ok a => exact same a rfl
  | error fault => exact .inl rfl

theorem Agree.of_limit_left {related : α → β → Prop} {fault : Fault} (limit : IsLimit fault) (y : Except Fault β) :
    Agree related (.error fault) y := by
  cases y with
  | ok => exact limit
  | error => exact .inr (.inl limit)

theorem Agree.of_limit_right {related : α → β → Prop} {fault : Fault} (limit : IsLimit fault) (x : Except Fault α) :
    Agree related x (.error fault) := by
  cases x with
  | ok => exact limit
  | error => exact .inr (.inr limit)

/-- What a call gives in two runs: the same value, a tidy expression if any, and an expression unless the
function gives a list. -/
structure Called (name : String) (v w : Value) : Prop where
  same : w = v
  tidy : ∀ e, v = .expr e → Tidy e
  single : givesList name = false → ∃ e, v = .expr e

/-- Two contexts of one session. Calls in them agree. -/
structure Twins (c d : Context) : Prop where
  scope : c.scope.Matches d.scope
  call : ∀ {s t : Scope}, s.Matches t → ∀ {name : String}, Identifier name → name ≠ "sqrt" →
    ∀ {args : List Expr}, (∀ a ∈ args, Tidy a) → ∀ m n,
      Agree (Called name) ((c.call s name (args.map .expr)).run.run m).1
        ((d.call t name (args.map .expr)).run.run n).1

def Related (related : α → β → Prop) (x : Engine α) (y : Engine β) : Prop :=
  ∀ ⦃c d : Context⦄, Twins c d → ∀ m n, Agree related ((x c).run.run m).1 ((y d).run.run n).1

/-- In two runs of one session the answers are the same, and tidy. -/
abbrev Alike [HoldsExprs α] (x y : Engine α) : Prop := Related (fun a b => b = a ∧ AllTidy a) x y

/-- All runs of one session give the same answer, and a tidy one, unless they meet a limit. -/
abbrev Reliable [HoldsExprs α] (x : Engine α) : Prop := Alike x x

namespace Related

variable {related : α → β → Prop} {x : Engine α} {y : Engine β}

theorem pure {a : α} {b : β} (holds : related a b) : Related related (Pure.pure a) (Pure.pure b) :=
  fun _ _ _ _ _ => holds

theorem throw (fault : Fault) :
    Related related (MonadExcept.throw fault : Engine α) (MonadExcept.throw fault : Engine β) :=
  fun _ _ _ _ _ => .inl rfl

theorem of_limit_left {fault : Fault} (limit : IsLimit fault) (y : Engine β) :
    Related related (MonadExcept.throw fault : Engine α) y := fun _ _ _ _ _ => .of_limit_left limit _

theorem of_limit_right {fault : Fault} (limit : IsLimit fault) (x : Engine α) :
    Related related x (MonadExcept.throw fault : Engine β) := fun _ _ _ _ _ => .of_limit_right limit _

theorem lift {x : Except Fault α} {y : Except Fault β} (agree : Agree related x y) :
    Related related (liftM x : Engine α) (liftM y : Engine β) := by
  intro c d twins m n
  cases x <;> cases y <;> exact agree

theorem imp {weaker : α → β → Prop} (holds : Related related x y)
    (implies : ∀ a b, related a b → weaker a b) : Related weaker x y := fun _ _ twins m n =>
  (holds twins m n).imp implies

/-- Where only limits can stop two computations, it is enough to know what each of them returns. -/
theorem of_meets {left : α → Prop} {right : β → Prop} (first : ∀ c, Meets c IsLimit x left)
    (second : ∀ c, Meets c IsLimit y right) (holds : ∀ a b, left a → right b → related a b) :
    Related related x y := by
  intro c d twins m n
  have reachedX := first c m
  have reachedY := second d n
  generalize (x c).run.run m = outcomeX at reachedX ⊢
  generalize (y d).run.run n = outcomeY at reachedY ⊢
  rcases outcomeX with ⟨fault | a, _⟩ <;> rcases outcomeY with ⟨other | b, _⟩
  · exact .inr (.inl reachedX)
  · exact reachedX
  · exact reachedY
  · exact holds a b reachedX reachedY

theorem bind {others : γ → δ → Prop} {f : α → Engine γ} {g : β → Engine δ}
    (first : Related related x y) (next : ∀ a b, related a b → Related others (f a) (g b)) :
    Related others (x >>= f) (y >>= g) := by
  intro c d twins m n
  have reached := first twins m n
  rw [run_bind, run_bind]
  generalize (x c).run.run m = outcomeX at reached ⊢
  generalize (y d).run.run n = outcomeY at reached ⊢
  rcases outcomeX with ⟨fault | a, later⟩ <;> rcases outcomeY with ⟨other | b, after⟩
  · exact reached
  · -- The first run has met a limit, whatever comes of the second one.
    exact .of_limit_left reached _
  · exact .of_limit_right reached _
  · exact next a b reached twins later after

theorem map {others : γ → δ → Prop} {f : α → γ} {g : β → δ} (holds : Related related x y)
    (next : ∀ a b, related a b → others (f a) (g b)) : Related others (f <$> x) (g <$> y) := by
  rw [map_eq_pure_bind, map_eq_pure_bind]
  exact holds.bind fun a b answer => pure (next a b answer)

/-- Runs in other scopes, which still are scopes of one session. -/
theorem inScope {change other : Scope → Scope}
    (changes : ∀ {s t : Scope}, s.Matches t → (change s).Matches (other t)) (holds : Related related x y) :
    Related related (inScope change x) (inScope other y) := by
  intro c d twins m n
  have changed : Twins { c with scope := change c.scope } { d with scope := other d.scope } :=
    ⟨changes twins.scope, twins.call⟩
  exact holds changed m n

theorem withSetting (setting : Setting) (value : Datum) (holds : Related related x y) :
    Related related (withSetting setting value x) (withSetting setting value y) := by
  refine holds.inScope fun {s t} same => ⟨same.functions, ?_, same.rootFinder, same.sound⟩
  rw [same.settings]

theorem guarded (holds : Related related x y) : Related related (guarded x) (guarded y) := by
  have opened (context : Context) : Meets context IsLimit openBlock fun _ => True := by
    refine (Expr.meets_openBlock.accept fun fault unset => ?_).imp fun _ _ => trivial
    exact (interrupted_of_unset unset).isLimit
  have opens : Related (fun _ _ => True) openBlock openBlock := of_meets opened opened fun _ _ _ _ => trivial
  refine opens.bind fun guard other _ => holds.inScope fun {s t} same => ⟨same.functions, ?_, same.rootFinder, same.sound⟩
  rw [same.settings]

/-- A fault of a limit counts as an answer to no attempt. -/
theorem attempt {expected : Fault → Bool} (proper : ∀ fault, IsLimit fault → expected fault = false)
    (holds : Related related x y) :
    Related (Option.Rel related) (attempt expected x) (attempt expected y) := by
  intro c d twins m n
  have reached : Related (Option.Rel related) (some <$> x) (some <$> y) :=
    holds.map fun _ _ answer => .some answer
  unfold Engine.attempt
  rw [run_tryCatch, run_tryCatch]
  specialize reached twins m n
  generalize ((some <$> x) c).run.run m = outcomeX at reached ⊢
  generalize ((some <$> y) d).run.run n = outcomeY at reached ⊢
  rcases outcomeX with ⟨fault | a, later⟩ <;> rcases outcomeY with ⟨other | b, after⟩
  · dsimp only at reached ⊢
    rcases reached with rfl | limit | limit
    · split
      · exact .none
      · exact .inl rfl
    · rw [proper fault limit, if_neg Bool.false_ne_true]
      split
      · exact limit
      · exact .inr (.inl limit)
    · rw [proper other limit, if_neg Bool.false_ne_true]
      split
      · exact limit
      · exact .inr (.inr limit)
  · dsimp only at reached ⊢
    rw [proper fault reached, if_neg Bool.false_ne_true]
    exact reached
  · dsimp only at reached ⊢
    rw [proper other reached, if_neg Bool.false_ne_true]
    exact reached
  · exact reached

/-- Calls of functions on tidy expressions. -/
theorem call {name : String} (named : Identifier name) (proper : name ≠ "sqrt") {args : List Expr}
    (tidy : ∀ a ∈ args, Tidy a) :
    Related (Called name) (Engine.call name (args.map .expr)) (Engine.call name (args.map .expr)) :=
  fun _ _ twins m n => twins.call twins.scope named proper tidy m n

/-- In the second part it is known what the first one returned. -/
theorem lift_bind {x : Except Fault α} {f : α → Engine γ} {g : α → Engine δ} {others : γ → δ → Prop}
    (next : ∀ a, x = .ok a → Related others (f a) (g a)) :
    Related others (liftM x >>= f) (liftM x >>= g) := by
  have known : Related (fun a b => b = a ∧ x = .ok a) (liftM x : Engine α) (liftM x) :=
    lift (.of_eq fun a returned => ⟨rfl, returned⟩)
  refine known.bind ?_
  rintro _ a ⟨rfl, returned⟩
  exact next _ returned

/-- Two ways to go on, without an answer and with one. -/
theorem bind_option [HoldsExprs α] {x y : Engine (Option α)} {f g : Option α → Engine γ} {others : γ → γ → Prop}
    (first : Alike x y) (absent : Related others (f none) (g none))
    (present : ∀ a, AllTidy a → Related others (f (some a)) (g (some a))) : Related others (x >>= f) (y >>= g) := by
  refine bind first ?_
  rintro _ a? ⟨rfl, tidy⟩
  cases a? with
  | none => exact absent
  | some a => exact present a (allTidy_some.mp tidy)

/-- What depends on the context, in two contexts of one session. -/
theorem read {f : Context → Engine α} {g : Context → Engine β}
    (holds : ∀ {c d : Context}, Twins c d → Related related (f c) (g d)) :
    Related related (do f (← MonadReader.read)) (do g (← MonadReader.read)) :=
  fun _ _ twins m n => holds twins twins m n

end Related

namespace Alike

variable [HoldsExprs α] [HoldsExprs β] {x y : Engine α} {f g : α → Engine β}

theorem pure {a : α} (tidy : AllTidy a) : Reliable (Pure.pure a) := Related.pure ⟨rfl, tidy⟩

theorem throw (fault : Fault) : Reliable (MonadExcept.throw fault : Engine α) := Related.throw fault

theorem throw_bind (fault : Fault) {f g : γ → Engine α} :
    Alike ((MonadExcept.throw fault : Engine γ) >>= f) ((MonadExcept.throw fault : Engine γ) >>= g) :=
  fun _ _ _ _ _ => .inl rfl

theorem lift {x : Except Fault α} (tidies : Tidies x) : Reliable (liftM x : Engine α) :=
  Related.lift (.of_eq fun a returned => ⟨rfl, tidies a returned⟩)

theorem bind (first : Alike x y) (next : ∀ a, AllTidy a → Alike (f a) (g a)) :
    Alike (x >>= f) (y >>= g) := by
  refine Related.bind first ?_
  rintro _ a ⟨rfl, tidy⟩
  exact next a tidy

theorem map {f : α → β} (first : Alike x y) (next : ∀ a, AllTidy a → AllTidy (f a)) :
    Alike (f <$> x) (f <$> y) := by
  refine Related.map first ?_
  rintro _ a ⟨rfl, tidy⟩
  exact ⟨rfl, next a tidy⟩

theorem lift_bind {x : Except Fault γ} {f g : γ → Engine β} (next : ∀ a, x = .ok a → Alike (f a) (g a)) :
    Alike (liftM x >>= f) (liftM x >>= g) := Related.lift_bind next

section Choice

variable {choice : Prop} [Decidable choice] {x y : Engine α}

theorem ite (first : choice → Reliable x) (second : ¬ choice → Reliable y) :
    Reliable (if choice then x else y) := by
  split
  next holds => exact first holds
  next fails => exact second fails

/-- Two ways to go on that meet again. -/
theorem branch {f : α → Engine β} (first : choice → Reliable x) (second : ¬ choice → Reliable y)
    (next : ∀ a, AllTidy a → Reliable (f a)) : Reliable (if choice then x >>= f else y >>= f) :=
  ite (fun holds => (first holds).bind next) fun fails => (second fails).bind next

end Choice

theorem guarded (inside : Alike x y) : Alike (guarded x) (guarded y) := Related.guarded inside

theorem withSetting (setting : Setting) (value : Datum) (inside : Alike x y) :
    Alike (withSetting setting value x) (withSetting setting value y) := Related.withSetting setting value inside

theorem attempt {expected : Fault → Bool} (proper : ∀ fault, IsLimit fault → expected fault = false)
    (inside : Alike x y) : Alike (attempt expected x) (attempt expected y) := by
  refine (Related.attempt proper inside).imp ?_
  rintro _ _ (⟨rfl, tidy⟩ | _)
  · exact ⟨rfl, allTidy_some.mpr tidy⟩
  · exact ⟨rfl, allTidy_none⟩

theorem foldlM {step other : β → γ → Engine β} {items : List γ} {init : β} (start : AllTidy init)
    (steps : ∀ b, AllTidy b → ∀ a ∈ items, Alike (step b a) (other b a)) :
    Alike (items.foldlM step init) (items.foldlM other init) := by
  induction items generalizing init with
  | nil => exact pure start
  | cons a rest ih =>
    rw [List.foldlM_cons, List.foldlM_cons]
    refine (steps init start a List.mem_cons_self).bind fun b tidy => ?_
    exact ih tidy fun b tidy a later => steps b tidy a (List.mem_cons_of_mem _ later)

theorem mapM {f g : γ → Engine β} {items : List γ} (each : ∀ a ∈ items, Alike (f a) (g a)) :
    Alike (items.mapM f) (items.mapM g) := by
  induction items with
  | nil => exact pure allTidy_nil
  | cons a rest ih =>
    rw [List.mapM_cons, List.mapM_cons]
    refine (each a List.mem_cons_self).bind fun b first => ?_
    refine (ih fun a later => each a (List.mem_cons_of_mem _ later)).bind fun bs others => ?_
    exact pure (allTidy_cons.mpr ⟨first, others⟩)

theorem filterMapM {f g : γ → Engine (Option β)} {items : List γ}
    (each : ∀ a ∈ items, Alike (f a) (g a)) : Alike (items.filterMapM f) (items.filterMapM g) := by
  induction items with
  | nil => exact pure allTidy_nil
  | cons a rest ih =>
    have others := ih fun a later => each a (List.mem_cons_of_mem _ later)
    rw [List.filterMapM_cons, List.filterMapM_cons]
    refine (each a List.mem_cons_self).bind fun b? first => ?_
    cases b? with
    | none => exact others
    | some b =>
      exact others.bind fun bs rest => pure (allTidy_cons.mpr ⟨allTidy_some.mp first, rest⟩)

theorem filterM {test : α → Engine Bool} {items : List α} (tidy : AllTidy items)
    (each : ∀ a ∈ items, Reliable (test a)) : Reliable (items.filterM test) := by
  have loop (items done : List α) (later : ∀ a ∈ items, AllTidy a ∧ Reliable (test a))
      (before : AllTidy done) : Reliable (items.filterAuxM test done) := by
    induction items generalizing done with
    | nil => exact pure before
    | cons a rest ih =>
      have others := fun b member => later b (List.mem_cons_of_mem a member)
      refine (later a List.mem_cons_self).2.bind fun keep _ => ?_
      cases keep with
      | true => exact ih _ others (allTidy_cons.mpr ⟨(later a List.mem_cons_self).1, before⟩)
      | false => exact ih _ others before
  refine (loop items [] (fun a member => ⟨tidy a member, each a member⟩) allTidy_nil).bind
    fun kept tidy => pure fun a member => tidy a (List.mem_reverse.mp member)

theorem poll : Reliable poll :=
  .of_meets (fun _ => meets_poll.accept fun _ => Interrupted.isLimit)
    (fun _ => meets_poll.accept fun _ => Interrupted.isLimit) fun _ _ _ _ => ⟨rfl, trivial⟩

theorem pollSteps (steps : Unit → ℕ) : Reliable (pollSteps steps) :=
  .of_meets (fun _ => (meets_pollSteps steps).accept fun _ => Interrupted.isLimit)
    (fun _ => (meets_pollSteps steps).accept fun _ => Interrupted.isLimit) fun _ _ _ _ => ⟨rfl, trivial⟩

theorem settings : Reliable settings := fun _ _ twins _ _ => ⟨twins.scope.settings, trivial⟩

theorem rootFinder : Reliable rootFinder := fun _ _ twins _ _ => ⟨twins.scope.rootFinder, trivial⟩

theorem setting (name : Setting) : Reliable (setting name) :=
  settings.bind fun _ _ => pure trivial

theorem count (name : Setting) : Reliable (count name) :=
  settings.bind fun _ _ => lift fun _ _ => trivial

theorem own (e : Expr) : Reliable (own e) := by
  refine settings.bind fun settings _ => ?_
  split
  · exact throw _
  · exact pure trivial

theorem callExpr {name : String} (named : Identifier name) (proper : name ≠ "sqrt") {args : List Expr}
    (tidy : ∀ a ∈ args, Tidy a) : Reliable (callExpr name args) := by
  refine Related.bind (Related.call named proper tidy) ?_
  rintro _ v ⟨rfl, exprs, -⟩
  refine lift fun e returned => exprs e ?_
  cases v with
  | expr => exact congrArg Value.expr (Except.ok.inj returned)
  | _ => cases returned

theorem apply {name : String} (named : Identifier name) (proper : name ≠ "sqrt") {u : Expr}
    (tidy : Tidy u) : Reliable (apply name u) :=
  callExpr named proper fun _ member => List.mem_singleton.mp member ▸ tidy

end Alike

end Engine
end ExactAlgebra
