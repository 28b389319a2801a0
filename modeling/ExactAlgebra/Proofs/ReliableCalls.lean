import ExactAlgebra.Proofs.ReliableSolving
import Mathlib

/-! Calls are reliable: the built-in functions are, definitions are rebuilt with their arguments, and so two
runs of one session agree whatever is called in them. -/
namespace ExactAlgebra
open Engine ExactAlgebra.Expr

variable {e : Expr} {given : Option String}

/-- A symbol that stands for itself has the name of a variable. -/
theorem identifier_of_symbolName (tidy : Tidy e) {role x : String}
    (found : (Value.expr e).symbolName role = .ok x) : Identifier x := by
  unfold Value.symbolName at found
  dsimp only at found
  split at found
  next name bare =>
    split at found
    · cases found
    · cases found
      cases e with
      | symbol c name p =>
        obtain ⟨⟨rfl, rfl⟩, rfl⟩ : (c = 1 ∧ p = 1) ∧ name = x := by simpa [bareName?] using bare
        exact tidy.formed.2.2.1.resolve_right fun digits => tidy.formed.2.2.2.1 digits rfl
      | _ => cases bare
  next =>
    obtain ⟨_, _, found⟩ := Outcome.bind_ok found
    cases found

theorem identifier_of_optionalName {args : List Expr} (tidy : ∀ a ∈ args, Tidy a)
    (found : optionalName (args.map .expr) = .ok given) : ∀ x ∈ given, Identifier x := by
  cases args with
  | nil =>
    cases found
    exact nofun
  | cons e rest =>
    obtain ⟨x, named, found⟩ := Outcome.bind_ok found
    cases found
    exact fun y same => Option.some.inj same ▸ identifier_of_symbolName (tidy e List.mem_cons_self) named

theorem related_polynomialIn (function : String) (tidy : Tidy e) (named : ∀ x ∈ given, Identifier x) :
    Related (fun p q => q = p ∧ AllTidy p.1 ∧ ∀ x ∈ p.2, Identifier x) (polynomialIn function e given)
      (polynomialIn function e given) := by
  unfold polynomialIn
  refine Related.lift_bind fun _ _ => ?_
  split
  next x =>
    exact Related.bind_option (tidy.coeffs? x) (Related.lift_bind fun _ _ => .throw _) fun cs tidyAll =>
      .pure ⟨rfl, tidyAll, named⟩
  next => exact .pure ⟨rfl, allTidy_singleton tidy, nofun⟩
  next x only =>
    have identifier := tidy.freeNames x (only ▸ List.mem_singleton_self x)
    exact Related.bind_option (tidy.coeffs? x) (Related.lift_bind fun _ _ => .throw _) fun cs tidyAll =>
      .pure ⟨rfl, tidyAll, fun y same => Option.some.inj same ▸ identifier⟩
  next => exact Related.lift_bind fun _ _ => .throw _

namespace Builtin

/-- The built-in functions that give a list for expressions. -/
def GivesList (function : Builtin) : Prop :=
  function = divide ∨ function = coeffs ∨ function = roots ∨ function = solve

instance : DecidablePred GivesList := fun _ => inferInstanceAs (Decidable (_ ∨ _))

/-- What a built-in function gives for expressions: a list, or else a tidy expression. -/
def Answers (function : Builtin) (v : Value) : Prop :=
  (function.GivesList → ∃ items, v = .list items) ∧ (¬ function.GivesList → AllTidy v)

theorem Answers.list {function : Builtin} (gives : function.GivesList) (items : List Value) :
    function.Answers (.list items) := ⟨fun _ => ⟨items, rfl⟩, fun single => absurd gives single⟩

theorem Answers.of_tidy {function : Builtin} (single : ¬ function.GivesList) {v : Value} (tidy : AllTidy v) :
    function.Answers v := ⟨fun gives => absurd gives single, fun _ => tidy⟩

/-- A built-in function answers in the same way in all runs. -/
abbrev Consistent (function : Builtin) (x : Engine Value) : Prop :=
  Related (fun v w => w = v ∧ function.Answers v) x x

variable {function : Builtin}

theorem Consistent.ofExpr (single : ¬ function.GivesList) {x : Engine Expr} (reliable : Reliable x) :
    function.Consistent (do return .expr (← x)) := by
  refine Related.bind reliable ?_
  rintro _ e ⟨rfl, tidy⟩
  exact .pure ⟨rfl, .of_tidy single (allTidy_expr tidy)⟩

theorem Consistent.of_reliable (single : ¬ function.GivesList) {x : Engine Value} (reliable : Reliable x) :
    function.Consistent x :=
  reliable.imp fun _ _ ⟨same, tidy⟩ => ⟨same, .of_tidy single tidy⟩

theorem Consistent.ofExprs (gives : function.GivesList) {x : Engine (List Expr)} (reliable : Reliable x) :
    function.Consistent (do return .ofExprs (← x)) := by
  refine Related.bind reliable ?_
  rintro _ es ⟨rfl, -⟩
  exact .pure ⟨rfl, .list gives _⟩

theorem reliable_onExpr {rule : Expr → Engine Expr} (found : function.onExpr? = some rule) (tidy : Tidy e) :
    Reliable (rule e) := by
  have keeps := Tidy.keptByFunctions
  unfold onExpr? at found
  split at found <;> cases found
  · exact .pure (keeps.sin tidy)
  · exact .pure (keeps.cos tidy)
  · exact .lift fun _ => keeps.tan tidy
  · exact (Tidy.inv (keeps.cos tidy)).lift
  · exact (Tidy.inv (keeps.sin tidy)).lift
  · exact (Alike.lift fun _ => keeps.tan tidy).bind fun _ tangent => (Tidy.inv tangent).lift
  · exact .lift fun _ => keeps.asin tidy
  · exact .lift fun _ => keeps.acos tidy
  · exact .pure (keeps.atan tidy)
  · exact .pure (keeps.oddAtZero (by decide) (by decide) tidy)
  · exact .pure (keeps.cosh tidy)
  · exact .pure (keeps.oddAtZero (by decide) (by decide) tidy)
  · exact .pure (keeps.oddAtZero (by decide) (by decide) tidy)
  · exact .pure (keeps.acosh tidy)
  · exact .pure (keeps.oddAtZero (by decide) (by decide) tidy)
  · exact .pure (keeps.oddAtZero (by decide) (by decide) tidy)
  · exact .lift fun _ => keeps.log10 tidy
  · exact .lift fun _ => keeps.exp tidy
  · exact tidy.sqrt.lift
  · exact Alike.ite (fun _ => .pure (keeps.abs tidy)) fun _ => .throw _
  · exact .lift fun _ => keeps.factorial tidy
  · exact tidy.expand
  · exact tidy.simplify
  · exact tidy.factor

theorem not_givesList_of_onExpr {rule : Expr → Engine Expr} (found : function.onExpr? = some rule) :
    ¬ function.GivesList := by
  rintro (rfl | rfl | rfl | rfl) <;> cases found

theorem consistent_inUnknown {rule : Expr → Option String → Engine Value} (found : function.inUnknown? = some rule)
    (tidy : Tidy e) (named : ∀ x ∈ given, Identifier x) : function.Consistent (rule e given) := by
  unfold inUnknown? at found
  split at found <;> cases found
  · exact .ofExpr (by decide) (tidy.partfrac named)
  · exact .ofExpr (by decide) (tidy.squareCompletion named)
  · refine Related.bind (related_polynomialIn "deg" tidy named) ?_
    rintro _ p ⟨rfl, -⟩
    exact .pure ⟨rfl, .of_tidy (by decide) (allTidy_expr (.number _))⟩
  · refine Related.bind (related_polynomialIn "coeffs" tidy named) ?_
    rintro _ p ⟨rfl, -⟩
    exact .pure ⟨rfl, .list (by decide) _⟩
  · refine Related.bind (related_polynomialIn "roots" tidy named) ?_
    rintro _ ⟨_, x?⟩ ⟨rfl, -, known⟩
    cases x? with
    | some x => exact Consistent.ofExprs (by decide) (tidy.solve known)
    | none => exact .pure ⟨rfl, .list (by decide) _⟩

theorem consistent_onPair {rule : Expr → Expr → Option String → Engine Value}
    (found : function.onPair? = some rule) {a b : Expr} (tidyA : Tidy a) (tidyB : Tidy b)
    (named : ∀ x ∈ given, Identifier x) : function.Consistent (rule a b given) := by
  unfold onPair? at found
  split at found <;> cases found
  · exact .ofExpr (by decide) (tidyA.polyGcd tidyB named)
  · exact .ofExpr (by decide) (tidyA.polyLcm tidyB named)
  · refine Related.bind (tidyA.polyDivide tidyB named) ?_
    rintro _ p ⟨rfl, -⟩
    exact .pure ⟨rfl, .list (by decide) _⟩

/-- The logarithm to a base. -/
theorem consistent_logTo {x base : Expr} (tidyX : Tidy x) (tidyBase : Tidy base) :
    Consistent log (onValues log [.expr x, .expr base]) := by
  have keeps := Tidy.keptByFunctions
  refine Related.lift_bind fun y found => ?_
  cases found
  refine Related.bind (Alike.lift fun _ => keeps.log tidyX) ?_
  rintro _ top ⟨rfl, tidyTop⟩
  refine Related.lift_bind fun y found => ?_
  cases found
  refine Related.bind (Alike.lift fun _ => keeps.log tidyBase) ?_
  rintro _ bottom ⟨rfl, tidyBottom⟩
  have quotient : Consistent log (do return .expr (← Expr.div top bottom)) :=
    .ofExpr (by decide) (Tidy.div tidyTop tidyBottom).lift
  split
  · exact Related.bind (Alike.own _) fun _ _ _ => Related.bind (Alike.own _) fun _ _ _ => quotient
  · exact quotient

theorem consistent_mod {a b : Expr} (tidyA : Tidy a) (tidyB : Tidy b) :
    Consistent mod (onValues mod [.expr a, .expr b]) := by
  refine Related.lift_bind fun y found => ?_
  cases found
  split
  · exact fun _ _ _ _ _ => .inl rfl
  refine Related.lift_bind fun x found => ?_
  cases found
  exact Consistent.ofExpr (by decide) (Alike.lift fun _ => Tidy.keptByFunctions.mod tidyA tidyB)

theorem consistent_diff {e : Expr} {others : List Expr} (tidy : Tidy e) (tidyOthers : ∀ a ∈ others, Tidy a) :
    Consistent diff (onValues diff (.expr e :: others.map .expr)) := by
  refine Related.lift_bind fun x? found => ?_
  have named := identifier_of_optionalName tidyOthers found
  have derivative (order : ℤ) : Consistent diff ((Value.expr e).diff x? (.whole order)) :=
    .ofExpr (by decide) (Value.reliable_diffExpr tidy named _)
  obtain _ | ⟨_, _ | ⟨n, _⟩⟩ := others
  · exact Related.bind (Alike.pure (a := (1 : ℤ)) trivial) fun _ _ ⟨same, _⟩ => same ▸ derivative _
  · exact Related.bind (Alike.pure (a := (1 : ℤ)) trivial) fun _ _ ⟨same, _⟩ => same ▸ derivative _
  · exact Related.lift_bind fun order _ => derivative order

theorem consistent_onValues {args : List Expr} (tidy : ∀ a ∈ args, Tidy a) :
    function.Consistent (onValues function (args.map .expr)) := by
  have keeps := Tidy.keptByFunctions
  have log {e : Expr} (tidy : Tidy e) : Tidies (Elementary.log e) := fun _ => keeps.log tidy
  have least {name : String} (named : Identifier name ∧ name ≠ "sqrt") {lower : Bool} :
      Tidies (Elementary.extreme name lower (args.map .expr)) := fun _ => keeps.extreme named.1 named.2 tidy
  have drop {n : ℕ} : ∀ a ∈ args.drop n, Tidy a := fun a member => tidy a (List.mem_of_mem_drop member)
  unfold onValues
  split
  next same =>
    obtain _ | ⟨x, _ | ⟨_, _⟩⟩ := args <;> cases same
    exact Related.lift_bind fun x found => by
      cases found
      exact Consistent.ofExpr (by decide) (log (tidy _ (by simp))).lift
  next same =>
    obtain _ | ⟨x, _ | ⟨base, _ | ⟨_, _⟩⟩⟩ := args <;> cases same
    exact consistent_logTo (tidy x (by simp)) (tidy base (by simp))
  next same =>
    obtain _ | ⟨a, _ | ⟨b, _ | ⟨_, _⟩⟩⟩ := args <;> cases same
    exact consistent_mod (tidy a (by simp)) (tidy b (by simp))
  next same =>
    obtain _ | ⟨a, _ | ⟨_, _⟩⟩ := args <;> cases same
  next => exact Consistent.ofExpr (by decide) (least (by decide)).lift
  next same =>
    obtain _ | ⟨a, _ | ⟨_, _⟩⟩ := args <;> cases same
  next => exact Consistent.ofExpr (by decide) (least (by decide)).lift
  next f rest same =>
    obtain _ | ⟨e, others⟩ := args <;> cases same
    exact consistent_diff (tidy e (by simp)) fun a member => tidy a (List.mem_cons_of_mem e member)
  next f rest same =>
    obtain _ | ⟨e, others⟩ := args <;> cases same
    refine Related.lift_bind fun x? found => ?_
    have named := identifier_of_optionalName (drop (n := 1)) found
    exact Consistent.of_reliable (by decide) (Value.reliable_integrate (tidy e (by simp)) named)
  next f low high rest same =>
    obtain _ | ⟨e, _ | ⟨a, _ | ⟨b, others⟩⟩⟩ := args <;> cases same
    refine Related.lift_bind fun x? found => ?_
    have named := identifier_of_optionalName (drop (n := 3)) found
    exact Consistent.ofExpr (by decide)
      (Value.reliable_defint (tidy e (by simp)) (tidy a (by simp)) (tidy b (by simp)) named)
  next f index low high same =>
    obtain _ | ⟨e, _ | ⟨k, _ | ⟨a, _ | ⟨b, _ | ⟨_, _⟩⟩⟩⟩⟩ := args <;> cases same
    refine Related.lift_bind fun x found => ?_
    have named := identifier_of_symbolName (tidy k (by simp)) found
    exact Consistent.ofExpr (by decide)
      (Value.reliable_series .sum (tidy e (by simp)) named (tidy a (by simp)) (tidy b (by simp)))
  next f index low high same =>
    obtain _ | ⟨e, _ | ⟨k, _ | ⟨a, _ | ⟨b, _ | ⟨_, _⟩⟩⟩⟩⟩ := args <;> cases same
    refine Related.lift_bind fun x found => ?_
    have named := identifier_of_symbolName (tidy k (by simp)) found
    exact Consistent.ofExpr (by decide)
      (Value.reliable_series .product (tidy e (by simp)) named (tidy a (by simp)) (tidy b (by simp)))
  next f x point same =>
    obtain _ | ⟨e, _ | ⟨k, _ | ⟨a, _ | ⟨_, _⟩⟩⟩⟩ := args <;> cases same
    refine Related.lift_bind fun x found => ?_
    have named := identifier_of_symbolName (tidy k (by simp)) found
    refine Related.lift_bind fun f found => ?_
    cases found
    exact Consistent.ofExpr (by decide) (Tidy.limit (tidy _ (by simp)) named (tidy a (by simp)))
  next f t s same =>
    obtain _ | ⟨e, _ | ⟨t, _ | ⟨s, _ | ⟨_, _⟩⟩⟩⟩ := args <;> cases same
    refine Related.lift_bind fun x foundT => Related.lift_bind fun y foundS => ?_
    exact Consistent.ofExpr (by decide) (Tidy.laplace (tidy e (by simp))
      (identifier_of_symbolName (tidy t (by simp)) foundT) (identifier_of_symbolName (tidy s (by simp)) foundS))
  next f t s same =>
    obtain _ | ⟨e, _ | ⟨t, _ | ⟨s, _ | ⟨_, _⟩⟩⟩⟩ := args <;> cases same
    refine Related.lift_bind fun x foundT => Related.lift_bind fun y foundS => ?_
    exact Consistent.ofExpr (by decide) (Tidy.ilt (tidy e (by simp))
      (identifier_of_symbolName (tidy t (by simp)) foundT) (identifier_of_symbolName (tidy s (by simp)) foundS))
  next f rest same =>
    obtain _ | ⟨e, others⟩ := args <;> cases same
    refine Related.lift_bind fun x? found => ?_
    have named := identifier_of_optionalName (drop (n := 1)) found
    exact Consistent.ofExprs (by decide) (Value.reliable_solve (tidy e (by simp)) named)
  next => exact .throw _

theorem consistent_run {args : List Expr} (tidy : ∀ a ∈ args, Tidy a) :
    function.Consistent (function.run (args.map .expr)) := by
  unfold run
  split
  next rule _ found same =>
    obtain _ | ⟨x, _ | ⟨_, _⟩⟩ := args <;> cases same
    have single := not_givesList_of_onExpr found
    refine Related.lift_bind fun y known => ?_
    cases known
    have answer := Consistent.ofExpr single (reliable_onExpr found (tidy x (by simp)))
    split
    · exact Related.bind (Alike.own _) fun _ _ _ => answer
    · exact answer
  next rule _ _ found same _ =>
    obtain _ | ⟨x, others⟩ := args <;> cases same
    refine Related.lift_bind fun x? named => Related.lift_bind fun y known => ?_
    cases known
    have others : ∀ a ∈ others, Tidy a := fun a member => tidy a (List.mem_cons_of_mem _ member)
    exact consistent_inUnknown found (tidy _ List.mem_cons_self) (identifier_of_optionalName others named)
  next rule _ _ _ found same _ =>
    obtain _ | ⟨a, _ | ⟨b, others⟩⟩ := args <;> cases same
    refine Related.lift_bind fun x? named => Related.lift_bind fun y known => Related.lift_bind fun z other => ?_
    cases known
    cases other
    have others : ∀ a ∈ others, Tidy a := fun a member => tidy a (by simp [member])
    exact consistent_onPair found (tidy _ (by simp)) (tidy _ (by simp)) (identifier_of_optionalName others named)
  next => exact consistent_onValues tidy

theorem givesList_of_lookup {name : String} {spec : FunctionSpec} (known : functions.lookup name = some spec) :
    ∃ function, spec.body = .builtin function ∧ (function.GivesList ↔ givesList name = true) := by
  have entries : ∀ entry ∈ table, entry.2.1.GivesList ↔ givesList entry.1 = true := by decide
  obtain ⟨before, after, split, -⟩ := List.lookup_eq_some_iff.mp known
  have member : (name, spec) ∈ functions := split ▸ List.mem_append_right before List.mem_cons_self
  obtain ⟨entry, inside, same⟩ := List.mem_map.mp member
  cases same
  exact ⟨entry.2.1, rfl, entries entry inside⟩

end Builtin

theorem Engine.Called.of_tidy {name : String} {v w : Value} (same : w = v) (tidy : AllTidy v) : Called name v w := by
  obtain ⟨e, rfl, tidyE⟩ := tidy
  exact ⟨same, fun _ found => Value.expr.inj found ▸ tidyE, fun _ => ⟨e, rfl⟩⟩

theorem tidy_of_argumentOf {params : List String} {args : List Expr} (tidy : ∀ a ∈ args, Tidy a) :
    Tidy.Leaves (argumentOf params (args.map .expr)) := by
  intro name e found
  obtain ⟨before, after, split, -⟩ := List.lookup_eq_some_iff.mp found
  have member : (name, Value.expr e) ∈ (params.zip (args.map .expr)).reverse :=
    split ▸ List.mem_append_right before List.mem_cons_self
  obtain ⟨a, inside, same⟩ := List.mem_map.mp (List.of_mem_zip (List.mem_reverse.mp member)).2
  exact Value.expr.inj same ▸ tidy a inside

theorem FunctionSpec.IsSound.apply {spec : FunctionSpec} {name : String} (sound : spec.IsSound name)
    {args : List Expr} (tidy : ∀ a ∈ args, Tidy a) :
    Related (Called name) (spec.apply (args.map .expr)) (spec.apply (args.map .expr)) := by
  unfold FunctionSpec.apply
  cases sound with
  | builtin known =>
    obtain ⟨function, body, gives⟩ := Builtin.givesList_of_lookup known
    rw [body]
    refine (Builtin.consistent_run tidy).imp fun v w ⟨same, list, single⟩ => ?_
    by_cases listed : function.GivesList
    · obtain ⟨items, rfl⟩ := list listed
      exact ⟨same, nofun, fun single => by rw [gives.mp listed] at single; cases single⟩
    · exact .of_tidy same (single listed)
  | definition rule tidyBody =>
    rw [rule]
    refine Related.lift_bind fun body found => ?_
    cases found
    refine Related.bind (tidyBody.rebuild (tidy_of_argumentOf tidy)) ?_
    rintro _ e ⟨rfl, tidyE⟩
    exact .pure (.of_tidy rfl ⟨e, rfl, tidyE⟩)
  | native given sound =>
    rw [given]
    exact Related.lift (.of_eq fun v returned => .of_tidy rfl (sound args tidy v returned))

theorem related_callFunction {name : String} (named : Identifier name) (proper : name ≠ "sqrt") {args : List Expr}
    (tidy : ∀ a ∈ args, Tidy a) :
    Related (Called name) (callFunction name (args.map .expr)) (callFunction name (args.map .expr)) := by
  refine Related.read fun {c d} twins => ?_
  rw [twins.scope.functions]
  cases found : c.scope.functions.lookup name with
  | none =>
    have arguments : (args.map Value.expr).map Value.toArgument = args := by
      rw [List.map_map]
      exact List.map_id args
    dsimp only
    rw [arguments]
    exact .pure (.of_tidy rfl (allTidy_expr (.inert named proper tidy)))
  | some spec =>
    have sound := twins.scope.sound name spec found
    refine Related.lift_bind fun _ _ => ?_
    cases args with
    | nil => exact sound.apply tidy
    | cons e rest => exact sound.apply tidy

/-- A call that nests too deep counts as a limit. -/
theorem twins_callWithin {s t : Scope} (same : s.Matches t) (n m : ℕ) :
    Twins ⟨s, callWithin n⟩ ⟨t, callWithin m⟩ := by
  have unsupported : IsLimit .unsupported := .inr (.inr rfl)
  induction n generalizing s t m with
  | zero => exact ⟨same, fun _ _ _ _ _ _ _ _ => .of_limit_left unsupported _⟩
  | succ n ih =>
    cases m with
    | zero => exact ⟨same, fun _ _ _ _ _ _ _ _ => .of_limit_right unsupported _⟩
    | succ m =>
      exact ⟨same, fun within name named proper args tidy => related_callFunction named proper tidy (ih within m)⟩

end ExactAlgebra
