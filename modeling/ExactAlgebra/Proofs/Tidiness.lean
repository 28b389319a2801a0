import ExactAlgebra.Proofs.AdditionOrder
import ExactAlgebra.Proofs.Closure
import ExactAlgebra.Proofs.ElementaryForm
import Mathlib

/-! Tidy expressions: well formed, and without a zero among the terms of a sum. The arithmetic and the
elementary functions keep them so. -/
namespace ExactAlgebra.Expr

mutual
/-- No zero stands among the terms of a sum, anywhere in the tree. -/
def IsPruned : Expr → Prop
  | number _ | symbol .. | foreign _ => True
  | call _ _ args _ => AllPruned args
  | sum _ terms _ => (∀ t ∈ terms, t.isZero = false) ∧ AllPruned terms
  | product _ factors => AllPruned factors
  | exponential _ base exponent => base.IsPruned ∧ exponent.IsPruned

def AllPruned : List Expr → Prop
  | [] => True
  | e :: es => e.IsPruned ∧ AllPruned es
end

mutual
def decidablePruned : (e : Expr) → Decidable e.IsPruned
  | number _ | symbol .. | foreign _ => inferInstanceAs (Decidable True)
  | call _ _ args _ => decidableAllPruned args
  | sum _ terms _ =>
    have := decidableAllPruned terms
    inferInstanceAs (Decidable ((∀ t ∈ terms, t.isZero = false) ∧ AllPruned terms))
  | product _ factors => decidableAllPruned factors
  | exponential _ base exponent =>
    have := decidablePruned base
    have := decidablePruned exponent
    inferInstanceAs (Decidable (base.IsPruned ∧ exponent.IsPruned))

def decidableAllPruned : (es : List Expr) → Decidable (AllPruned es)
  | [] => inferInstanceAs (Decidable True)
  | e :: es =>
    have := decidablePruned e
    have := decidableAllPruned es
    inferInstanceAs (Decidable (e.IsPruned ∧ AllPruned es))
end

theorem allPruned_iff {es : List Expr} : AllPruned es ↔ ∀ e ∈ es, e.IsPruned := by
  induction es with
  | nil => simp [AllPruned]
  | cons e es ih => simp [AllPruned, ih]

theorem IsPruned.keptByPowers : KeptByPowers IsPruned where
  number _ := trivial
  withCoeff {e} pruned _ := by cases e <;> exact pruned
  product := allPruned_iff.mpr
  each := allPruned_iff.mp
  sum each nonzero := ⟨nonzero, allPruned_iff.mpr each⟩
  terms pruned := allPruned_iff.mp pruned.2
  withPower {e} pruned _ := by cases e <;> exact pruned
  exponential base exponent := ⟨base, exponent⟩
  parts pruned := pruned
  args := allPruned_iff.mp
  imaginary := trivial
  minusOne _ := trivial
  root _ _ := trivial

/-- A well-formed expression without superfluous terms. -/
@[mk_iff]
structure Tidy (e : Expr) : Prop where
  formed : e.WellFormed
  pruned : e.IsPruned

instance : DecidablePred Tidy := fun e =>
  have := decidableWellFormed e
  have := decidablePruned e
  decidable_of_iff _ (tidy_iff e).symm

variable {a b e r : Expr}

namespace Tidy

theorem number (c : Rat) : Tidy (number c) := ⟨trivial, trivial⟩

theorem bare {name : String} (named : Identifier name) : Tidy (bare name) :=
  ⟨wellFormed_bare named (Reader.isIntegerText_identifier named), trivial⟩

theorem inert {name : String} (named : Identifier name) (proper : name ≠ "sqrt") {args : List Expr}
    (tidy : ∀ a ∈ args, Tidy a) : Tidy (inert name args) :=
  ⟨⟨one_ne_zero, one_ne_zero, named, proper, allWellFormed_iff.mpr fun a member => (tidy a member).formed⟩,
    allPruned_iff.mpr fun a member => (tidy a member).pruned⟩

theorem args {c p : Rat} {name : String} {args : List Expr} (tidy : Tidy (call c name args p)) :
    ∀ a ∈ args, Tidy a := fun a member =>
  ⟨allWellFormed_iff.mp tidy.formed.2.2.2.2 a member, IsPruned.keptByPowers.args tidy.pruned a member⟩

theorem call {c p : Rat} {name : String} {args others : List Expr} (tidy : Tidy (call c name args p))
    (each : ∀ a ∈ others, Tidy a) : Tidy (.call c name others p) :=
  ⟨⟨tidy.formed.1, tidy.formed.2.1, tidy.formed.2.2.1, tidy.formed.2.2.2.1,
    allWellFormed_iff.mpr fun a member => (each a member).formed⟩,
    allPruned_iff.mpr fun a member => (each a member).pruned⟩

theorem terms {c p : Rat} {terms : List Expr} (tidy : Tidy (sum c terms p)) : ∀ t ∈ terms, Tidy t :=
  fun t member => ⟨allWellFormed_iff.mp tidy.formed.2.2.2 t member,
    IsPruned.keptByPowers.terms tidy.pruned t member⟩

theorem each {c : Rat} {factors : List Expr} (tidy : Tidy (product c factors)) :
    ∀ f ∈ factors, Tidy f := fun f member =>
  ⟨allWellFormed_iff.mp tidy.formed.2.2 f member, IsPruned.keptByPowers.each tidy.pruned f member⟩

theorem base {c : Rat} {base exponent : Expr} (tidy : Tidy (exponential c base exponent)) : Tidy base :=
  ⟨tidy.formed.2.2.1, tidy.pruned.1⟩

theorem exponent {c : Rat} {base exponent : Expr} (tidy : Tidy (exponential c base exponent)) :
    Tidy exponent := ⟨tidy.formed.2.2.2, tidy.pruned.2⟩

theorem withCoeff (tidy : Tidy e) {c : Rat} (nonzero : c ≠ 0) : Tidy (e.withCoeff c) :=
  ⟨tidy.formed.withCoeff nonzero, IsPruned.keptByPowers.withCoeff tidy.pruned c⟩

theorem unit (tidy : Tidy e) : Tidy e.unit := tidy.withCoeff one_ne_zero

theorem neg (tidy : Tidy e) : Tidy e.neg :=
  ⟨tidy.formed.neg, IsPruned.keptByPowers.withCoeff tidy.pruned _⟩

theorem scale (tidy : Tidy e) (c : Rat) : Tidy (e.scale c) :=
  ⟨tidy.formed.scale c, IsPruned.keptByPowers.scale tidy.pruned c⟩

theorem stem (tidy : Tidy e) (proper : e.isIntegerBase = false) : Tidy e.stem :=
  ⟨tidy.formed.stem proper, IsPruned.keptByPowers.stem tidy.pruned⟩

theorem factors (tidy : Tidy e) : ∀ f ∈ e.factors, Tidy f := fun f member =>
  ⟨(tidy.formed.factors f member).1, IsPruned.keptByPowers.factors tidy.pruned f member⟩

theorem coeff_ne_zero (tidy : Tidy e) (some : e.isZero = false) : e.coeff ≠ 0 := by
  cases e with
  | number c => simpa [isZero, coeff] using some
  | _ => exact tidy.formed.coeff_ne_zero rfl

/-- The node of a sum without its coefficient and its power. -/
theorem plain {c p : Rat} {terms : List Expr} (tidy : Tidy (sum c terms p)) : Tidy (.sum 1 terms 1) :=
  ⟨⟨one_ne_zero, one_ne_zero, tidy.formed.2.2⟩, tidy.pruned⟩

theorem spreadTerms (tidy : Tidy e) : ∀ t ∈ e.spreadTerms, Tidy t := by
  intro t member
  cases e with
  | sum c terms p =>
    rw [Expr.spreadTerms] at member
    split at member
    · obtain ⟨u, inside, rfl⟩ := List.mem_map.mp member
      have stored := (sortTerms_perm terms).mem_iff.mp inside
      exact (tidy.terms u stored).withCoeff (mul_ne_zero
        ((tidy.terms u stored).coeff_ne_zero (tidy.pruned.1 u stored)) tidy.formed.1)
    · obtain rfl := List.mem_singleton.mp member
      exact tidy
  | _ =>
    obtain rfl := List.mem_singleton.mp member
    exact tidy

/-- Tidy expressions can be added up in any order. -/
theorem isReduced (tidy : Tidy e) : IsReduced e := by
  refine ⟨tidy.formed, fun some t member => ?_⟩
  cases e with
  | sum c terms p =>
    rw [Expr.summands] at member
    split at member
    · obtain ⟨u, inside, rfl⟩ := List.mem_map.mp member
      rw [(tidy.terms u inside).formed.coeff_withCoeff]
      exact mul_ne_zero ((tidy.terms u inside).coeff_ne_zero (tidy.pruned.1 u inside)) tidy.formed.1
    · obtain rfl := List.mem_singleton.mp member
      exact tidy.coeff_ne_zero some
  | _ =>
    obtain rfl := List.mem_singleton.mp member
    exact tidy.coeff_ne_zero some

theorem keptByExpansion : KeptByExpansion Tidy where
  number := .number
  args := args
  call := call
  terms := terms
  factors := each
  exponential tidy := ⟨tidy.base, tidy.exponent⟩
  scale := scale
  add tidyA tidyB returned := ⟨add_wellFormed tidyA.formed tidyB.formed returned,
    IsPruned.keptByPowers.add tidyA.pruned tidyB.pruned returned⟩
  mul tidyA tidyB returned := ⟨mul_wellFormed tidyA.formed tidyB.formed returned,
    IsPruned.keptByPowers.mul tidyA.pruned tidyB.pruned returned⟩
  powRat tidy returned := ⟨powRat_wellFormed tidy.formed returned,
    IsPruned.keptByPowers.powRat tidy.pruned returned⟩
  pow tidyA tidyB returned := ⟨pow_wellFormed tidyA.formed tidyB.formed returned,
    IsPruned.keptByPowers.pow tidyA.pruned tidyB.pruned returned⟩

theorem keptByFunctions : Elementary.KeptByFunctions Tidy where
  number := number
  bare := bare
  inert named proper each := inert named proper each
  root n := ⟨Elementary.wellFormed_keptByFunctions.root n, trivial⟩
  args := args
  exponent := exponent
  nonzero tidy := tidy.formed.coeff_ne_zero
  withCoeff tidy nonzero := tidy.withCoeff nonzero
  sub tidyA tidyB returned := keptByExpansion.add tidyA tidyB.neg returned
  div tidyA tidyB returned := ⟨div_wellFormed tidyA.formed tidyB.formed returned,
    IsPruned.keptByPowers.div tidyA.pruned tidyB.pruned returned⟩
  pow := keptByExpansion.pow

end Tidy

end ExactAlgebra.Expr

namespace ExactAlgebra
open ExactAlgebra.Expr

/-- Data of which it makes sense to say that every expression in them is tidy. -/
class HoldsExprs (α : Type) where
  AllTidy : α → Prop

export HoldsExprs (AllTidy)

variable {α β γ : Type}

instance : HoldsExprs Expr := ⟨Tidy⟩
instance [HoldsExprs α] : HoldsExprs (Option α) := ⟨fun a? => ∀ a ∈ a?, AllTidy a⟩
instance [HoldsExprs α] : HoldsExprs (List α) := ⟨fun as => ∀ a ∈ as, AllTidy a⟩
instance [HoldsExprs α] [HoldsExprs β] : HoldsExprs (α × β) := ⟨fun pair => AllTidy pair.1 ∧ AllTidy pair.2⟩
instance : HoldsExprs Unit := ⟨fun _ => True⟩
instance : HoldsExprs Bool := ⟨fun _ => True⟩
instance : HoldsExprs Nat := ⟨fun _ => True⟩
instance : HoldsExprs Int := ⟨fun _ => True⟩
instance : HoldsExprs Rat := ⟨fun _ => True⟩
instance : HoldsExprs Float := ⟨fun _ => True⟩
instance : HoldsExprs String := ⟨fun _ => True⟩

theorem allTidy_none [HoldsExprs α] : AllTidy (none : Option α) := nofun

theorem allTidy_some [HoldsExprs α] {a : α} : AllTidy (some a) ↔ AllTidy a :=
  ⟨fun tidy => tidy a rfl, fun tidy _ same => Option.some.inj same ▸ tidy⟩

theorem allTidy_nil [HoldsExprs α] : AllTidy ([] : List α) := nofun

theorem allTidy_cons [HoldsExprs α] {a : α} {as : List α} : AllTidy (a :: as) ↔ AllTidy a ∧ AllTidy as :=
  List.forall_mem_cons

theorem allTidy_singleton [HoldsExprs α] {a : α} (tidy : AllTidy a) : AllTidy [a] :=
  allTidy_cons.mpr ⟨tidy, allTidy_nil⟩

theorem allTidy_append [HoldsExprs α] {as bs : List α} (first : AllTidy as) (second : AllTidy bs) :
    AllTidy (as ++ bs) := fun a member => (List.mem_append.mp member).elim (first a) (second a)

/-- If the computation returns something, every expression in it is tidy. -/
def Tidies [HoldsExprs α] (x : Except Fault α) : Prop := ∀ a, x = .ok a → AllTidy a

namespace Tidies

variable [HoldsExprs α] [HoldsExprs β] {x : Except Fault α} {f : α → Except Fault β}

theorem ok {a : α} (tidy : AllTidy a) : Tidies (.ok a : Except Fault α) := by
  rintro _ ⟨⟩
  exact tidy

theorem error (fault : Fault) : Tidies (.error fault : Except Fault α) := nofun

/-- In the second part it is known what the first one returned. -/
theorem bind_eq {x : Except Fault γ} {f : γ → Except Fault β} (next : ∀ a, x = .ok a → Tidies (f a)) :
    Tidies (x >>= f) := by
  intro r returned
  obtain ⟨a, first, returned⟩ := Outcome.bind_ok returned
  exact next a first r returned

theorem bind (first : Tidies x) (next : ∀ a, AllTidy a → Tidies (f a)) : Tidies (x >>= f) :=
  bind_eq fun a returned => next a (first a returned)

theorem mapM {f : γ → Except Fault β} {items : List γ} (each : ∀ a ∈ items, Tidies (f a)) :
    Tidies (items.mapM f) := by
  intro bs returned b member
  obtain ⟨a, inside, computed⟩ := Outcome.mem_of_mapM returned member
  exact each a inside b computed

theorem foldlM {step : β → γ → Except Fault β} {items : List γ} {init : β} (start : AllTidy init)
    (steps : ∀ b, AllTidy b → ∀ a ∈ items, Tidies (step b a)) : Tidies (items.foldlM step init) := by
  induction items generalizing init with
  | nil => exact ok start
  | cons a rest ih =>
    rw [List.foldlM_cons]
    refine (steps init start a List.mem_cons_self).bind fun b tidy => ?_
    exact ih tidy fun b tidy a later => steps b tidy a (List.mem_cons_of_mem _ later)

end Tidies

namespace Expr.Tidy

variable {a b : Expr}

theorem add (tidyA : Tidy a) (tidyB : Tidy b) : Tidies (add a b) := fun _ => keptByExpansion.add tidyA tidyB

theorem sub (tidyA : Tidy a) (tidyB : Tidy b) : Tidies (sub a b) := fun _ => keptByFunctions.sub tidyA tidyB

theorem mul (tidyA : Tidy a) (tidyB : Tidy b) : Tidies (mul a b) := fun _ => keptByExpansion.mul tidyA tidyB

theorem powRat (tidy : Tidy a) (p : Rat) : Tidies (powRat a p) := fun _ => keptByExpansion.powRat tidy

theorem sqrt (tidy : Tidy a) : Tidies (sqrt a) := tidy.powRat _

theorem pow (tidyA : Tidy a) (tidyB : Tidy b) : Tidies (pow a b) := fun _ => keptByExpansion.pow tidyA tidyB

theorem div (tidyA : Tidy a) (tidyB : Tidy b) : Tidies (div a b) := fun _ => keptByFunctions.div tidyA tidyB

theorem inv (tidy : Tidy a) : Tidies (inv a) := fun _ returned =>
  ⟨inv_wellFormed tidy.formed returned, IsPruned.keptByPowers.inv tidy.pruned returned⟩

theorem addAll {terms : List Expr} (tidy : Tidy a) (each : ∀ t ∈ terms, Tidy t) : Tidies (addAll a terms) :=
  Tidies.foldlM tidy fun _ tidyTotal t member => tidyTotal.add (each t member)

theorem mulAll {factors : List Expr} (tidy : Tidy a) (each : ∀ f ∈ factors, Tidy f) :
    Tidies (mulAll a factors) :=
  Tidies.foldlM tidy fun _ tidyResult f member => tidyResult.mul (each f member)

end Expr.Tidy

end ExactAlgebra
