import ExactAlgebra.Builtin.Elementary
import ExactAlgebra.Proofs.Multiplication
import ExactAlgebra.Proofs.Phrase
import Mathlib

/-! What the elementary functions keep. They leave calls unevaluated, undo others, and compute with the
arithmetic, so every property that goes along with these passes from the arguments to the values. -/
namespace ExactAlgebra
open ExactAlgebra.Expr

/-- A property that goes along with numbers, names, calls and the arithmetic. -/
structure Elementary.KeptByFunctions (kept : Expr → Prop) : Prop where
  number : ∀ c, kept (number c)
  bare : ∀ {name}, Identifier name → kept (bare name)
  inert : ∀ {name args}, Identifier name → name ≠ "sqrt" → (∀ a ∈ args, kept a) → kept (inert name args)
  root : ∀ n : ℕ, kept (halfRoot n)
  args : ∀ {c name args p}, kept (call c name args p) → ∀ a ∈ args, kept a
  exponent : ∀ {c base exponent}, kept (exponential c base exponent) → kept exponent
  nonzero : ∀ {e}, kept e → e.isNumber = false → e.coeff ≠ 0
  withCoeff : ∀ {e c}, kept e → c ≠ 0 → kept (e.withCoeff c)
  sub : ∀ {a b r}, kept a → kept b → Expr.sub a b = .ok r → kept r
  div : ∀ {a b r}, kept a → kept b → Expr.div a b = .ok r → kept r
  pow : ∀ {a b r}, kept a → kept b → Expr.pow a b = .ok r → kept r

/-- The constants among expressions are these expressions. -/
theorem Elementary.mem_of_constants? {es cs : List Expr} (known : constants? (es.map .expr) = .ok (some cs))
    {c : Expr} (member : c ∈ cs) : c ∈ es := by
  induction es generalizing cs with
  | nil =>
    cases known
    exact member
  | cons e es ih =>
    obtain ⟨_, -, known⟩ := Outcome.bind_ok known
    split at known
    · obtain ⟨rest?, rest, known⟩ := Outcome.bind_ok known
      obtain ⟨others, rfl, rfl⟩ := Option.map_eq_some_iff.mp (Except.ok.inj known)
      rcases List.mem_cons.mp member with rfl | later
      · exact List.mem_cons_self
      · exact List.mem_cons_of_mem _ (ih rest later)
    · cases known

/-- What is chosen is one of all. -/
theorem Elementary.foldl_choose_mem {least : Bool} {best : Expr × Float} {rest : List (Expr × Float)} :
    rest.foldl (choose least) best ∈ best :: rest := by
  induction rest generalizing best with
  | nil => exact List.mem_singleton_self best
  | cons new rest ih =>
    have either : choose least best new = new ∨ choose least best new = best := ite_eq_or_eq _ _ _
    rw [List.foldl_cons]
    rcases either with same | same
    · rw [same]
      exact List.mem_cons_of_mem _ ih
    · rw [same]
      exact (List.mem_cons.mp ih).elim (fun first => first ▸ List.mem_cons_self)
        fun later => List.mem_cons_of_mem _ (List.mem_cons_of_mem _ later)

namespace Elementary.KeptByFunctions

variable {kept : Expr → Prop} (keeps : KeptByFunctions kept) {x r : Expr}
include keeps

theorem neg (holds : kept x) : kept x.neg := by
  cases number : x.isNumber with
  | true =>
    cases x with
    | number => exact keeps.number _
    | _ => cases number
  | false => exact keeps.withCoeff holds (neg_ne_zero.mpr (keeps.nonzero holds number))

theorem unit (holds : kept x) : kept x.unit := keeps.withCoeff holds one_ne_zero

theorem scale (holds : kept x) (c : Rat) : kept (x.scale c) := by
  unfold Expr.scale
  split
  · exact keeps.number 0
  next nonzero =>
    cases number : x.isNumber with
    | true =>
      cases x with
      | number => exact keeps.number _
      | _ => cases number
    | false => exact keeps.withCoeff holds (mul_ne_zero (keeps.nonzero holds number) nonzero)

theorem odd {f : Expr → Expr} (each : ∀ {x}, kept x → kept (f x)) (holds : kept x) : kept (odd f x) := by
  unfold Elementary.odd
  split
  · exact keeps.neg (each (keeps.neg holds))
  · exact each holds

theorem even {f : Expr → Expr} (each : ∀ {x}, kept x → kept (f x)) (holds : kept x) : kept (even f x) := by
  unfold Elementary.even
  split
  · exact each (keeps.neg holds)
  · exact each holds

theorem firstQuadrant? {k : Rat} {v : Expr} (found : firstQuadrant? k = some v) : kept v := by
  unfold Elementary.firstQuadrant? at found
  split at found
  · cases found
    exact keeps.number 0
  split at found
  · cases found
    exact keeps.number _
  split at found
  · cases found
    exact keeps.root 2
  split at found
  · cases found
    exact keeps.root 3
  split at found
  · cases found
    exact keeps.number 1
  · cases found

theorem sineOfPiMultiple? {k : Rat} {v : Expr} (found : sineOfPiMultiple? k = some v) : kept v := by
  unfold Elementary.sineOfPiMultiple? at found
  obtain ⟨u, quadrant, rfl⟩ := Option.map_eq_some_iff.mp found
  have holds := keeps.firstQuadrant? quadrant
  split
  · exact keeps.neg holds
  · exact holds

theorem exactSine? {v : Expr} (found : exactSine? x = some v) : kept v := by
  obtain ⟨k, -, value⟩ := Option.bind_eq_some_iff.mp found
  exact keeps.sineOfPiMultiple? value

theorem exactCosine? {v : Expr} (found : exactCosine? x = some v) : kept v := by
  obtain ⟨k, -, value⟩ := Option.bind_eq_some_iff.mp found
  exact keeps.sineOfPiMultiple? value

theorem one {name : String} (named : Identifier name) (proper : name ≠ "sqrt") (holds : kept x) :
    kept (Expr.inert name [x]) :=
  keeps.inert named proper fun _ member => List.mem_singleton.mp member ▸ holds

theorem undo {name inverse : String} (named : Identifier name) (proper : name ≠ "sqrt")
    (holds : kept x) : kept (undo name inverse x) := by
  unfold Elementary.undo
  split
  next f u rest bare =>
    split
    · cases x with
      | call c g args p =>
        obtain ⟨-, -, rfl⟩ : (c = 1 ∧ p = 1) ∧ g = f ∧ args = u :: rest := by
          simpa [bareCall?] using bare
        exact keeps.args holds u List.mem_cons_self
      | _ => simp [bareCall?] at bare
    · exact keeps.one named proper holds
  · exact keeps.one named proper holds

theorem sin (holds : kept x) : kept (sin x) := by
  unfold Elementary.sin
  cases exact : Elementary.exactSine? x with
  | some v => exact keeps.exactSine? exact
  | none => exact keeps.odd (keeps.undo (by decide) (by decide)) holds

theorem cos (holds : kept x) : kept (cos x) := by
  unfold Elementary.cos
  cases exact : Elementary.exactCosine? x with
  | some v => exact keeps.exactCosine? exact
  | none => exact keeps.even (keeps.undo (by decide) (by decide)) holds

theorem tan (holds : kept x) (returned : tan x = .ok r) : kept r := by
  unfold Elementary.tan at returned
  split at returned
  next s c sine cosine =>
    split at returned
    · obtain ⟨_, _, returned⟩ := Outcome.bind_ok returned
      cases returned
    · exact keeps.div (keeps.exactSine? sine) (keeps.exactCosine? cosine) returned
  next =>
    cases returned
    exact keeps.odd (keeps.undo (by decide) (by decide)) holds

theorem exactAngle? {v : Expr} (found : exactAngle? x = some v) : kept v := by
  unfold Elementary.exactAngle? at found
  split at found
  · obtain ⟨k, -, rfl⟩ := Option.map_eq_some_iff.mp found
    exact keeps.scale (keeps.bare (by decide)) _
  · cases found

theorem asin (holds : kept x) (returned : asin x = .ok r) : kept r := by
  obtain ⟨_, _, returned⟩ := Outcome.bind_ok returned
  cases returned
  cases exact : Elementary.exactAngle? x with
  | some v => exact keeps.exactAngle? exact
  | none => exact keeps.odd (keeps.one (by decide) (by decide)) holds

theorem acos (holds : kept x) (returned : acos x = .ok r) : kept r := by
  obtain ⟨_, _, returned⟩ := Outcome.bind_ok returned
  have pi : kept (Expr.bare "pi") := keeps.bare (by decide)
  split at returned
  next angle exact => exact keeps.sub (keeps.scale pi _) (keeps.exactAngle? exact) returned
  next =>
    split at returned
    · exact keeps.sub pi (keeps.one (by decide) (by decide) (keeps.neg holds)) returned
    · cases returned
      exact keeps.one (by decide) (by decide) holds

theorem atan (holds : kept x) : kept (atan x) := by
  refine keeps.odd (fun {x} holds => ?_) holds
  split
  · exact keeps.number 0
  split
  · exact keeps.scale (keeps.bare (by decide)) _
  · exact keeps.one (by decide) (by decide) holds

theorem oddAtZero {name : String} (named : Identifier name) (proper : name ≠ "sqrt") (holds : kept x) :
    kept (oddAtZero name x) := by
  refine keeps.odd (fun {x} holds => ?_) holds
  split
  · exact keeps.number 0
  · exact keeps.one named proper holds

theorem cosh (holds : kept x) : kept (cosh x) := by
  refine keeps.even (fun {x} holds => ?_) holds
  split
  · exact keeps.number 1
  · exact keeps.one (by decide) (by decide) holds

theorem acosh (holds : kept x) : kept (acosh x) := by
  unfold Elementary.acosh
  split
  · exact keeps.number 0
  · exact keeps.one (by decide) (by decide) holds

theorem log (holds : kept x) (returned : log x = .ok r) : kept r := by
  have left : kept (Expr.inert "log" [x]) := keeps.one (by decide) (by decide) holds
  unfold Elementary.log at returned
  obtain ⟨_, returned⟩ := Outcome.passed returned
  split at returned
  · cases returned
    exact keeps.number 0
  cases returned
  split
  · split
    · exact keeps.number _
    · exact left
  · split
    · exact keeps.exponent holds
    · exact left
  · exact left

theorem log10 (holds : kept x) (returned : log10 x = .ok r) : kept r := by
  obtain ⟨top, above, returned⟩ := Outcome.bind_ok returned
  exact keeps.div (keeps.log holds above) (keeps.one (by decide) (by decide) (keeps.number 10)) returned

theorem exp (holds : kept x) (returned : exp x = .ok r) : kept r :=
  keeps.pow (keeps.bare (by decide)) holds returned

theorem abs (holds : kept x) : kept (abs x) := by
  have left : kept ((Expr.inert "abs" [x.unit]).scale (Rational.abs x.coeff)) :=
    keeps.scale (keeps.one (by decide) (by decide) (keeps.unit holds)) _
  have size (proper : x.isNumber = false) : Rational.abs x.coeff ≠ 0 := by
    rw [Rational.abs_eq_abs]
    exact abs_ne_zero.mpr (keeps.nonzero holds proper)
  unfold Elementary.abs
  cases x with
  | number => exact keeps.number _
  | symbol c name p =>
    dsimp only [Expr.unit, Expr.withCoeff]
    split
    · exact keeps.withCoeff holds (mul_ne_zero one_ne_zero (size rfl))
    · exact left
  | call c name args p =>
    dsimp only [Expr.unit, Expr.withCoeff]
    split
    · exact keeps.withCoeff holds (mul_ne_zero one_ne_zero (size rfl))
    · exact left
  | _ => exact left

theorem factorial (holds : kept x) (returned : factorial x = .ok r) : kept r := by
  unfold Elementary.factorial at returned
  split at returned
  · cases returned
    exact keeps.one (by decide) (by decide) holds
  · split at returned
    · obtain ⟨_, _, returned⟩ := Outcome.bind_ok returned
      cases returned
    · obtain ⟨large, _, returned⟩ := Outcome.bind_ok returned
      split at returned
      · cases returned
      · cases returned
        exact keeps.number _

theorem mod {y : Expr} (holdsX : kept x) (holdsY : kept y) (returned : mod x y = .ok r) : kept r := by
  unfold Elementary.mod at returned
  split at returned
  · obtain ⟨v, _, returned⟩ := Outcome.bind_ok returned
    cases returned
    exact keeps.number v
  · cases returned
    refine keeps.inert (by decide) (by decide) fun a member => ?_
    rcases List.mem_cons.mp member with rfl | later
    · exact holdsX
    · exact List.mem_singleton.mp later ▸ holdsY

theorem extreme {name : String} (named : Identifier name) (proper : name ≠ "sqrt") {least : Bool}
    {es : List Expr} (each : ∀ e ∈ es, kept e) (returned : extreme name least (es.map .expr) = .ok r) :
    kept r := by
  obtain ⟨constants, known, returned⟩ := Outcome.bind_ok returned
  split at returned
  next cs =>
    obtain ⟨measured, measures, returned⟩ := Outcome.bind_ok returned
    have sources : ∀ m ∈ measured, kept m.1 := by
      intro m member
      obtain ⟨e, inside, pairs⟩ := Outcome.mem_of_mapM measures member
      obtain ⟨x, -, pairs⟩ := Outcome.bind_ok pairs
      cases pairs
      exact each e (mem_of_constants? known inside)
    split at returned
    · cases returned
    · cases returned
      exact sources _ foldl_choose_mem
  next =>
    cases returned
    refine keeps.inert named proper fun a member => ?_
    obtain ⟨v, inside, rfl⟩ := List.mem_map.mp member
    obtain ⟨e, there, rfl⟩ := List.mem_map.mp inside
    exact each e there

end Elementary.KeptByFunctions

/-- Well-formed arguments give well-formed values. -/
theorem Elementary.wellFormed_keptByFunctions : KeptByFunctions WellFormed where
  number _ := trivial
  bare named := wellFormed_bare named (Reader.isIntegerText_identifier named)
  inert named proper each := ⟨one_ne_zero, one_ne_zero, named, proper, allWellFormed_iff.mpr each⟩
  root n := by
    have digits := Text.isIntegerText_toString n
    refine ⟨by norm_num, by norm_num, .inr digits, fun _ => by norm_num, fun same => ?_⟩
    rw [same] at digits
    cases digits
  args formed := allWellFormed_iff.mp formed.2.2.2.2
  exponent formed := formed.2.2.2
  nonzero := WellFormed.coeff_ne_zero
  withCoeff formed nonzero := formed.withCoeff nonzero
  sub := sub_wellFormed
  div := div_wellFormed
  pow := pow_wellFormed

end ExactAlgebra
