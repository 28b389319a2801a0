import ExactAlgebra.Proofs.Merging
import Mathlib

/-! Properties that all of the arithmetic keeps. It is enough that a property passes between an expression
and its parts, where no zero has to be taken for a term of a sum. So arithmetic makes no names up: those in a result
are names of the operands, the imaginary unit, or integers under a root. -/
namespace ExactAlgebra.Expr

/-- A property that passes between an expression and its parts, and that the roots of numbers have. -/
structure KeptByPowers (kept : Expr → Prop) : Prop extends KeptByProducts kept where
  sum : ∀ {c terms}, (∀ t ∈ terms, kept t) → (∀ t ∈ terms, t.isZero = false) → kept (sum c terms 1)
  terms : ∀ {c terms p}, kept (Expr.sum c terms p) → ∀ t ∈ terms, kept t
  withPower : ∀ {e}, kept e → ∀ p, kept (e.withPower p)
  exponential : ∀ {c base exponent}, kept base → kept exponent → kept (exponential c base exponent)
  parts : ∀ {c base exponent}, kept (Expr.exponential c base exponent) → kept base ∧ kept exponent
  args : ∀ {c name args p}, kept (call c name args p) → ∀ a ∈ args, kept a
  imaginary : kept (bare "i")
  minusOne : ∀ p, kept (symbol 1 "-1" p)
  root : ∀ (n : ℕ) p, kept (symbol 1 (toString n) p)

theorem isZero_withCoeff {e : Expr} {c : Rat} (nonzero : c ≠ 0) : (e.withCoeff c).isZero = false := by
  cases e <;> simp [withCoeff, isZero, nonzero]

namespace KeptByPowers

variable {kept : Expr → Prop} (keeps : KeptByPowers kept)
include keeps

theorem ofTerms {terms : List RankedTerm} (each : ∀ t ∈ terms, kept t.2) : kept (ofTerms terms) := by
  have left : ∀ t ∈ remaining terms, kept t.2 ∧ t.2.coeff ≠ 0 := fun t member =>
    ⟨each t (mem_remaining.mp member).1, (mem_remaining.mp member).2⟩
  rcases several : remaining terms with _ | ⟨t, _ | ⟨u, rest⟩⟩
  · rw [ofTerms_of_remaining_nil several]
    exact keeps.number 0
  · rw [ofTerms_of_remaining_single several]
    exact (left t (several ▸ List.mem_cons_self)).1
  · rw [ofTerms_of_remaining_several several]
    rw [several] at left
    have nonzero := share_ne_zero (left t List.mem_cons_self).2 (u :: rest)
    refine keeps.sum (fun v member => ?_) fun v member => ?_
    · obtain ⟨w, inside, rfl⟩ := List.mem_map.mp member
      exact keeps.withCoeff (left w inside).1 _
    · obtain ⟨w, inside, rfl⟩ := List.mem_map.mp member
      exact isZero_withCoeff (div_ne_zero (left w inside).2 nonzero)

theorem add {a b r : Expr} (holdsA : kept a) (holdsB : kept b) (returned : add a b = .ok r) : kept r := by
  have withCoeff : ∀ {e}, kept e → ∀ c, kept (e.withCoeff c) := keeps.withCoeff
  rcases add_cases returned with ⟨_, rfl⟩ | ⟨_, rfl⟩ | ⟨x, y, _, _, rfl⟩ | ⟨_, rfl⟩
  · exact holdsB
  · exact holdsA
  · exact keeps.number _
  · refine keeps.ofTerms (forall_foldl_insertTerm withCoeff (by simp) fun t member => ?_)
    obtain ⟨u, inside, rfl⟩ := List.mem_map.mp member
    rcases List.mem_append.mp inside with left | right
    · exact forall_summands withCoeff keeps.terms holdsA u left
    · exact forall_summands withCoeff keeps.terms holdsB u right

theorem symbol_withCoeff {name : String} {p : Rat} (holds : kept (symbol 1 name p)) (c : Rat) :
    kept (symbol c name p) := keeps.withCoeff holds c

theorem powerOfI (n : Int) : kept (powerOfI n) := by
  unfold Expr.powerOfI
  split
  · exact keeps.number 1
  · exact keeps.imaginary
  · exact keeps.number (-1)
  · exact keeps.symbol_withCoeff keeps.imaginary (-1)

theorem timesSymbol {m u : Expr} (holdsM : kept m) (holdsU : kept u) : kept (timesSymbol m u) := by
  unfold Expr.timesSymbol
  split
  · exact keeps.scale holdsU _
  · refine keeps.product fun f member => ?_
    rcases List.mem_cons.mp member with rfl | later
    · exact keeps.withCoeff holdsM 1
    · obtain rfl := List.mem_singleton.mp later
      exact keeps.withCoeff holdsU 1

theorem rootOfPositive {value exponent : Rat} {r : Expr}
    (returned : rootOfPositive value exponent = .ok r) : kept r := by
  unfold Expr.rootOfPositive at returned
  obtain ⟨_, returned⟩ := Outcome.passed returned
  obtain ⟨power, _, returned⟩ := Outcome.bind_ok returned
  dsimp only at returned
  split at returned
  · cases returned
    exact keeps.number _
  · cases returned
    exact keeps.symbol_withCoeff (keeps.root _ _) _

theorem powNumber {value exponent : Rat} {r : Expr} (returned : powNumber value exponent = .ok r) :
    kept r := by
  unfold Expr.powNumber at returned
  split at returned
  · obtain ⟨_, returned⟩ := Outcome.passed returned
    obtain ⟨_, returned⟩ := Outcome.passed returned
    obtain ⟨power, _, returned⟩ := Outcome.bind_ok returned
    cases returned
    exact keeps.number _
  split at returned
  · cases returned
    exact keeps.number 0
  split at returned
  · cases returned
    exact keeps.number 1
  split at returned
  · exact keeps.rootOfPositive returned
  obtain ⟨magnitude, found, returned⟩ := Outcome.bind_ok returned
  have holds := keeps.rootOfPositive found
  split at returned
  · cases returned
    split
    · exact holds
    · exact keeps.withCoeff holds _
  split at returned
  · cases returned
    exact keeps.timesSymbol holds (keeps.powerOfI _)
  · cases returned
    exact keeps.timesSymbol holds (keeps.minusOne _)

theorem mergedFactors {e : Expr} (holds : kept e) : ∀ f ∈ mergedFactors e, kept f := by
  intro f member
  cases e with
  | number => cases member
  | product c factors => exact keeps.each holds f member
  | _ =>
    obtain rfl := List.mem_singleton.mp member
    exact keeps.withCoeff holds 1

theorem exponentOf {e : Expr} (holds : kept e) : kept (exponentOf e) := by
  cases e with
  | exponential c base exponent => exact (keeps.parts holds).2
  | _ => exact keeps.number _

theorem stem {e : Expr} (holds : kept e) : kept e.stem := keeps.withPower (keeps.withCoeff holds 1) 1

theorem baseOf {e : Expr} (holds : kept e) : kept (baseOf e) := by
  cases e with
  | exponential c base exponent => exact (keeps.parts holds).1
  | symbol c name p =>
    rw [Expr.baseOf]
    split
    · exact keeps.number _
    · exact keeps.stem holds
  | _ => exact keeps.stem holds

end KeptByPowers

structure KeepsWithin (kept : Expr → Prop) (n : ℕ) : Prop where
  mul : ∀ {a b r : Expr}, kept a → kept b → mulWithin n a b = .ok r → kept r
  merge : ∀ {pending : List Expr} {factors merged : List (String × Expr)} {c d : Rat},
    (∀ f ∈ pending, kept f) → (∀ f ∈ factors, kept f.2) →
      mergeWithin n pending factors c = .ok (merged, d) → ∀ f ∈ merged, kept f.2
  powRat : ∀ {a r : Expr} {p : Rat}, kept a → powRatWithin n a p = .ok r → kept r
  pow : ∀ {a b r : Expr}, kept a → kept b → powWithin n a b = .ok r → kept r

namespace KeepsWithin

variable {kept : Expr → Prop} {n : ℕ} (within : KeepsWithin kept n) (keeps : KeptByPowers kept)
include within

theorem foldlM_mul {p : Rat} {factors : List Expr} {first r : Expr} (holds : ∀ f ∈ factors, kept f)
    (holdsFirst : kept first)
    (returned : factors.foldlM (fun result f => do
      mulWithin n result (← powRatWithin n f p)) first = .ok r) : kept r := by
  induction factors generalizing first with
  | nil =>
    cases returned
    exact holdsFirst
  | cons f rest ih =>
    rw [List.foldlM_cons] at returned
    obtain ⟨next, stepped, returned⟩ := Outcome.bind_ok returned
    obtain ⟨power, raised, stepped⟩ := Outcome.bind_ok stepped
    have holdsPower := within.powRat (holds f List.mem_cons_self) raised
    exact ih (fun g later => holds g (List.mem_cons_of_mem _ later))
      (within.mul holdsFirst holdsPower stepped) returned

include keeps

theorem mul_succ {a b r : Expr} (holdsA : kept a) (holdsB : kept b)
    (returned : mulWithin (n + 1) a b = .ok r) : kept r := by
  unfold mulWithin at returned
  split at returned
  · cases returned
    exact keeps.number 0
  split at returned
  · cases returned
    exact keeps.scale holdsB _
  · cases returned
    exact keeps.scale holdsA _
  · obtain ⟨⟨factors, c⟩, found, returned⟩ := Outcome.bind_ok returned
    cases returned
    refine keeps.ofFactors (fun f member => ?_) c
    obtain ⟨g, inside, rfl⟩ := List.mem_map.mp member
    refine within.merge (fun f member => ?_) (by simp) found g inside
    rcases List.mem_append.mp member with left | right
    · exact keeps.factors holdsA f left
    · exact keeps.factors holdsB f right

theorem merge_succ {pending : List Expr} {factors merged : List (String × Expr)} {c d : Rat}
    (holds : ∀ f ∈ pending, kept f) (before : ∀ f ∈ factors, kept f.2)
    (returned : mergeWithin (n + 1) pending factors c = .ok (merged, d)) : ∀ f ∈ merged, kept f.2 := by
  cases pending with
  | nil =>
    cases returned
    exact before
  | cons f pending =>
    have holdsF := holds f List.mem_cons_self
    have holdsRest : ∀ g ∈ pending, kept g := fun g later => holds g (List.mem_cons_of_mem _ later)
    obtain ⟨-, ⟨-, returned⟩ | ⟨g, others, exponent, power, found, added, raised, returned⟩⟩ :=
      mergeWithin_cons returned
    · refine within.merge holdsRest (fun g member => ?_) returned
      rcases List.mem_append.mp member with old | new
      · exact before g old
      · obtain rfl := List.mem_singleton.mp new
        exact holdsF
    · obtain ⟨perm, sub⟩ := removeFactor_some found
      have holdsG := before (f.baseKey, g) (perm.mem_iff.mpr List.mem_cons_self)
      have holdsExponent := keeps.add (keeps.exponentOf holdsG) (keeps.exponentOf holdsF) added
      have holdsPower := within.pow (keeps.baseOf holdsG) holdsExponent raised
      refine within.merge (fun h member => ?_) (fun h member => before h (sub.subset member)) returned
      rcases List.mem_append.mp member with old | new
      · exact holdsRest h old
      · exact keeps.mergedFactors holdsPower h new

theorem powRat_succ {a r : Expr} {p : Rat} (holds : kept a)
    (returned : powRatWithin (n + 1) a p = .ok r) : kept r := by
  unfold powRatWithin at returned
  split at returned
  · obtain ⟨_, returned⟩ := Outcome.passed returned
    cases returned
    exact keeps.number 1
  split at returned
  · cases returned
    exact holds
  split at returned
  next c =>
    split at returned
    · obtain ⟨_, returned⟩ := Outcome.passed returned
      cases returned
      exact keeps.number 0
    · exact keeps.powNumber returned
  next c factors =>
    obtain ⟨outer, raised, returned⟩ := Outcome.bind_ok returned
    exact within.foldlM_mul (keeps.each holds) (keeps.powNumber raised) returned
  next c base exponent =>
    obtain ⟨outer, raised, returned⟩ := Outcome.bind_ok returned
    obtain ⟨inner, powered, returned⟩ := Outcome.bind_ok returned
    obtain ⟨holdsBase, holdsExponent⟩ := keeps.parts holds
    exact within.mul (keeps.powNumber raised)
      (within.pow holdsBase (keeps.scale holdsExponent p) powered) returned
  next c name q =>
    obtain ⟨outer, raised, returned⟩ := Outcome.bind_ok returned
    have holdsOuter := keeps.powNumber raised
    split at returned
    · obtain ⟨inner, powered, returned⟩ := Outcome.bind_ok returned
      exact within.mul holdsOuter (keeps.powNumber powered) returned
    split at returned
    · exact within.mul holdsOuter (keeps.powerOfI _) returned
    · refine within.mul holdsOuter ?_ returned
      split
      · exact keeps.number 1
      · exact keeps.withPower (keeps.withCoeff holds 1) _
  next =>
    obtain ⟨outer, raised, returned⟩ := Outcome.bind_ok returned
    refine within.mul (keeps.powNumber raised) ?_ returned
    split
    · exact keeps.number 1
    · exact keeps.withPower (keeps.withCoeff holds 1) _

theorem pow_succ {a b r : Expr} (holdsA : kept a) (holdsB : kept b)
    (returned : powWithin (n + 1) a b = .ok r) : kept r := by
  unfold powWithin at returned
  split at returned
  · exact within.powRat holdsA returned
  split at returned
  · cases returned
    exact keeps.number 1
  split at returned
  · cases returned
    exact keeps.number 0
  split at returned
  next c base exponent =>
    split at returned
    · obtain ⟨product, multiplied, returned⟩ := Outcome.bind_ok returned
      obtain ⟨holdsBase, holdsExponent⟩ := keeps.parts holdsA
      exact within.pow holdsBase (within.mul holdsExponent holdsB multiplied) returned
    · cases returned
      exact keeps.exponential holdsA holdsB
  next c name p _ _ =>
    split at returned
    · split at returned
      next k u found =>
        obtain ⟨f, q, rfl⟩ := naturalLog?_eq found
        exact within.powRat (keeps.args holdsB u List.mem_cons_self) returned
      next =>
        cases returned
        refine keeps.exponential ?_ (keeps.scale holdsB p)
        split
        · exact keeps.number _
        · exact keeps.stem holdsA
    · cases returned
      exact keeps.exponential holdsA holdsB
  next =>
    cases returned
    exact keeps.exponential holdsA holdsB

end KeepsWithin

namespace KeptByPowers

variable {kept : Expr → Prop} (keeps : KeptByPowers kept) {a b r : Expr}
include keeps

/-- The property is kept whatever the work limit. -/
theorem within (n : ℕ) : KeepsWithin kept n := by
  induction n with
  | zero =>
    constructor
    · intro a b r _ _ returned
      cases returned
    · intro pending factors merged c d _ before returned
      cases pending with
      | nil =>
        cases returned
        exact before
      | cons => cases returned
    · intro a r p _ returned
      cases returned
    · intro a b r _ _ returned
      cases returned
  | succ n within =>
    exact ⟨within.mul_succ keeps, within.merge_succ keeps, within.powRat_succ keeps, within.pow_succ keeps⟩

theorem mul (holdsA : kept a) (holdsB : kept b) (returned : mul a b = .ok r) : kept r :=
  (keeps.within _).mul holdsA holdsB returned

theorem powRat {p : Rat} (holds : kept a) (returned : powRat a p = .ok r) : kept r :=
  (keeps.within _).powRat holds returned

theorem pow (holdsA : kept a) (holdsB : kept b) (returned : pow a b = .ok r) : kept r :=
  (keeps.within _).pow holdsA holdsB returned

theorem inv (holds : kept a) (returned : inv a = .ok r) : kept r := by
  unfold Expr.inv at returned
  split at returned
  · obtain ⟨_, _, returned⟩ := Outcome.bind_ok returned
    cases returned
    exact keeps.number _
  · exact keeps.powRat holds returned

theorem div (holdsA : kept a) (holdsB : kept b) (returned : div a b = .ok r) : kept r := by
  obtain ⟨_, returned⟩ := Outcome.passed returned
  obtain ⟨inverse, inverted, returned⟩ := Outcome.bind_ok returned
  exact keeps.mul holdsA (keeps.inv holdsB inverted) returned

theorem mulAll {first : Expr} {factors : List Expr} (holdsFirst : kept first)
    (holds : ∀ f ∈ factors, kept f) (returned : mulAll first factors = .ok r) : kept r := by
  induction factors generalizing first with
  | nil =>
    cases returned
    exact holdsFirst
  | cons f rest ih =>
    rw [Expr.mulAll, List.foldlM_cons] at returned
    obtain ⟨next, multiplied, returned⟩ := Outcome.bind_ok returned
    exact ih (keeps.mul holdsFirst (holds f List.mem_cons_self) multiplied)
      (fun g later => holds g (List.mem_cons_of_mem _ later)) returned

end KeptByPowers

section Names

def NamesHave (property : String → Prop) (e : Expr) : Prop := ∀ x ∈ e.names, property x

variable {property : String → Prop}

theorem namesAll_eq (es : List Expr) : namesAll es = es.flatMap names := by
  induction es with
  | nil => rfl
  | cons e es ih => rw [namesAll, ih, List.flatMap_cons]

theorem namesAll_have {es : List Expr} :
    (∀ x ∈ namesAll es, property x) ↔ ∀ e ∈ es, NamesHave property e := by
  rw [namesAll_eq]
  constructor
  · intro all e inside x member
    exact all x (List.mem_flatMap.mpr ⟨e, inside, member⟩)
  · intro each x member
    obtain ⟨e, inside, found⟩ := List.mem_flatMap.mp member
    exact each e inside x found

theorem names_withCoeff (e : Expr) (c : Rat) : (e.withCoeff c).names = e.names := by
  cases e <;> rfl

theorem names_withPower (e : Expr) (p : Rat) : (e.withPower p).names = e.names := by
  cases e <;> rfl

namespace NamesHave

theorem number (c : Rat) : NamesHave property (number c) := by
  intro x member
  cases member

theorem symbol {c p : Rat} {name : String} (known : property name) :
    NamesHave property (symbol c name p) := by
  intro x member
  obtain rfl := List.mem_singleton.mp member
  exact known

theorem withCoeff {e : Expr} (holds : NamesHave property e) (c : Rat) :
    NamesHave property (e.withCoeff c) := by
  intro x member
  exact holds x (names_withCoeff e c ▸ member)

theorem scale {e : Expr} (holds : NamesHave property e) (c : Rat) : NamesHave property (e.scale c) := by
  unfold Expr.scale
  split
  · exact number 0
  · exact holds.withCoeff _

theorem product {c : Rat} {factors : List Expr} :
    NamesHave property (product c factors) ↔ ∀ f ∈ factors, NamesHave property f := namesAll_have

theorem sum {c p : Rat} {terms : List Expr} :
    NamesHave property (sum c terms p) ↔ ∀ t ∈ terms, NamesHave property t := namesAll_have

theorem exponential {c : Rat} {base exponent : Expr} :
    NamesHave property (exponential c base exponent) ↔
      NamesHave property base ∧ NamesHave property exponent := by
  constructor
  · intro both
    exact ⟨fun x member => both x (List.mem_append_left _ member),
      fun x member => both x (List.mem_append_right _ member)⟩
  · rintro ⟨left, right⟩ x member
    rcases List.mem_append.mp member with inside | inside
    · exact left x inside
    · exact right x inside

theorem keptByProducts : KeptByProducts (NamesHave property) where
  number := number
  withCoeff := withCoeff
  product := product.mpr
  each := product.mp

theorem factors {e : Expr} (holds : NamesHave property e) : ∀ f ∈ e.factors, NamesHave property f :=
  keptByProducts.factors holds

end NamesHave

/-- The names that arithmetic itself brings in: the imaginary unit, and integers under a root. -/
structure Admits (property : String → Prop) : Prop where
  imaginary : property "i"
  minusOne : property "-1"
  digits : ∀ n : Nat, property (toString n)

/-- Sums, products and powers bring in no names but those of the arithmetic. -/
theorem Admits.keptByPowers (admits : Admits property) : KeptByPowers (NamesHave property) where
  toKeptByProducts := NamesHave.keptByProducts
  withPower {e} holds p x member := holds x (names_withPower e p ▸ member)
  exponential base exponent := NamesHave.exponential.mpr ⟨base, exponent⟩
  parts := NamesHave.exponential.mp
  args := namesAll_have.mp
  sum each _ := NamesHave.sum.mpr each
  terms := NamesHave.sum.mp
  imaginary := .symbol admits.imaginary
  minusOne _ := .symbol admits.minusOne
  root n _ := .symbol (admits.digits n)

namespace NamesHave

variable {a b r : Expr}

theorem add (admits : Admits property) (holdsA : NamesHave property a) (holdsB : NamesHave property b)
    (returned : add a b = .ok r) : NamesHave property r := admits.keptByPowers.add holdsA holdsB returned

theorem mul (admits : Admits property) (holdsA : NamesHave property a) (holdsB : NamesHave property b)
    (returned : mul a b = .ok r) : NamesHave property r := admits.keptByPowers.mul holdsA holdsB returned

theorem powRat {p : Rat} (admits : Admits property) (holds : NamesHave property a)
    (returned : powRat a p = .ok r) : NamesHave property r := admits.keptByPowers.powRat holds returned

theorem pow (admits : Admits property) (holdsA : NamesHave property a) (holdsB : NamesHave property b)
    (returned : pow a b = .ok r) : NamesHave property r := admits.keptByPowers.pow holdsA holdsB returned

theorem div (admits : Admits property) (holdsA : NamesHave property a) (holdsB : NamesHave property b)
    (returned : div a b = .ok r) : NamesHave property r := admits.keptByPowers.div holdsA holdsB returned

theorem mulAll {first : Expr} {factors : List Expr} (admits : Admits property)
    (holdsFirst : NamesHave property first) (holds : ∀ f ∈ factors, NamesHave property f)
    (returned : mulAll first factors = .ok r) : NamesHave property r :=
  admits.keptByPowers.mulAll holdsFirst holds returned

end NamesHave

end Names
end ExactAlgebra.Expr
