import ExactAlgebra.Arithmetic.Product
import ExactAlgebra.Text.Letter
import ExactAlgebra.Proofs.Content
import Mathlib

/-! Well-formed expressions: the form in which the arithmetic keeps its trees. Every condition is on
one node and its direct children; a tree is well formed when all its nodes are. -/
namespace ExactAlgebra.Expr

/-- Case analysis with a hypothesis for every expression directly below. -/
@[elab_as_elim]
theorem induction {motive : Expr → Prop} (number : ∀ c, motive (number c))
    (symbol : ∀ c name p, motive (symbol c name p))
    (call : ∀ c name args p, (∀ a ∈ args, motive a) → motive (call c name args p))
    (sum : ∀ c terms p, (∀ t ∈ terms, motive t) → motive (sum c terms p))
    (product : ∀ c factors, (∀ f ∈ factors, motive f) → motive (product c factors))
    (exponential : ∀ c base exponent, motive base → motive exponent →
      motive (exponential c base exponent))
    (foreign : ∀ copyable, motive (foreign copyable)) (e : Expr) : motive e :=
  @Expr.rec motive (fun es => ∀ e ∈ es, motive e)
    number symbol call sum product exponential foreign
    (fun _ member => absurd member List.not_mem_nil)
    (fun _ _ head tail e member => by
      rcases List.mem_cons.mp member with rfl | later
      · exact head
      · exact tail e later) e

def Identifier (name : String) : Prop := Text.takeName? name.toList = some (name.toList, [])

instance (name : String) : Decidable (Identifier name) := inferInstanceAs (Decidable (_ = _))

def hasTermKey (e : Expr) : Bool := (e.termRank e.face).hasKey

/-- Terms as they stand in a sum: each can be looked up by a key of its own, none is a plain sum
itself, and the coefficients are integers without a common divisor, of which the first to be written
is positive. -/
@[mk_iff]
structure NormalTerms (terms : List Expr) : Prop where
  several : 2 ≤ terms.length
  keyed : ∀ t ∈ terms, t.hasTermKey = true
  distinct : (terms.map termKey).Nodup
  flat : ∀ t ∈ terms, t.isPlainSum = false
  integral : ∀ t ∈ terms, t.coeff.den = 1
  coprime : commonDivisor (terms.map coeff) = 1
  positive : ∀ t ∈ (sortTerms terms).head?, 0 < t.coeff

/-- Something that can stand as a factor in a product. -/
@[mk_iff]
structure IsFactor (f : Expr) : Prop where
  unit : f.coeff = 1
  notNumber : f.isNumber = false
  notProduct : f.isProduct = false

/-- Factors as they stand in a product: each can be looked up by a key of its own. -/
@[mk_iff]
structure NormalFactors (factors : List Expr) : Prop where
  several : 2 ≤ factors.length
  keyed : ∀ f ∈ factors, f.hasBaseKey = true
  distinct : (factors.map baseKey).Nodup
  proper : ∀ f ∈ factors, IsFactor f

mutual
/-- The tree is in the form in which the arithmetic keeps it. -/
def WellFormed : Expr → Prop
  | number _ => True
  | symbol c name p =>
    c ≠ 0 ∧ p ≠ 0 ∧ (Identifier name ∨ isIntegerText name = true) ∧
      (isIntegerText name = true → p.den ≠ 1) ∧ (name = "i" → p.den = 1 → p = 1)
  | call c name args p =>
    c ≠ 0 ∧ p ≠ 0 ∧ Identifier name ∧ name ≠ "sqrt" ∧ AllWellFormed args
  | sum c terms p => c ≠ 0 ∧ p ≠ 0 ∧ NormalTerms terms ∧ AllWellFormed terms
  | product c factors => c ≠ 0 ∧ NormalFactors factors ∧ AllWellFormed factors
  | exponential c base exponent =>
    c ≠ 0 ∧ exponent.isNumber = false ∧ base.WellFormed ∧ exponent.WellFormed
  | foreign _ => False

def AllWellFormed : List Expr → Prop
  | [] => True
  | e :: es => e.WellFormed ∧ AllWellFormed es
end

instance (terms : List Expr) : Decidable (NormalTerms terms) :=
  decidable_of_iff _ (normalTerms_iff terms).symm

instance (f : Expr) : Decidable (IsFactor f) := decidable_of_iff _ (isFactor_iff f).symm

instance (factors : List Expr) : Decidable (NormalFactors factors) :=
  decidable_of_iff _ (normalFactors_iff factors).symm

mutual
def decidableWellFormed : (e : Expr) → Decidable e.WellFormed
  | number _ => inferInstanceAs (Decidable True)
  | symbol c name p =>
    inferInstanceAs (Decidable (c ≠ 0 ∧ p ≠ 0 ∧ (Identifier name ∨ isIntegerText name = true) ∧
      (isIntegerText name = true → p.den ≠ 1) ∧ (name = "i" → p.den = 1 → p = 1)))
  | call c name args p =>
    have := decidableAllWellFormed args
    inferInstanceAs (Decidable (c ≠ 0 ∧ p ≠ 0 ∧ Identifier name ∧ name ≠ "sqrt" ∧ AllWellFormed args))
  | sum c terms p =>
    have := decidableAllWellFormed terms
    inferInstanceAs (Decidable (c ≠ 0 ∧ p ≠ 0 ∧ NormalTerms terms ∧ AllWellFormed terms))
  | product c factors =>
    have := decidableAllWellFormed factors
    inferInstanceAs (Decidable (c ≠ 0 ∧ NormalFactors factors ∧ AllWellFormed factors))
  | exponential c base exponent =>
    have := decidableWellFormed base
    have := decidableWellFormed exponent
    inferInstanceAs (Decidable (c ≠ 0 ∧ exponent.isNumber = false ∧ base.WellFormed ∧ exponent.WellFormed))
  | foreign _ => inferInstanceAs (Decidable False)

def decidableAllWellFormed : (es : List Expr) → Decidable (AllWellFormed es)
  | [] => inferInstanceAs (Decidable True)
  | e :: es =>
    have := decidableWellFormed e
    have := decidableAllWellFormed es
    inferInstanceAs (Decidable (e.WellFormed ∧ AllWellFormed es))
end

instance : DecidablePred WellFormed := decidableWellFormed

theorem allWellFormed_iff {es : List Expr} : AllWellFormed es ↔ ∀ e ∈ es, e.WellFormed := by
  induction es with
  | nil => simp [AllWellFormed]
  | cons e es ih => simp [AllWellFormed, ih]

theorem anyContains_iff {x : String} {es : List Expr} :
    anyContains x es = true ↔ ∃ e ∈ es, e.contains x = true := by
  induction es with
  | nil => simp [anyContains]
  | cons e es ih => simp [anyContains, ih]

theorem anyContains_eq_false {x : String} {es : List Expr} :
    anyContains x es = false ↔ ∀ e ∈ es, e.contains x = false := by
  simp [← Bool.not_eq_true, anyContains_iff]

@[simp] theorem withCoeff_withCoeff (e : Expr) (c d : Rat) :
    (e.withCoeff c).withCoeff d = e.withCoeff d := by
  cases e <;> rfl

@[simp] theorem withCoeff_coeff (e : Expr) : e.withCoeff e.coeff = e := by
  cases e <;> rfl

@[simp] theorem unit_unit (e : Expr) : e.unit.unit = e.unit := withCoeff_withCoeff e 1 1

@[simp] theorem isNumber_withCoeff (e : Expr) (c : Rat) :
    (e.withCoeff c).isNumber = e.isNumber := by
  cases e <;> rfl

@[simp] theorem isPlainSum_withCoeff (e : Expr) (c : Rat) :
    (e.withCoeff c).isPlainSum = e.isPlainSum := by
  cases e <;> rfl

@[simp] theorem contains_withCoeff (e : Expr) (c : Rat) (x : String) :
    (e.withCoeff c).contains x = e.contains x := by
  cases e <;> rfl

@[simp] theorem isProduct_withCoeff (e : Expr) (c : Rat) :
    (e.withCoeff c).isProduct = e.isProduct := by
  cases e <;> rfl

/-- Apart from numbers, what an expression contributes to texts does not depend on its
coefficient. -/
theorem face_withCoeff {e : Expr} (proper : e.isNumber = false) (c : Rat) :
    (e.withCoeff c).face = e.face := by
  cases e with
  | number => simp [isNumber] at proper
  | _ => rfl

@[simp] theorem termRank_withCoeff (e : Expr) (c : Rat) :
    (e.withCoeff c).termRank (e.withCoeff c).face = e.termRank e.face := by
  cases e <;> rfl

theorem termRank_key (e : Expr) : (e.termRank e.face).key = e.termKey := by
  unfold termRank termKey
  split <;> rfl

@[simp] theorem termKey_withCoeff (e : Expr) (c : Rat) : (e.withCoeff c).termKey = e.termKey := by
  rw [← termRank_key, ← termRank_key, termRank_withCoeff]

@[simp] theorem hasTermKey_withCoeff (e : Expr) (c : Rat) :
    (e.withCoeff c).hasTermKey = e.hasTermKey := by
  rw [hasTermKey, hasTermKey, termRank_withCoeff]

theorem face_sum_key (c : Rat) (terms : List Expr) (p q : Rat) :
    (sum c terms p).face.key = (sum c terms q).face.key ∧
      (sum c terms p).face.hasKey = (sum c terms q).face.hasKey := by
  simp only [face]
  constructor <;> split <;> split <;> rfl

@[simp] theorem baseKey_withPower (e : Expr) (p : Rat) : (e.withPower p).baseKey = e.baseKey := by
  cases e with
  | sum c terms q => exact (face_sum_key c terms p q).1
  | _ => rfl

@[simp] theorem hasBaseKey_withPower (e : Expr) (p : Rat) :
    (e.withPower p).hasBaseKey = e.hasBaseKey := by
  cases e with
  | sum c terms q => exact (face_sum_key c terms p q).2
  | _ => rfl

namespace WellFormed

theorem coeff_ne_zero {e : Expr} (formed : e.WellFormed) (proper : e.isNumber = false) :
    e.coeff ≠ 0 := by
  cases e with
  | number => simp [isNumber] at proper
  | foreign => exact formed.elim
  | _ => exact formed.1

theorem coeff_withCoeff {e : Expr} (formed : e.WellFormed) (c : Rat) :
    (e.withCoeff c).coeff = c := by
  cases e with
  | foreign => exact formed.elim
  | _ => rfl

/-- A well-formed tree stays so under any nonzero coefficient. -/
theorem withCoeff {e : Expr} (formed : e.WellFormed) {c : Rat} (nonzero : c ≠ 0) :
    (e.withCoeff c).WellFormed := by
  cases e with
  | number => trivial
  | foreign => exact formed.elim
  | _ => exact ⟨nonzero, formed.2⟩

theorem unit {e : Expr} (formed : e.WellFormed) : e.unit.WellFormed :=
  formed.withCoeff one_ne_zero

theorem of_unit {e : Expr} (formed : e.unit.WellFormed)
    (nonzero : e.isNumber = true ∨ e.coeff ≠ 0) : e.WellFormed := by
  cases e with
  | number => trivial
  | foreign => exact formed.elim
  | _ => exact ⟨nonzero.resolve_left (by simp [isNumber]), formed.2⟩

theorem neg {e : Expr} (formed : e.WellFormed) : e.neg.WellFormed := by
  cases e with
  | number => trivial
  | foreign => exact formed.elim
  | _ => exact ⟨neg_ne_zero.mpr formed.1, formed.2⟩

theorem scale {e : Expr} (formed : e.WellFormed) (c : Rat) : (e.scale c).WellFormed := by
  unfold Expr.scale
  split
  · trivial
  next nonzero =>
    cases e with
    | number => trivial
    | foreign => exact formed.elim
    | _ => exact ⟨mul_ne_zero formed.1 nonzero, formed.2⟩

theorem isNumber_scale {e : Expr} (proper : e.isNumber = false) {c : Rat} (nonzero : c ≠ 0) :
    (e.scale c).isNumber = false := by
  rw [Expr.scale, if_neg nonzero, isNumber_withCoeff, proper]

/-- The stem of a factor is well formed, except that an integer under a root is no factor alone. -/
theorem stem {e : Expr} (formed : e.WellFormed) (proper : e.isIntegerBase = false) :
    e.stem.WellFormed := by
  cases e with
  | number | foreign => exact formed
  | symbol c name p =>
    obtain ⟨_, _, named, _, _⟩ := formed
    refine ⟨one_ne_zero, one_ne_zero, named, fun digits => ?_, fun _ _ => rfl⟩
    simp [isIntegerBase, digits] at proper
  | call c name args p => exact ⟨one_ne_zero, one_ne_zero, formed.2.2⟩
  | sum c terms p => exact ⟨one_ne_zero, one_ne_zero, formed.2.2⟩
  | product c factors => exact ⟨one_ne_zero, formed.2⟩
  | exponential c base exponent => exact ⟨one_ne_zero, formed.2⟩

/-- A power of a call or of a sum may be any nonzero number. -/
theorem withPower {e : Expr} (formed : e.WellFormed) (proper : e.isSymbol = false) {p : Rat}
    (nonzero : p ≠ 0) : (e.withPower p).WellFormed := by
  cases e with
  | symbol => simp [isSymbol] at proper
  | call c name args q => exact ⟨formed.1, nonzero, formed.2.2⟩
  | sum c terms q => exact ⟨formed.1, nonzero, formed.2.2⟩
  | _ => exact formed

end WellFormed

theorem eq_zero_of_isZero {e : Expr} (none : e.isZero = true) : e = zero := by
  cases e with
  | number c => exact congrArg number (by simpa [isZero] using none)
  | _ => cases none

theorem wellFormed_bare {name : String} (named : Identifier name)
    (proper : isIntegerText name = false) : (bare name).WellFormed :=
  ⟨one_ne_zero, one_ne_zero, .inl named, by simp [proper], fun _ _ => rfl⟩

end ExactAlgebra.Expr
