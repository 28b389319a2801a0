import ExactAlgebra.Proofs.Composition
import ExactAlgebra.Proofs.ExpansionValue
import ExactAlgebra.Proofs.RoundTrip
import Mathlib

/-! Numbers given for names. A text of arithmetic in which every name is given a number is computed with
numbers alone, and comes to the value, at these numbers, of what the text is read to without them. So it makes
no difference whether a number is given for a name beforehand or put for it afterwards. -/
namespace ExactAlgebra

namespace Expr
open Reader

variable {ρ : String → ℚ} {a b e r : Expr} {u v : ℚ}

theorem nonzero_of_div_numbers (returned : div (number u) (number v) = .ok r) : v ≠ 0 := by
  obtain ⟨some, -⟩ := Outcome.passed returned
  simpa [isZero] using some

theorem pow_numbers (whole : v.den = 1) (returned : pow (number u) (number v) = .ok r) :
    (v ≤ 0 → u ≠ 0) ∧ r = number (u ^ v.num) := by
  have nonzero : v ≤ 0 → u ≠ 0 := by
    rintro atMost rfl
    obtain ⟨fault, refused⟩ := pow_zero_refused atMost
    cases refused.symm.trans returned
  refine ⟨nonzero, ?_⟩
  obtain ⟨n, limit⟩ := enough_for_one (number u) (number v)
  rw [pow, limit] at returned
  change powRatWithin (n + 1) (number u) v = .ok r at returned
  unfold powRatWithin at returned
  split at returned
  next none =>
    rw [if_neg (by simpa [isZero] using nonzero none.le)] at returned
    rw [← Except.ok.inj returned, none, Rat.num_zero, zpow_zero]
    rfl
  split at returned
  next one => rw [← Except.ok.inj returned, one, Rat.num_one, zpow_one]
  next present _ =>
    dsimp only at returned
    split at returned
    next zero =>
      split at returned
      · cases returned
      · rw [← Except.ok.inj returned, zero, zero_zpow _ (Rat.num_ne_zero.mpr present)]
        rfl
    next base =>
      rw [powNumber_whole whole base] at returned
      split at returned
      · cases returned
      · exact (Except.ok.inj returned).symm

/-- What a sign of arithmetic does with numbers; exponents are whole. -/
def onNumbers : Sign → ℚ → ℚ → ℚ
  | .plus, u, v => u + v
  | .minus, u, v => u - v
  | .times, u, v => u * v
  | .divided, u, v => u / v
  | .raised, u, v => u ^ v.num

theorem apply_numbers {sign : Sign} (whole : sign = .raised → v.den = 1)
    (returned : sign.apply (number u) (number v) = .ok r) :
    r = number (onNumbers sign u v) ∧ (sign = .divided → v ≠ 0) ∧ (sign = .raised → v ≤ 0 → u ≠ 0) := by
  cases sign with
  | plus => exact ⟨Except.ok.inj (returned.symm.trans (add_numbers u v)), nofun, nofun⟩
  | minus => exact ⟨Except.ok.inj (returned.symm.trans (sub_numbers u v)), nofun, nofun⟩
  | times => exact ⟨Except.ok.inj (returned.symm.trans (mul_numbers u v)), nofun, nofun⟩
  | divided =>
    have nonzero := nonzero_of_div_numbers returned
    exact ⟨Except.ok.inj (returned.symm.trans (div_numbers nonzero)), fun _ => nonzero, nofun⟩
  | raised =>
    obtain ⟨nonzero, same⟩ := pow_numbers (whole rfl) returned
    exact ⟨same, nofun, fun _ => nonzero⟩

namespace HasValue

theorem neg (has : HasValue ρ v a) : HasValue ρ (-v) a.neg := by
  have scaled := has.scale (-1)
  have shape : a.scale (-1) = a.neg := by rw [Expr.scale, if_neg (by decide), mul_neg_one, Expr.neg]
  rwa [shape, neg_one_mul] at scaled

theorem pow (has : HasValue ρ u a) (whole : v.den = 1) (nonzero : v ≤ 0 → u ≠ 0)
    (returned : Expr.pow a (number v) = .ok e) : HasValue ρ (u ^ v.num) e := by
  have exponent : ((v.num : ℤ) : ℚ) = v := Rat.coe_int_num_of_den_eq_one whole
  have base : v.num ≤ 0 → eval ρ a ≠ 0 := fun below => has.value.symm ▸ nonzero (Rat.num_nonpos.mp below)
  rcases answers_pow has.rational has.defined v.num base with answers | failed
  · rw [exponent, has.value] at answers
    exact of_answers answers returned
  · rw [exponent] at failed
    cases failed.symm.trans returned

/-- A sign does with the values of two rational functions what it does with numbers. -/
theorem apply {sign : Sign} (hasA : HasValue ρ u a) (hasB : HasValue ρ v b) (divisor : sign = .divided → v ≠ 0)
    (exponent : sign = .raised → b = number v ∧ v.den = 1 ∧ (v ≤ 0 → u ≠ 0))
    (returned : sign.apply a b = .ok e) : HasValue ρ (onNumbers sign u v) e := by
  cases sign with
  | plus => exact hasA.add hasB returned
  | minus =>
    rw [onNumbers, sub_eq_add_neg]
    exact hasA.add hasB.neg returned
  | times => exact hasA.mul hasB returned
  | divided => exact hasA.div hasB (divisor rfl) returned
  | raised =>
    obtain ⟨rfl, whole, nonzero⟩ := exponent rfl
    exact hasA.pow whole nonzero returned

end HasValue

/-- What comes out of `y` is a number: the value of what comes out of `x`. -/
def Agree (ρ : String → ℚ) (x y : Except Fault Expr) : Prop :=
  ∀ r, y = .ok r → ∃ w, r = number w ∧ ∀ e, x = .ok e → HasValue ρ w e

namespace Agree

variable {x y x' y' : Except Fault Expr}

theorem copyable (agree : Agree ρ x y) (returned : y = .ok r) : r.isCopyable = true := by
  obtain ⟨w, rfl, -⟩ := agree r returned
  rfl

theorem negative (agree : Agree ρ x y) : Agree ρ (do return (← x).neg) (do return (← y).neg) := by
  intro r returned
  obtain ⟨a, first, same⟩ := Outcome.bind_ok returned
  obtain ⟨w, rfl, value⟩ := agree a first
  refine ⟨-w, (Except.ok.inj same).symm, fun e computed => ?_⟩
  obtain ⟨b, inner, negated⟩ := Outcome.bind_ok computed
  cases negated
  exact (value b inner).neg

theorem binary {sign : Sign} (agree : Agree ρ x y) (agree' : Agree ρ x' y')
    (exponent : sign = .raised → ∀ v, y' = .ok (number v) → v.den = 1 ∧ ∀ b, x' = .ok b → b = number v) :
    Agree ρ (do sign.apply (← x) (← x')) (do sign.apply (← y) (← y')) := by
  intro r returned
  obtain ⟨a, first, returned⟩ := Outcome.bind_ok returned
  obtain ⟨b, second, returned⟩ := Outcome.bind_ok returned
  obtain ⟨u, rfl, valueA⟩ := agree a first
  obtain ⟨v, rfl, valueB⟩ := agree' b second
  obtain ⟨same, divisor, base⟩ := apply_numbers (fun raised => (exponent raised v second).1) returned
  refine ⟨_, same, fun e computed => ?_⟩
  obtain ⟨c, here, computed⟩ := Outcome.bind_ok computed
  obtain ⟨d, there, computed⟩ := Outcome.bind_ok computed
  refine (valueA c here).apply (valueB d there) divisor (fun raised => ?_) computed
  obtain ⟨whole, shape⟩ := exponent raised v second
  exact ⟨shape d there, whole, base raised⟩

end Agree

end Expr

namespace Reader
open ExactAlgebra.Expr Engine

variable {ρ : String → ℚ} {p q : Program} {bindings : Bindings}

def BindsNumbers (bindings : Bindings) (ρ : String → ℚ) (p : Program) : Prop :=
  ∀ name position, Instruction.name name position ∈ p →
    bindings.lookup name = some (.value (.expr (.number (ρ name))))

/-- The program of a whole number computes it, whatever names stand for. -/
theorem IsWholeProgram.leaves (isWhole : IsWholeProgram q) :
    ∃ x, Computes q x ∧ (∀ resolve, Leaves resolve q x) ∧
      ∀ e, x = .ok e → ∃ v : ℚ, e = .number v ∧ v.den = 1 := by
  induction isWhole with
  | @number text whole =>
    refine ⟨_, .number text, fun resolve => leaves_number text, fun e returned => ?_⟩
    obtain ⟨v, read, same⟩ := Outcome.bind_ok returned
    cases same
    exact ⟨v, rfl, whole v read⟩
  | negative _ ih =>
    obtain ⟨x, computes, leaves, number⟩ := ih
    refine ⟨_, .negative computes, fun resolve => (leaves resolve).negative fun a returned => ?_,
      fun e returned => ?_⟩
    · exact isCopyable_of_wellFormed (computes.wellFormed returned)
    · obtain ⟨a, first, same⟩ := Outcome.bind_ok returned
      obtain ⟨v, rfl, whole⟩ := number a first
      cases same
      exact ⟨-v, rfl, by rw [Rat.neg_den, whole]⟩

theorem leaves_bound {name : String} {position : Nat}
    (found : bindings.lookup name = some (.value (.expr (.number (ρ name))))) :
    Leaves (Session.initial.resolver bindings) [.name name position] (.ok (.number (ρ name))) := by
  intro stack
  have resolved : Session.initial.resolver bindings name position = pure (.expr (.number (ρ name))) := by
    unfold Session.resolver
    rw [found]
  simp only [List.foldlM_cons, List.foldlM_nil, Session.step, resolved]
  rfl

theorem hasValue_bare {name : String} (plain : PlainName name) : HasValue ρ (ρ name) (.bare name) := by
  have digits := isIntegerText_identifier plain.spelled
  have named : isVariableName name = true := by simp [isVariableName, plain.notConstant, digits]
  refine ⟨⟨wellFormed_bare plain.spelled digits, .symbol named rfl⟩, .symbol ?_, ?_⟩
  · exact fun negative => absurd negative (by decide)
  · simp [bare, eval]

/-- With a number for every name a program of arithmetic computes a number: the value of what it computes
without them. -/
theorem IsArithmeticProgram.leaves (arithmetic : IsArithmeticProgram p) (binds : BindsNumbers bindings ρ p) :
    ∃ x y, Computes p x ∧ Leaves (Session.initial.resolver bindings) p y ∧ Agree ρ x y := by
  induction arithmetic with
  | number text =>
    refine ⟨_, _, .number text, leaves_number text, fun r returned => ?_⟩
    obtain ⟨v, read, same⟩ := Outcome.bind_ok returned
    refine ⟨v, (Except.ok.inj same).symm, fun e again => ?_⟩
    rw [read] at again
    cases again
    exact hasValue_number v
  | @name name plain position =>
    refine ⟨_, _, .name plain position, leaves_bound (binds name position List.mem_cons_self), fun r returned => ?_⟩
    refine ⟨ρ name, (Except.ok.inj returned).symm, fun e same => ?_⟩
    cases same
    exact hasValue_bare plain
  | negative _ ih =>
    obtain ⟨x, y, computes, leaves, agree⟩ := ih fun name position inside =>
      binds name position (List.mem_append_left _ inside)
    exact ⟨_, _, .negative computes, leaves.negative fun a => agree.copyable, agree.negative⟩
  | positive _ ih =>
    obtain ⟨x, y, computes, leaves, agree⟩ := ih fun name position inside =>
      binds name position (List.mem_append_left _ inside)
    exact ⟨x, y, .positive computes, leaves.positive, agree⟩
  | @binary sign p q _ _ other ihP ihQ =>
    obtain ⟨x, y, computesP, leavesP, agreeP⟩ := ihP fun name position inside =>
      binds name position (List.mem_append_left _ (List.mem_append_left _ inside))
    obtain ⟨x', y', computesQ, leavesQ, agreeQ⟩ := ihQ fun name position inside =>
      binds name position (List.mem_append_left _ (List.mem_append_right _ inside))
    exact ⟨_, _, .binary sign computesP computesQ,
      leavesP.binary leavesQ (fun a => agreeP.copyable) fun b => agreeQ.copyable,
      agreeP.binary agreeQ fun raised => absurd raised other⟩
  | @power p q _ whole ih =>
    obtain ⟨x, y, computes, leaves, agree⟩ := ih fun name position inside =>
      binds name position (List.mem_append_left _ (List.mem_append_left _ inside))
    obtain ⟨z, computesZ, leavesZ, number⟩ := whole.leaves
    have agreeZ : Agree ρ z z := by
      intro r returned
      obtain ⟨v, rfl, -⟩ := number r returned
      refine ⟨v, rfl, fun e again => ?_⟩
      cases returned.symm.trans again
      exact hasValue_number v
    refine ⟨_, _, .binary .raised computes computesZ,
      leaves.binary (leavesZ _) (fun a => agree.copyable) fun b => agreeZ.copyable,
      agree.binary agreeZ fun _ v returned => ?_⟩
    obtain ⟨w, same, integral⟩ := number _ returned
    cases same
    refine ⟨integral, fun b again => ?_⟩
    cases returned.symm.trans again
    rfl

end Reader

end ExactAlgebra
