import ExactAlgebra.Proofs.LinearSystems
import ExactAlgebra.Proofs.StackSafety
import ExactAlgebra.Session.Answer
import Mathlib

/-! Verdicts on equations between polynomials. An equation is said to hold always or never when the
difference of its sides is a number, and then this is right. The difference is taken as the arithmetic
keeps it and is not expanded, so there are equations that always hold without a verdict on them. -/
namespace ExactAlgebra

namespace Expr

variable {e : Expr}

theorem isConstant_iff : e.isConstant = true ↔ NamesHave (isVariableName · = false) e := by
  have order (names : List String) : sortNames names = [] ↔ names = [] := by
    constructor
    · intro none
      by_contra some
      obtain ⟨x, member⟩ := List.exists_mem_of_ne_nil names some
      have kept : x ∈ sortNames names := by
        rw [sortNames, List.mem_eraseDups]
        exact List.mem_mergeSort.mpr member
      rw [none] at kept
      cases kept
    · rintro rfl
      simp [sortNames]
  rw [isConstant, freeNames, List.isEmpty_iff, order, List.filter_eq_nil_iff]
  simp only [NamesHave, Bool.not_eq_true]

/-- A polynomial in which no unknown is written is a number. -/
theorem IsPolynomial.eq_number (poly : IsPolynomial e) (closed : NamesHave (isVariableName · = false) e) :
    ∃ c, e = number c := by
  obtain ⟨formed, built⟩ := poly
  induction built with
  | number c => exact ⟨c, rfl⟩
  | @symbol c name p named =>
    have unnamed := closed name (List.mem_singleton_self name)
    cases named.symm.trans unnamed
  | @sum c terms p _ _ _ ih =>
    obtain ⟨-, -, normal, all⟩ := formed
    have numbers : ∀ t ∈ terms, ∃ d, t = number d := fun t member =>
      ih t member (NamesHave.sum.mp closed t member) (allWellFormed_iff.mp all t member)
    -- All numbers have one key, so there is at most one among the terms.
    have keys : ∀ k ∈ terms.map termKey, k = "#" := by
      rintro k member
      obtain ⟨t, inside, rfl⟩ := List.mem_map.mp member
      obtain ⟨d, rfl⟩ := numbers t inside
      rfl
    have distinct := normal.distinct
    rw [List.eq_replicate_of_mem keys, List.nodup_replicate, List.length_map] at distinct
    exact absurd normal.several (by omega)
  | @product c factors _ ih =>
    obtain ⟨-, normal, all⟩ := formed
    obtain ⟨f, member⟩ := List.exists_mem_of_length_pos (two_pos.trans_le normal.several)
    obtain ⟨d, rfl⟩ := ih f member (NamesHave.product.mp closed f member) (allWellFormed_iff.mp all f member)
    cases (normal.proper _ member).notNumber

theorem holdsForeign_of_wellFormed (formed : e.WellFormed) : e.holdsForeign = false := by
  induction e using Expr.induction with
  | number | symbol => rfl
  | call c name args p ih =>
    exact anyForeign_eq_false fun a member => ih a member (allWellFormed_iff.mp formed.2.2.2.2 a member)
  | sum c terms p ih =>
    exact anyForeign_eq_false fun t member => ih t member (allWellFormed_iff.mp formed.2.2.2 t member)
  | product c factors ih =>
    exact anyForeign_eq_false fun f member => ih f member (allWellFormed_iff.mp formed.2.2 f member)
  | exponential c base exponent ihBase ihExponent =>
    rw [holdsForeign, ihBase formed.2.2.1, ihExponent formed.2.2.2]
    rfl
  | foreign => exact formed.elim

theorem checkOpen_of_wellFormed (formed : e.WellFormed) : e.checkOpen = .ok () :=
  if_neg (by rw [holdsForeign_of_wellFormed formed]; exact Bool.false_ne_true)

end Expr

namespace Machine

variable {α : Type}

theorem run_ofExcept (x : Except Fault α) (sightings : List Sighting) :
    (ofExcept x).run.run sightings = (x, sightings) := rfl

theorem run_orFailure (x : Machine α) (onFault : Failure → α) (sightings : List Sighting) :
    (Session.orFailure x onFault).run.run sightings =
      match x.run.run sightings with
      | (.ok a, later) => (.ok a, later)
      | (.error fault, later) => (.ok (onFault fault.failure), later) := by
  rw [Session.orFailure, ExceptT.run_tryCatch, StateT.run_bind]
  rcases x.run.run sightings with ⟨_ | _, _⟩ <;> rfl

end Machine

namespace Session
open Machine ExactAlgebra.Expr
open MvPolynomial (C)

variable {session : Session} {text : String} {equation : Equation} {sightings later : List Sighting}

/-- What is answered when there are roots is no verdict. -/
theorem rootsAnswer_ne_verdict (session : Session) (roots : List Expr) (holds : Bool) :
    session.rootsAnswer roots ≠ .ok (.verdict holds) := by
  intro returned
  obtain ⟨exact, -, returned⟩ := Outcome.bind_ok returned
  obtain ⟨approximations, -, returned⟩ := Outcome.bind_ok returned
  cases returned

/-- A search for roots ends without a verdict. -/
theorem not_leaves_verdict {holds : Bool} {x : Machine Value} {f : Value → Machine (List Expr)} :
    ¬ Leaves (do
      let equation ← x
      let roots ← f equation
      Machine.ofExcept (session.rootsAnswer roots)) (.verdict holds) := by
  intro leaves
  obtain ⟨_, -, leaves⟩ := leaves.bind
  obtain ⟨roots, -, sightings, later, run⟩ := leaves.bind
  exact session.rootsAnswer_ne_verdict roots holds (Prod.mk.inj run).1

/-- There is a verdict on an equation if and only if the difference of its sides is a number. -/
theorem verdict_iff (read : (session.read text).run.run sightings = (.ok equation.value, later))
    (left : IsPolynomial equation.left) (right : IsPolynomial equation.right) (holds : Bool) :
    (∃ last, (session.solveEquation text none).run.run sightings = (.ok (.verdict holds), last)) ↔
      ∃ c, equation.difference = .ok (number c) ∧ holds = decide (c = 0) := by
  have list : equation.value.isList = false := rfl
  have toZero : equation.value.toZero = equation.difference := rfl
  rw [solveEquation, run_orFailure, run_bind, read]
  simp only [list, toZero, Bool.false_eq_true, if_false]
  rw [run_bind, run_ofExcept]
  cases difference : equation.difference with
  | error fault =>
    constructor
    · rintro ⟨last, ⟨⟩⟩
    · rintro ⟨c, ⟨⟩, -⟩
  | ok d =>
    have poly := (LinearSystem.denotes_difference left right difference).poly
    have looked : d.checkOpen = .ok () := by
      rw [checkOpen, holdsForeign_of_wellFormed poly.formed]
      rfl
    dsimp only
    rw [run_bind, run_ofExcept, looked]
    dsimp only
    by_cases closed : d.isConstant = true
    · obtain ⟨c, rfl⟩ := poly.eq_number (isConstant_iff.mp closed)
      rw [if_pos (by simp [closed])]
      constructor
      · rintro ⟨last, run⟩
        cases run
        exact ⟨c, rfl, rfl⟩
      · rintro ⟨_, ⟨⟩, rfl⟩
        exact ⟨later, rfl⟩
    · rw [if_neg (by simp [closed])]
      constructor
      · rintro ⟨last, run⟩
        split at run
        next answer after ended =>
          cases run
          exact (not_leaves_verdict ⟨_, _, ended⟩).elim
        next => cases run
      · rintro ⟨c, ⟨⟩, -⟩
        exact (closed (isConstant_iff.mpr (.number c))).elim

-- The difference of the sides of `(x + 1)^2 = x^2 + 2*x + 1` is no number, so there is no verdict.
example : (Equation.mk (sum 1 [bare "x", number 1] 2)
    (sum 1 [symbol 1 "x" 2, symbol 2 "x" 1, number 1] 1)).difference.toOption.map isNumber =
      some false := by
  decide +kernel

/-- A verdict on an equation is right: one that is said to hold always has sides that denote the same
polynomial, and the sides of one that is said to hold never differ by a constant. -/
theorem verdict_right (read : (session.read text).run.run sightings = (.ok equation.value, later))
    (left : IsPolynomial equation.left) (right : IsPolynomial equation.right) {holds : Bool}
    {last : List Sighting}
    (given : (session.solveEquation text none).run.run sightings = (.ok (.verdict holds), last)) :
    if holds then denote equation.left = denote equation.right
    else ∃ c ≠ 0, denote equation.left - denote equation.right = C c := by
  obtain ⟨c, difference, rfl⟩ := (verdict_iff read left right holds).mp ⟨last, given⟩
  have value : C c = denote equation.left - denote equation.right :=
    (LinearSystem.denotes_difference left right difference).value
  by_cases zero : c = 0
  · rw [if_pos (decide_eq_true zero), ← sub_eq_zero, ← value, zero, MvPolynomial.C_0]
  · rw [if_neg (by simpa using zero)]
    exact ⟨c, zero, value.symm⟩

end Session
end ExactAlgebra
