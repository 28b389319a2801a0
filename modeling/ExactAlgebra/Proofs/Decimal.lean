import ExactAlgebra.Expr.Basic
import Mathlib

/-! The decimal text of a natural number consists of digits, is not empty, and reads back. -/
namespace ExactAlgebra.Text

theorem toList_toString (n : Nat) : (toString n).toList = Nat.toDigits 10 n := by
  rw [Nat.toString_eq_ofList_toDigits, String.toList_ofList]

theorem toList_toString_ne_nil (n : Nat) : (toString n).toList ≠ [] := by
  rw [toList_toString]
  exact Nat.toDigits_ne_nil

theorem isDigit_of_mem_toString {n : Nat} {c : Char} (member : c ∈ (toString n).toList) :
    c.isDigit = true := by
  rw [toList_toString] at member
  exact Nat.isDigit_of_mem_toDigits (by decide) (by decide) member

theorem isDecimal_of_isDigit {c : Char} (digit : c.isDigit = true) : isDecimal c = true := by
  simp [isDecimal, decimalValue?, digit]

theorem decimalValue_digitChar {d : Nat} (small : d < 10) :
    decimalValue? d.digitChar = some d := by
  interval_cases d <;> decide

theorem naturalOf_append (s t : List Char) :
    naturalOf (s ++ t) = t.foldl (fun n c => 10 * n + (decimalValue? c).getD 0) (naturalOf s) := by
  simp [naturalOf]

/-- The digits of a number denote it. -/
theorem naturalOf_toString (n : Nat) : naturalOf (toString n).toList = n := by
  rw [toList_toString]
  induction n using Nat.strongRecOn with
  | ind n ih =>
    rw [Nat.toDigits_eq_if (by decide)]
    split
    next small => simp [naturalOf, decimalValue_digitChar small]
    next large =>
      rw [naturalOf_append, ih (n / 10) (by omega)]
      simp only [List.foldl_cons, List.foldl_nil,
        decimalValue_digitChar (Nat.mod_lt n (by decide)), Option.getD_some]
      omega

theorem head_toString_ne_minus (n : Nat) (s : List Char) : (toString n).toList ≠ '-' :: s := by
  intro same
  have digit : ('-' : Char).isDigit = true :=
    isDigit_of_mem_toString (n := n) (by rw [same]; exact List.mem_cons_self)
  revert digit
  decide

theorem isIntegerText_toString (n : Nat) : isIntegerText (toString n) = true := by
  have digits : ∀ c ∈ (toString n).toList, isDigit c = true := fun c member => by
    simp [isDigit, isDecimal_of_isDigit (isDigit_of_mem_toString member)]
  unfold isIntegerText
  split
  next s shape => exact absurd shape (head_toString_ne_minus n s)
  next s _ =>
    simp only [Bool.and_eq_true, Bool.not_eq_true', List.isEmpty_eq_false_iff]
    exact ⟨toList_toString_ne_nil n, List.all_eq_true.mpr digits⟩

theorem integerOf_toString (n : Nat) : integerOf (toString n) = n := by
  unfold integerOf
  split
  next s shape => exact absurd shape (head_toString_ne_minus n s)
  next s _ => rw [naturalOf_toString]

theorem startsWith_minus_toString (n : Nat) : (toString n).startsWith '-' = false := by
  rw [String.startsWith_char_eq_head?]
  cases shape : (toString n).toList with
  | nil => rfl
  | cons c s =>
    have other : c ≠ '-' := by
      rintro rfl
      exact head_toString_ne_minus n s shape
    simpa using other

end ExactAlgebra.Text
