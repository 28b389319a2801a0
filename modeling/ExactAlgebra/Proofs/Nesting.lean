import ExactAlgebra.Proofs.Depiction
import Mathlib

/-! Parentheses in texts. A text is cut in one way only at characters that stand outside all
parentheses, and the signs between terms and factors are such characters. Writing numbers, fractions
and sums keeps parentheses matched. -/
namespace ExactAlgebra.Text

/-- The depth of parentheses after one more character. At depth zero nothing is left to be closed, and
the characters that are looked for are refused. -/
def nest (stops : Char → Bool) (depth : ℕ) (c : Char) : Option ℕ :=
  if c = '(' then some (depth + 1)
  else if c = ')' then if depth = 0 then none else some (depth - 1)
  else if depth = 0 ∧ stops c = true then none
  else some depth

/-- Parentheses are matched, and none of the characters stands outside of them. -/
def Sealed (stops : Char → Bool) (s : List Char) : Prop := s.foldlM (nest stops) 0 = some 0

instance (stops : Char → Bool) (s : List Char) : Decidable (Sealed stops s) :=
  inferInstanceAs (Decidable (_ = _))

abbrev Matched (s : List Char) : Prop := Sealed (fun _ => false) s

variable {stops others : Char → Bool} {s t : List Char}

/-- From a greater depth on, the depth runs in parallel. -/
theorem nest_add {depth after more : ℕ} {c : Char} (looser : more = 0 → others c = true → stops c = true)
    (nested : nest stops depth c = some after) : nest others (depth + more) c = some (after + more) := by
  unfold nest at nested ⊢
  by_cases opening : c = '('
  · rw [if_pos opening] at nested ⊢
    cases nested
    rw [Nat.add_right_comm]
  rw [if_neg opening] at nested ⊢
  by_cases closing : c = ')'
  · rw [if_pos closing] at nested ⊢
    split at nested
    · cases nested
    · cases nested
      rw [if_neg (by omega), ← Nat.sub_add_comm (by omega)]
  rw [if_neg closing] at nested ⊢
  split at nested
  · cases nested
  next kept =>
    cases nested
    exact if_neg fun refused => kept ⟨by omega, looser (by omega) refused.2⟩

theorem foldlM_nest_add {depth after : ℕ} (more : ℕ)
    (looser : more = 0 → ∀ c, others c = true → stops c = true)
    (nested : s.foldlM (nest stops) depth = some after) :
    s.foldlM (nest others) (depth + more) = some (after + more) := by
  induction s generalizing depth with
  | nil =>
    cases nested
    rfl
  | cons c s ih =>
    rw [List.foldlM_cons] at nested ⊢
    obtain ⟨next, first, rest⟩ := Option.bind_eq_some_iff.mp nested
    exact Option.bind_eq_some_iff.mpr
      ⟨next + more, nest_add (fun zero => looser zero c) first, ih rest⟩

namespace Sealed

theorem nil : Sealed stops [] := rfl

theorem append (first : Sealed stops s) (second : Sealed stops t) : Sealed stops (s ++ t) := by
  unfold Sealed at *
  rw [List.foldlM_append, first]
  exact second

/-- Fewer characters are looked for. -/
theorem mono (closed : Sealed stops s) (looser : ∀ c, others c = true → stops c = true) :
    Sealed others s :=
  foldlM_nest_add 0 (fun _ => looser) closed

theorem matched (closed : Sealed stops s) : Matched s := closed.mono fun _ impossible => nomatch impossible

/-- A text in parentheses has nothing outside of them. -/
theorem group (matched : Matched s) : Sealed stops ('(' :: (s ++ [')'])) := by
  have inside : s.foldlM (nest stops) 1 = some 1 :=
    foldlM_nest_add 1 (fun impossible => nomatch impossible) matched
  unfold Sealed
  rw [List.foldlM_cons]
  change (s ++ [')']).foldlM (nest stops) 1 = some 0
  rw [List.foldlM_append, inside]
  rfl

/-- A text without parentheses. -/
theorem of_plain (plain : ∀ c ∈ s, c ≠ '(' ∧ c ≠ ')' ∧ stops c = false) : Sealed stops s := by
  induction s with
  | nil => exact nil
  | cons c s ih =>
    obtain ⟨opening, closing, passed⟩ := plain c List.mem_cons_self
    have first : nest stops 0 c = some 0 := by simp [nest, opening, closing, passed]
    unfold Sealed
    rw [List.foldlM_cons, first]
    exact ih fun d later => plain d (List.mem_cons_of_mem _ later)

/-- What is refused at depth zero ends a text. -/
theorem not_append_cons {c : Char} (refused : nest stops 0 c = none) (matched : Matched s) :
    ¬ Sealed stops (s ++ c :: t) := by
  intro closed
  unfold Sealed at closed
  rw [List.foldlM_append] at closed
  obtain ⟨depth, reached, rest⟩ := Option.bind_eq_some_iff.mp closed
  have same : s.foldlM (nest fun _ => false) 0 = some depth :=
    foldlM_nest_add 0 (fun _ _ impossible => nomatch impossible) reached
  obtain rfl : 0 = depth := Option.some.inj (matched.symm.trans same)
  rw [List.foldlM_cons, refused] at rest
  cases rest

/-- Texts are told apart from what follows them by the character that is refused. -/
theorem append_inj {s' r r' : List Char} (closed : Sealed stops s) (closed' : Sealed stops s')
    (ends : ∀ c ∈ r.head?, nest stops 0 c = none) (ends' : ∀ c ∈ r'.head?, nest stops 0 c = none)
    (same : s ++ r = s' ++ r') : s = s' ∧ r = r' := by
  rcases List.append_eq_append_iff.mp same with ⟨rest, rfl, shape⟩ | ⟨rest, rfl, shape⟩
  · cases rest with
    | nil => exact ⟨(List.append_nil s).symm, shape⟩
    | cons c rest => exact absurd closed' (not_append_cons (ends c (by rw [shape]; rfl)) closed.matched)
  · cases rest with
    | nil => exact ⟨List.append_nil s', shape.symm⟩
    | cons c rest => exact absurd closed (not_append_cons (ends' c (by rw [shape]; rfl)) closed'.matched)

theorem flatMap {α : Type} {texts : List α} {chars : α → List Char}
    (each : ∀ s ∈ texts, Sealed stops (chars s)) : Sealed stops (texts.flatMap chars) := by
  induction texts with
  | nil => exact nil
  | cons s texts ih =>
    rw [List.flatMap_cons]
    exact (each s List.mem_cons_self).append (ih fun t later => each t (List.mem_cons_of_mem _ later))

theorem intercalate {separator : String} (between : Sealed stops separator.toList)
    {texts : List String} (each : ∀ s ∈ texts, Sealed stops s.toList) :
    Sealed stops (separator.intercalate texts).toList := by
  cases texts with
  | nil => exact nil
  | cons first rest =>
    rw [Reader.toList_intercalate_cons]
    exact (each first List.mem_cons_self).append
      (flatMap fun s later => between.append (each s (List.mem_cons_of_mem _ later)))

/-- A text in parentheses does not begin with a shorter one whose parentheses are matched. -/
theorem rest_eq_nil {rest : List Char} (whole : Matched s) (some : s ≠ []) (inside : Matched t)
    (same : s ++ rest = '(' :: (t ++ [')'])) : rest = [] := by
  obtain ⟨c, s, rfl⟩ := List.exists_cons_of_ne_nil some
  obtain ⟨rfl, rejoined⟩ := List.cons.inj same
  have closes : s.foldlM (nest fun _ => false) 1 = Option.some 0 := whole
  -- What stands inside never goes back to depth zero, so the first parenthesis is closed at the end.
  have stays {u v : List Char} (shape : t = u ++ v) : u.foldlM (nest fun _ => false) 1 ≠ .some 0 := by
    intro zero
    have run : t.foldlM (nest fun _ => false) 0 = Option.some 0 := inside
    rw [shape, List.foldlM_append] at run
    obtain ⟨depth, reached, _⟩ := Option.bind_eq_some_iff.mp run
    have above : u.foldlM (nest fun _ => false) (0 + 1) = .some (depth + 1) :=
      foldlM_nest_add 1 (fun impossible => nomatch impossible) reached
    rw [zero_add, zero] at above
    cases above
  rcases List.append_eq_append_iff.mp rejoined with ⟨more, shape, -⟩ | ⟨more, shape, last⟩
  · exact absurd closes (stays shape)
  · cases more with
    | nil =>
      rw [List.append_nil] at shape
      exact absurd (shape ▸ closes) (stays (List.append_nil t).symm)
    | cons c more =>
      exact (List.append_eq_nil_iff.mp (List.cons.inj last).2.symm).2

end Sealed

def isTermSign (c : Char) : Bool := c == '+' || c == '-'

def isSign (c : Char) : Bool := isTermSign c || c == '*' || c == '/'

theorem isSign_isDigit {c : Char} (digit : c.isDigit = true) :
    c ≠ '(' ∧ c ≠ ')' ∧ isSign c = false := by
  have continues : continuesName c = true := by simp [continuesName, Char.isAlphanum, digit]
  revert digit
  refine Reader.ascii_induction (motive := fun c => c.isDigit = true →
    c ≠ '(' ∧ c ≠ ')' ∧ isSign c = false) ?_ (Reader.continuesName_ascii continues)
  decide +kernel

theorem isSign_continuesName {c : Char} (continues : continuesName c = true) :
    c ≠ '(' ∧ c ≠ ')' ∧ isSign c = false := by
  have ascii := Reader.continuesName_ascii continues
  revert continues
  refine Reader.ascii_induction (motive := fun c => continuesName c = true →
    c ≠ '(' ∧ c ≠ ')' ∧ isSign c = false) ?_ ascii
  decide +kernel

theorem sealed_toString (n : ℕ) : Sealed isSign (toString n).toList :=
  .of_plain fun _ member => isSign_isDigit (isDigit_of_mem_toString member)

theorem sealed_num {a : Rat} (nonneg : 0 ≤ a.num) : Sealed isSign (toString a.num).toList := by
  rw [← Reader.Fraction.toString_toNat nonneg]
  exact sealed_toString _

def factorTexts : Entry → List String
  | .number => []
  | .fraction above below => above ++ below

theorem matched_belowText {factors : List String} (each : ∀ s ∈ factors, Matched s.toList) :
    Matched (belowText factors).toList := by
  have sign : Matched "/".toList := by decide
  have between : Matched "*".toList := by decide
  match factors with
  | [] => exact .nil
  | [factor] =>
    rw [belowText, String.toList_append]
    exact sign.append (each factor List.mem_cons_self)
  | first :: second :: rest =>
    have inside : Matched ('(' :: ((String.intercalate "*" (first :: second :: rest)).toList ++ [')'])) :=
      .group (.intercalate between each)
    simpa [belowText] using sign.append inside

theorem matched_entry {entry : Entry} (each : ∀ s ∈ factorTexts entry, Matched s.toList) (c : Rat) :
    Matched (entry.text c).toList := by
  have fraction {above below : List String} (each : ∀ s ∈ above ++ below, Matched s.toList) :
      Matched ((Entry.fraction above below).text c).toList := by
    have minus : Matched "-".toList := by decide
    have between : Matched "*".toList := by decide
    have top : Matched (toString (Rational.abs c).num).toList :=
      (sealed_num (Reader.Fraction.abs_num_nonneg c)).matched
    have bottom : Matched (toString (Rational.abs c).den).toList := (sealed_toString _).matched
    simp only [Entry.text, String.toList_append]
    refine .append (.append ?_ (.intercalate between fun s member => ?_))
      (matched_belowText fun s member => ?_)
    · split
      · exact minus
      · exact .nil
    · rcases List.mem_append.mp member with head | inside
      · split at head
        · obtain rfl := List.mem_singleton.mp head
          exact top
        · cases head
      · exact each s (List.mem_append_left _ inside)
    · split at member
      · rcases List.mem_cons.mp member with rfl | inside
        · exact bottom
        · exact each s (List.mem_append_right _ inside)
      · exact each s (List.mem_append_right _ member)
  cases entry with
  | number =>
    rw [Reader.Fraction.text_number]
    exact fraction each
  | fraction above below => exact fraction each

theorem matched_joinTerms {texts : List String} (each : ∀ s ∈ texts, Matched s.toList) :
    Matched (joinTerms texts).toList := by
  have plus : Matched "+".toList := by decide
  cases texts with
  | nil => exact .nil
  | cons first rest =>
    rw [joinTerms, String.toList_append, String.toList_join, List.flatMap_map]
    refine .append (each first List.mem_cons_self) (.flatMap fun s later => ?_)
    have matched := each s (List.mem_cons_of_mem _ later)
    split
    · exact matched
    · rw [String.toList_append]
      exact plus.append matched

theorem matched_layout {layout : Layout}
    (each : ∀ item ∈ layout, ∀ s ∈ factorTexts item.2, Matched s.toList) (c : Rat) :
    Matched (layout.text c).toList := by
  refine matched_joinTerms fun s member => ?_
  obtain ⟨item, inside, rfl⟩ := List.mem_map.mp member
  exact matched_entry (each item inside) _

/-- Several terms in a row have a sign between them. -/
theorem not_sealed_joinTerms {first second : String} {rest : List String}
    (matched : Matched first.toList) :
    ¬ Sealed isTermSign (joinTerms (first :: second :: rest)).toList := by
  obtain ⟨sign, shown, shape, refused⟩ : ∃ sign shown,
      (if second.startsWith '-' then second else "+" ++ second).toList = sign :: shown ∧
        nest isTermSign 0 sign = none := by
    split
    next negative =>
      rw [String.startsWith_char_eq_head?] at negative
      obtain ⟨shown, shape⟩ : ∃ shown, second.toList = '-' :: shown := by
        cases shape : second.toList with
        | nil => simp [shape] at negative
        | cons c shown =>
          rw [shape, List.head?_cons, beq_iff_eq, Option.some.injEq] at negative
          exact ⟨shown, by rw [negative]⟩
      exact ⟨'-', shown, shape, rfl⟩
    next => exact ⟨'+', second.toList, by simp, rfl⟩
  rw [joinTerms, String.toList_append, String.toList_join, List.flatMap_map, List.flatMap_cons, shape,
    List.cons_append]
  exact Sealed.not_append_cons refused matched

end ExactAlgebra.Text
