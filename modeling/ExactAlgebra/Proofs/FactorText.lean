import ExactAlgebra.Proofs.Nesting
import Mathlib

/-! Texts of factors. The text of a factor has no sign outside of its parentheses, is more than a
number, and is no product in parentheses. So the factors above and below the line can be read off the
text of a term, whatever functions and exponents occur in them. -/
namespace ExactAlgebra.Expr
open Text

/-- What an expression contributes to texts keeps its parentheses matched, and the signs of its factors
inside of them. -/
structure Readable (face : Face) : Prop where
  layout : ∀ item ∈ face.layout, ∀ s ∈ factorTexts item.2, Sealed isSign s.toList
  inner : Matched face.inner.toList
  guarded : Sealed isSign face.guarded.toList

variable {e : Expr}

theorem Readable.text {face : Face} (readable : Readable face) (c : Rat) :
    Matched (face.layout.text c).toList :=
  matched_layout (fun item member s factor => (readable.layout item member s factor).matched) c

theorem matched_text_rational (a : Rat) : Matched (Rational.text a).toList :=
  @matched_entry .number (by simp [factorTexts]) a

/-- How a positive power is written after the power sign. -/
def exponentText (p : Rat) : String :=
  if p.den = 1 then Rational.text p else "(" ++ Rational.text p ++ ")"

/-- A power is left out, is a square root, or stands after a power sign. -/
theorem poweredText_cases (inner guarded : String) {p : Rat} (positive : 0 < p) :
    (p = 1 ∧ poweredText inner guarded p = guarded) ∨
      (p = 1 / 2 ∧ poweredText inner guarded p = "sqrt(" ++ inner ++ ")") ∨
      (p ≠ 1 ∧ p ≠ 1 / 2 ∧ poweredText inner guarded p = guarded ++ "^" ++ exponentText p) := by
  unfold poweredText
  by_cases one : p = 1
  · exact .inl ⟨one, if_pos one⟩
  by_cases half : p = 1 / 2
  · exact .inr (.inl ⟨half, by rw [if_neg one, if_pos half]⟩)
  refine .inr (.inr ⟨one, half, ?_⟩)
  rw [if_neg one, if_neg half, exponentText]
  by_cases whole : p.den = 1
  · simp [Rational.isInteger, whole, positive]
  · apply String.toList_inj.mp
    simp [Rational.isInteger, whole]

theorem sealed_exponentText {p : Rat} (positive : 0 < p) : Sealed isSign (exponentText p).toList := by
  unfold exponentText
  split
  next whole =>
    rw [Rational.text, if_pos whole]
    exact sealed_num (Rat.num_nonneg.mpr positive.le)
  · simpa using Sealed.group (matched_text_rational p)

/-- A power of something is told apart from what follows as the thing itself is. -/
theorem sealed_poweredText {inner guarded : String} (matched : Matched inner.toList)
    (closed : Sealed isSign guarded.toList) {p : Rat} (positive : 0 < p) :
    Sealed isSign (poweredText inner guarded p).toList := by
  rcases poweredText_cases inner guarded positive with ⟨_, same⟩ | ⟨_, same⟩ | ⟨_, _, same⟩
  · rwa [same]
  · have name : Sealed isSign "sqrt".toList := by decide
    rw [same]
    simpa using name.append (.group matched)
  · rw [same, String.toList_append, String.toList_append]
    exact (closed.append (by decide)).append (sealed_exponentText positive)

theorem mem_factorTexts {sides : List (Bool × String)} {s : String} :
    s ∈ factorTexts (fractionEntry sides) ↔ ∃ side ∈ sides, side.2 = s := by
  simp only [factorTexts, fractionEntry, List.mem_append, List.mem_map, List.mem_filter]
  constructor
  · rintro (⟨side, ⟨member, _⟩, same⟩ | ⟨side, ⟨member, _⟩, same⟩) <;> exact ⟨side, member, same⟩
  · rintro ⟨side, member, same⟩
    cases above : side.1 with
    | true => exact .inl ⟨side, ⟨member, above⟩, same⟩
    | false => exact .inr ⟨side, ⟨member, by simp [above]⟩, same⟩

theorem sealed_factorSide {face : Face} (plain : e.isExponential = false) (nonzero : e.power ≠ 0)
    (matched : Matched face.inner.toList) (closed : Sealed isSign face.guarded.toList) :
    Sealed isSign (e.factorSide face).2.toList := by
  unfold factorSide
  split
  · cases plain
  · split
    next negative => exact sealed_poweredText matched closed (neg_pos.mpr negative)
    next other => exact sealed_poweredText matched closed (lt_of_le_of_ne (not_lt.mp other) nonzero.symm)

theorem readable_singleFace {inner guarded : String} (plain : e.isExponential = false)
    (nonzero : e.power ≠ 0) (matched : Matched inner.toList) (closed : Sealed isSign guarded.toList)
    (degree : Rat) (hasKey : Bool) : Readable (e.singleFace inner guarded degree hasKey) := by
  refine ⟨fun item member s factor => ?_, matched, closed⟩
  obtain rfl := List.mem_singleton.mp member
  obtain ⟨side, inside, rfl⟩ := mem_factorTexts.mp factor
  obtain rfl := List.mem_singleton.mp inside
  exact sealed_factorSide plain nonzero matched closed

theorem isSign_isDigit_any {c : Char} (digit : Text.isDigit c = true) :
    c ≠ '(' ∧ c ≠ ')' ∧ isSign c = false := by
  refine ⟨?_, ?_, ?_⟩
  · rintro rfl
    revert digit
    decide
  · rintro rfl
    revert digit
    decide
  · rw [Bool.eq_false_iff]
    intro sign
    simp only [isSign, isTermSign, Bool.or_eq_true, beq_iff_eq] at sign
    rcases sign with ((rfl | rfl) | rfl) | rfl <;> revert digit <;> decide

theorem continuesName_of_mem {name : String} (named : Identifier name) {d : Char}
    (member : d ∈ name.toList) : continuesName d = true := by
  obtain ⟨c, word, shape, starts, continues⟩ := Reader.identifier_chars named
  rw [shape] at member
  rcases List.mem_cons.mp member with rfl | later
  · exact Reader.startsName_continues starts
  · exact continues d later

theorem sealed_identifier {name : String} (named : Identifier name) : Sealed isSign name.toList :=
  .of_plain fun _ member => isSign_continuesName (continuesName_of_mem named member)

/-- Identifiers need no protection. -/
theorem guarded_identifier {name : String} (named : Identifier name) (c p : Rat) :
    (symbol c name p).face.guarded = name := by
  simp [face, singleFace, Reader.startsWith_minus_identifier named]

/-- The name of a symbol, and how it is protected. -/
theorem sealed_name {name : String} (named : Identifier name ∨ isIntegerText name = true) :
    Matched name.toList ∧
      Sealed isSign (if name.startsWith '-' then "(" ++ name ++ ")" else name).toList := by
  rcases named with identifier | integer
  · have closed := sealed_identifier identifier
    refine ⟨closed.matched, ?_⟩
    split
    · simpa using Sealed.group closed.matched
    · exact closed
  · have digits {s : List Char} (all : s.all Text.isDigit = true) : Sealed isSign s :=
      .of_plain fun c member => isSign_isDigit_any (List.all_eq_true.mp all c member)
    unfold isIntegerText at integer
    split at integer
    next s shape =>
      have matched : Matched name.toList := by
        rw [shape, ← List.singleton_append]
        exact .append (by decide) (digits (Bool.and_eq_true_iff.mp integer).2).matched
      have minus : name.startsWith '-' = true := by
        rw [String.startsWith_char_eq_head?, shape]
        rfl
      rw [if_pos minus]
      exact ⟨matched, by simpa using Sealed.group matched⟩
    next s other =>
      have closed := digits (Bool.and_eq_true_iff.mp integer).2
      refine ⟨closed.matched, ?_⟩
      split
      · simpa using Sealed.group closed.matched
      · exact closed

/-- A term with coefficient one shows its factors alone. -/
theorem text_fraction_one (above below : List String) :
    (Entry.fraction above below).text 1 =
      String.intercalate "*" (if above.isEmpty then ["1"] else above) ++ belowText below := by
  have magnitude : Rational.abs 1 = 1 := by decide +kernel
  have positive : ¬ (1 : Rat) < 0 := by decide +kernel
  have shown : toString (1 : ℤ) = "1" := by decide +kernel
  simp only [Entry.text, magnitude, positive, Rat.num_one, Rat.den_one, shown, if_false, ne_eq,
    not_true_eq_false, decide_false, Bool.false_or, String.empty_append]
  cases above <;> rfl

theorem text_single (s : String) : Layout.text [(1, .fraction [s] [])] 1 = s := by
  simp [Layout.text, joinTerms, text_fraction_one, belowText, String.intercalate_singleton]

/-- The text of an atom is a positive number, or what stands under the power one. -/
theorem text_atom (atom : e.isAtom = true) :
    (∃ n : ℕ, e = number n) ∨ (e.isNumber = false ∧ e.text = e.face.guarded) := by
  cases e with
  | number c =>
    simp only [isAtom, Rational.isInteger, Bool.and_eq_true, beq_iff_eq, decide_eq_true_eq] at atom
    refine .inl ⟨c.num.toNat, congrArg number ?_⟩
    have size : (c.num.toNat : ℤ) = c.num := Int.toNat_of_nonneg (Rat.num_nonneg.mpr atom.2.le)
    rw [← Int.cast_natCast, size, Rat.coe_int_num_of_den_eq_one atom.1]
  | symbol c name p =>
    simp only [isAtom, Bool.and_eq_true, beq_iff_eq] at atom
    obtain ⟨rfl, rfl⟩ := atom
    exact .inr ⟨rfl, text_single _⟩
  | call c name args p =>
    simp only [isAtom, Bool.and_eq_true, beq_iff_eq] at atom
    obtain ⟨rfl, rfl⟩ := atom
    exact .inr ⟨rfl, text_single _⟩
  | sum | product | exponential | foreign => cases atom

theorem text_natCast (n : ℕ) : (number n).text = toString n := by
  have shown : (number n).text = Rational.text n := by
    simp [Expr.text, face, coeff, Layout.text, joinTerms, Entry.text]
  rw [shown, Rational.text, if_pos (Rat.den_natCast n), Rat.num_natCast]
  rfl

theorem sealed_operandText (readable : Readable e.face) :
    Sealed isSign (e.operandText e.face).toList := by
  unfold operandText
  dsimp only
  split
  next atom =>
    rcases text_atom atom with ⟨n, rfl⟩ | ⟨_, same⟩
    · rw [← Expr.text, text_natCast]
      exact sealed_toString n
    · rw [← Expr.text, same]
      exact readable.guarded
  next => simpa using Sealed.group (readable.text _)

theorem power_ne_zero (formed : e.WellFormed) : e.power ≠ 0 := by
  cases e with
  | symbol | call | sum => exact formed.2.1
  | foreign => exact formed.elim
  | number | product | exponential => exact one_ne_zero

theorem sealed_side (formed : e.WellFormed) (readable : Readable e.face) :
    Sealed isSign (e.factorSide e.face).2.toList := by
  cases exponential : e.isExponential with
  | false => exact sealed_factorSide exponential (power_ne_zero formed) readable.inner readable.guarded
  | true =>
    cases e with
    | exponential => exact readable.guarded
    | _ => cases exponential

/-- Every well-formed expression is readable. -/
theorem WellFormed.readable (formed : e.WellFormed) : Readable e.face := by
  induction e using Expr.induction with
  | number c =>
    refine ⟨fun item member s factor => ?_, ?_, ?_⟩
    · obtain rfl := List.mem_singleton.mp member
      cases factor
    · exact (by decide : Matched "1".toList)
    · exact (by decide : Sealed isSign "(1)".toList)
  | symbol c name p =>
    obtain ⟨_, nonzero, named, _⟩ := formed
    obtain ⟨matched, closed⟩ := sealed_name named
    exact @readable_singleFace (symbol c name p) _ _ rfl nonzero matched closed _ _
  | call c name args p ih =>
    obtain ⟨_, nonzero, named, _, all⟩ := formed
    have comma : Matched ",".toList := by decide
    have shown : ∀ s ∈ args.zipWith (fun a f => f.layout.text a.coeff) (faces args),
        Matched s.toList := by
      rw [faces_eq, List.zipWith_map_right, List.zipWith_self]
      intro s member
      obtain ⟨a, inside, rfl⟩ := List.mem_map.mp member
      exact (ih a inside (allWellFormed_iff.mp all a inside)).text _
    have closed : Sealed isSign (name ++ "(" ++ String.intercalate ","
        (args.zipWith (fun a f => f.layout.text a.coeff) (faces args)) ++ ")").toList := by
      have group := Sealed.append (sealed_identifier named) (.group (.intercalate comma shown))
      simpa using group
    exact @readable_singleFace (call c name args p) _ _ rfl nonzero closed.matched closed _ _
  | sum c terms p ih =>
    obtain ⟨_, nonzero, _, all⟩ := formed
    obtain ⟨guarded, _, layout⟩ := layout_sum c terms p
    have spread : ∀ item ∈ spreadLayout terms, ∀ s ∈ factorTexts item.2, Sealed isSign s.toList := by
      intro item member
      obtain ⟨t, sorted, inside⟩ := List.mem_flatMap.mp member
      obtain ⟨item, written, rfl⟩ := List.mem_map.mp inside
      have inside := (sortTerms_perm terms).mem_iff.mp sorted
      exact (ih t inside (allWellFormed_iff.mp all t inside)).layout item written
    have matched : Matched ((spreadLayout terms).text 1).toList :=
      matched_layout (fun item member s factor => (spread item member s factor).matched) 1
    have closed : Sealed isSign (sum c terms p).face.guarded.toList := by
      rw [guarded]
      simpa using Sealed.group matched
    rw [← inner_sum c terms p] at matched
    refine ⟨?_, matched, closed⟩
    rw [layout]
    split
    · exact spread
    · intro item member s factor
      obtain rfl := List.mem_singleton.mp member
      obtain ⟨side, inside, rfl⟩ := mem_factorTexts.mp factor
      obtain rfl := List.mem_singleton.mp inside
      exact sealed_factorSide rfl nonzero matched closed
  | product c factors ih =>
    obtain ⟨_, _, all⟩ := formed
    have sides : ∀ item ∈ (product c factors).face.layout, ∀ s ∈ factorTexts item.2,
        Sealed isSign s.toList := by
      intro item member s factor
      rw [layout_product] at member
      obtain rfl := List.mem_singleton.mp member
      obtain ⟨side, inside, rfl⟩ := mem_factorTexts.mp factor
      obtain ⟨f, sorted, rfl⟩ := List.mem_map.mp inside
      have inside := (sortFactors_perm factors).mem_iff.mp sorted
      have formedF := allWellFormed_iff.mp all f inside
      exact sealed_side formedF (ih f inside formedF)
    have matched : Matched ((product c factors).face.layout.text 1).toList :=
      matched_layout (fun item member s factor => (sides item member s factor).matched) 1
    have guarded : (product c factors).face.guarded =
        "(" ++ (product c factors).face.layout.text 1 ++ ")" := rfl
    refine ⟨sides, matched, ?_⟩
    rw [guarded]
    simpa using Sealed.group matched
  | exponential c base exponent ihBase ihExponent =>
    obtain ⟨_, _, formedBase, formedExponent⟩ := formed
    have closed : Sealed isSign
        (base.operandText base.face ++ "^" ++ exponent.operandText exponent.face).toList := by
      rw [String.toList_append, String.toList_append]
      exact ((sealed_operandText (ihBase formedBase)).append (by decide)).append
        (sealed_operandText (ihExponent formedExponent))
    refine ⟨fun item member s factor => ?_, closed.matched, closed⟩
    obtain rfl := List.mem_singleton.mp member
    obtain rfl := List.mem_singleton.mp factor
    exact closed
  | foreign => exact formed.elim

/-- A character that is part of no number: a letter, a power sign or a parenthesis. -/
def isMark (c : Char) : Bool := c == '(' || c == '^' || startsName c

theorem isMark_isDigit {c : Char} (digit : c.isDigit = true) : isMark c = false := by
  have continues : continuesName c = true := by simp [continuesName, Char.isAlphanum, digit]
  revert digit
  refine Reader.ascii_induction (motive := fun c => c.isDigit = true → isMark c = false) ?_
    (Reader.continuesName_ascii continues)
  decide +kernel

def Ungrouped (s : String) : Prop := ∀ u, Sealed isTermSign u → s.toList ≠ '(' :: (u ++ [')'])

/-- The text of a factor: no sign outside of parentheses, more than a number, and not a product in
parentheses. -/
structure FactorText (s : String) : Prop where
  closed : Sealed isSign s.toList
  marked : ∃ c ∈ s.toList, isMark c = true
  ungrouped : Ungrouped s

theorem FactorText.lower {s : String} (text : FactorText s) : Sealed isSign s.toList ∧ Ungrouped s :=
  ⟨text.closed, text.ungrouped⟩

theorem FactorText.of_startsName {s : String} {c : Char} {rest : List Char}
    (closed : Sealed isSign s.toList) (shape : s.toList = c :: rest) (starts : startsName c = true) :
    FactorText s := by
  refine ⟨closed, ⟨c, by simp [shape], by simp [isMark, starts]⟩, fun u _ same => ?_⟩
  rw [shape] at same
  obtain rfl := (List.cons.inj same).1
  exact absurd starts (by decide)

/-- What is followed by a power sign. -/
theorem FactorText.of_raised {s before after : String} (shown : s = before ++ "^" ++ after)
    (closed : Sealed isSign s.toList) (matched : Matched before.toList) (some : before.toList ≠ []) :
    FactorText s := by
  have shape : s.toList = before.toList ++ '^' :: after.toList := by simp [shown]
  refine ⟨closed, ⟨'^', by simp [shape], by decide⟩, fun u inside same => ?_⟩
  rw [shape] at same
  cases Sealed.rest_eq_nil matched some inside.matched same

theorem FactorText.powered {inner guarded : String} (matched : Matched inner.toList)
    (closed : Sealed isSign guarded.toList) (some : guarded.toList ≠ []) {p : Rat} (positive : 0 < p)
    (one : p = 1 → FactorText guarded) : FactorText (poweredText inner guarded p) := by
  have power := sealed_poweredText matched closed positive
  rcases poweredText_cases inner guarded positive with ⟨same, shown⟩ | ⟨_, shown⟩ | ⟨_, _, shown⟩
  · rw [shown]
    exact one same
  · have shape : (poweredText inner guarded p).toList =
        's' :: ("qrt(".toList ++ inner.toList ++ [')']) := by simp [shown]
    exact .of_startsName power shape (by decide)
  · exact .of_raised shown power closed.matched some

theorem guarded_ne_nil (formed : e.WellFormed) : e.face.guarded.toList ≠ [] := by
  cases e with
  | number => exact (by decide : "(1)".toList ≠ [])
  | symbol c name p =>
    have guarded : (symbol c name p).face.guarded =
        if name.startsWith '-' then "(" ++ name ++ ")" else name := rfl
    rw [guarded]
    split
    · simp
    · rcases formed.2.2.1 with identifier | integer
      · obtain ⟨d, word, shape, _⟩ := Reader.identifier_chars identifier
        simp [shape]
      · rintro empty
        simp [isIntegerText, empty] at integer
  | call => simp [face, singleFace]
  | sum c terms p => simp [(layout_sum c terms p).1]
  | product => simp [face]
  | exponential => simp [face]
  | foreign => exact formed.elim

theorem operandText_ne_nil (formed : e.WellFormed) : (e.operandText e.face).toList ≠ [] := by
  unfold operandText
  dsimp only
  split
  next atom =>
    rcases text_atom atom with ⟨n, rfl⟩ | ⟨_, same⟩
    · rw [← Expr.text, text_natCast]
      exact toList_toString_ne_nil n
    · rw [← Expr.text, same]
      exact guarded_ne_nil formed
  · simp

/-- Apart from plain sums, an expression is written as one term. -/
theorem layout_flat (formed : e.WellFormed) (flat : e.isPlainSum = false) :
    ∃ entry, e.face.layout = [(1, entry)] := by
  cases e with
  | number | symbol | call | product | exponential => exact ⟨_, rfl⟩
  | sum c terms p =>
    have other : p ≠ 1 := by
      rintro rfl
      cases flat
    exact ⟨_, (layout_sum c terms p).2.2.trans (if_neg other)⟩
  | foreign => exact formed.elim

/-- A sum shows a sign between its terms. -/
theorem not_sealed_spreadLayout {terms : List Expr} (normal : NormalTerms terms)
    (all : AllWellFormed terms) (c : Rat) :
    ¬ Sealed isTermSign ((spreadLayout terms).text c).toList := by
  have formed : ∀ t ∈ sortTerms terms, t.WellFormed := fun t member =>
    allWellFormed_iff.mp all t ((sortTerms_perm terms).mem_iff.mp member)
  have flat : ∀ t ∈ sortTerms terms, t.isPlainSum = false := fun t member =>
    normal.flat t ((sortTerms_perm terms).mem_iff.mp member)
  have several : 2 ≤ (sortTerms terms).length :=
    (sortTerms_perm terms).length_eq.symm ▸ normal.several
  unfold spreadLayout
  generalize sortTerms terms = sorted at formed flat several
  match sorted, several with
  | t :: u :: rest, _ =>
    obtain ⟨first, shapeT⟩ := layout_flat (formed t (by simp)) (flat t (by simp))
    obtain ⟨second, shapeU⟩ := layout_flat (formed u (by simp)) (flat u (by simp))
    have readable := (formed t (by simp)).readable.layout (1, first) (by simp [shapeT])
    simp only [List.flatMap_cons, shapeT, shapeU, List.map_cons, List.map_nil, List.cons_append,
      List.nil_append, Layout.text]
    exact not_sealed_joinTerms (matched_entry (fun s factor => (readable s factor).matched) _)

theorem factorText (formed : e.WellFormed) (proper : IsFactor e) :
    FactorText (e.factorSide e.face).2 := by
  have readable := formed.readable
  have powered (plain : e.isExponential = false)
      (one : e.power.den = 1 → FactorText e.face.guarded) : FactorText (e.factorSide e.face).2 := by
    unfold factorSide
    split
    · cases plain
    split
    next negative =>
      refine .powered readable.inner readable.guarded (guarded_ne_nil formed) (neg_pos.mpr negative)
        fun same => one ?_
      rw [← Rat.neg_den, same]
      rfl
    next other =>
      refine .powered readable.inner readable.guarded (guarded_ne_nil formed)
        (lt_of_le_of_ne (not_lt.mp other) (power_ne_zero formed).symm) fun same => one ?_
      rw [same]
      rfl
  cases e with
  | number => cases proper.notNumber
  | product => cases proper.notProduct
  | foreign => exact formed.elim
  | symbol c name p =>
    obtain ⟨_, _, named, rooted, _⟩ := formed
    refine powered rfl fun whole => ?_
    rcases named with identifier | integer
    · obtain ⟨d, word, shape, starts, _⟩ := Reader.identifier_chars identifier
      have shown := guarded_identifier identifier c p
      exact .of_startsName readable.guarded (shown.symm ▸ shape) starts
    · exact absurd whole (rooted integer)
  | call c name args p =>
    obtain ⟨_, _, named, _⟩ := formed
    obtain ⟨d, word, shape, starts, _⟩ := Reader.identifier_chars named
    obtain ⟨rest, begins⟩ : ∃ rest, (call c name args p).face.guarded.toList = d :: rest := by
      simp [face, singleFace, shape]
    exact powered rfl fun _ => .of_startsName readable.guarded begins starts
  | sum c terms p =>
    have shape : (sum c terms p).face.guarded.toList =
        '(' :: (((spreadLayout terms).text 1).toList ++ [')']) := by simp [(layout_sum c terms p).1]
    refine powered rfl fun _ => ?_
    refine ⟨readable.guarded, ⟨'(', by simp [shape], by decide⟩, fun u inside same => ?_⟩
    rw [shape, List.cons.injEq] at same
    rw [← List.append_cancel_right same.2] at inside
    exact not_sealed_spreadLayout formed.2.2.1 formed.2.2.2 1 inside
  | exponential c base exponent =>
    obtain ⟨_, _, formedBase, _⟩ := formed
    exact .of_raised rfl readable.guarded (sealed_operandText formedBase.readable).matched
      (operandText_ne_nil formedBase)

/-- Factors in a row are told apart, and from what stands below the line. -/
theorem row_inj {first first' : String} {rest rest' : List String} {below below' : List Char}
    (each : ∀ s ∈ first :: rest, Sealed isSign s.toList)
    (each' : ∀ s ∈ first' :: rest', Sealed isSign s.toList)
    (line : ∀ c ∈ below.head?, c = '/') (line' : ∀ c ∈ below'.head?, c = '/')
    (same : first.toList ++ ((rest.flatMap fun s => '*' :: s.toList) ++ below) =
      first'.toList ++ ((rest'.flatMap fun s => '*' :: s.toList) ++ below')) :
    first :: rest = first' :: rest' ∧ below = below' := by
  have ends {rest : List String} {below : List Char} (line : ∀ c ∈ below.head?, c = '/') :
      ∀ c ∈ ((rest.flatMap fun s => '*' :: s.toList) ++ below).head?, nest isSign 0 c = none := by
    intro c leads
    cases rest with
    | nil =>
      obtain rfl := line c leads
      rfl
    | cons s rest =>
      obtain rfl := Option.mem_some_iff.mp leads
      rfl
  obtain ⟨start, others⟩ := Sealed.append_inj (each first List.mem_cons_self)
    (each' first' List.mem_cons_self) (ends line) (ends line') same
  obtain rfl := String.toList_inj.mp start
  clear same start
  induction rest generalizing first rest' with
  | nil =>
    cases rest' with
    | nil => exact ⟨rfl, others⟩
    | cons s rest' => cases line '*' (by simpa using congrArg List.head? others)
  | cons s rest ih =>
    cases rest' with
    | nil => cases line' '*' (by simpa using (congrArg List.head? others).symm)
    | cons s' rest' =>
      simp only [List.flatMap_cons, List.cons_append, List.cons.injEq, true_and, List.append_assoc]
        at others
      obtain ⟨next, after⟩ := Sealed.append_inj (each s (by simp)) (each' s' (by simp)) (ends line)
        (ends line') others
      obtain rfl := String.toList_inj.mp next
      obtain ⟨rows, belows⟩ := ih (fun t member => each t (List.mem_cons_of_mem _ member)) after
        (fun t member => each' t (List.mem_cons_of_mem _ member))
      exact ⟨congrArg _ rows, belows⟩

theorem toList_row (first : String) (rest : List String) :
    (String.intercalate "*" (first :: rest)).toList =
      first.toList ++ rest.flatMap fun s => '*' :: s.toList :=
  Reader.toList_intercalate_cons "*" first rest

theorem toList_belowText_several (first second : String) (rest : List String) :
    (belowText (first :: second :: rest)).toList =
      '/' :: '(' :: ((String.intercalate "*" (first :: second :: rest)).toList ++ [')']) := by
  change ("/(" ++ String.intercalate "*" (first :: second :: rest) ++ ")").toList = _
  rw [String.toList_append, String.toList_append]
  rfl

theorem belowText_inj {factors others : List String}
    (each : ∀ s ∈ factors, Sealed isSign s.toList ∧ Ungrouped s)
    (each' : ∀ s ∈ others, Sealed isSign s.toList ∧ Ungrouped s)
    (same : belowText factors = belowText others) : factors = others := by
  have single {factor first second : String} {rest : List String} (text : Ungrouped factor)
      (each : ∀ s ∈ first :: second :: rest, Sealed isSign s.toList ∧ Ungrouped s) :
      belowText [factor] ≠ belowText (first :: second :: rest) := by
    intro same
    have row : Sealed isTermSign (String.intercalate "*" (first :: second :: rest)).toList :=
      .intercalate (by decide) fun s member => (each s member).1.mono (by simp +contextual [isSign])
    refine text _ row ?_
    have shown := congrArg String.toList same
    rw [toList_belowText_several] at shown
    simpa [belowText] using shown
  rcases factors with _ | ⟨first, _ | ⟨second, rest⟩⟩ <;>
    rcases others with _ | ⟨first', _ | ⟨second', rest'⟩⟩
  · rfl
  · simpa [belowText] using congrArg String.toList same
  · simpa [belowText] using congrArg String.toList same
  · simpa [belowText] using congrArg String.toList same
  · simpa [belowText] using same
  · exact absurd same (single (each first List.mem_cons_self).2 each')
  · simpa [belowText] using congrArg String.toList same
  · exact absurd same.symm (single (each' first' List.mem_cons_self).2 each)
  · have rows : (String.intercalate "*" (first :: second :: rest)).toList =
        (String.intercalate "*" (first' :: second' :: rest')).toList := by
      have shown := congrArg String.toList same
      rw [toList_belowText_several, toList_belowText_several] at shown
      exact List.append_cancel_right (List.cons.inj (List.cons.inj shown).2).2
    rw [toList_row, toList_row, ← List.append_nil (List.flatMap _ _),
      ← List.append_nil (List.flatMap _ (second' :: rest'))] at rows
    exact (row_inj (fun s member => (each s member).1) (fun s member => (each' s member).1)
      (by simp) (by simp) rows).1

/-- The factors above the line, the numerator before them unless it is one. -/
def aboveLine (m : Rat) (above : List String) : List String :=
  (if m.num ≠ 1 || above.isEmpty then [toString m.num] else []) ++ above

/-- The factors below the line, the denominator before them unless it is one. -/
def belowLine (m : Rat) (below : List String) : List String :=
  if m.den ≠ 1 then toString m.den :: below else below

def unsigned (m : Rat) (above below : List String) : String :=
  String.intercalate "*" (aboveLine m above) ++ belowText (belowLine m below)

theorem text_fraction (above below : List String) (c : Rat) :
    (Entry.fraction above below).text c =
      (if c < 0 then "-" else "") ++ unsigned (Rational.abs c) above below := by
  rw [unsigned, ← String.append_assoc]
  rfl

theorem toString_inj {m n : ℕ} (same : (toString m).toList = (toString n).toList) : m = n := by
  rw [← naturalOf_toString m, same, naturalOf_toString]

/-- Numbers are no factors. -/
theorem not_factorText_toString (n : ℕ) : ¬ FactorText (toString n) := by
  intro text
  obtain ⟨c, member, mark⟩ := text.marked
  rw [isMark_isDigit (isDigit_of_mem_toString member)] at mark
  cases mark

theorem lower_toString (n : ℕ) : Sealed isSign (toString n).toList ∧ Ungrouped (toString n) := by
  refine ⟨sealed_toString n, fun u _ same => ?_⟩
  have member : '(' ∈ (toString n).toList := by
    rw [same]
    exact List.mem_cons_self
  exact (isSign_isDigit (isDigit_of_mem_toString member)).1 rfl

section Lines

variable {above below above' below' : List String} {m m' : Rat}

theorem lower_belowLine (each : ∀ s ∈ below, FactorText s) :
    ∀ s ∈ belowLine m below, Sealed isSign s.toList ∧ Ungrouped s := by
  intro s member
  unfold belowLine at member
  split at member
  · rcases List.mem_cons.mp member with rfl | later
    · exact lower_toString _
    · exact (each s later).lower
  · exact (each s member).lower

theorem belowLine_inj (each : ∀ s ∈ below, FactorText s) (each' : ∀ s ∈ below', FactorText s)
    (same : belowLine m below = belowLine m' below') : m.den = m'.den ∧ below = below' := by
  unfold belowLine at same
  split at same <;> split at same
  · obtain ⟨first, rest⟩ := List.cons.inj same
    exact ⟨toString_inj (congrArg String.toList first), rest⟩
  · exact absurd (each' _ (same ▸ List.mem_cons_self)) (not_factorText_toString _)
  · exact absurd (each _ (same ▸ List.mem_cons_self)) (not_factorText_toString _)
  next one one' => exact ⟨(not_not.mp one).trans (not_not.mp one').symm, same⟩

theorem aboveLine_cons (nonneg : 0 ≤ m.num) (each : ∀ s ∈ above, FactorText s) :
    ∃ first rest, aboveLine m above = first :: rest ∧ first.toList ≠ [] ∧
      ∀ s ∈ first :: rest, Sealed isSign s.toList := by
  rw [aboveLine, ← Reader.Fraction.toString_toNat nonneg]
  split
  · refine ⟨_, above, rfl, toList_toString_ne_nil _, fun s member => ?_⟩
    rcases List.mem_cons.mp member with rfl | later
    · exact sealed_toString _
    · exact (each s later).closed
  next alone =>
    cases above with
    | nil => simp at alone
    | cons first rest =>
      obtain ⟨c, member, _⟩ := (each first List.mem_cons_self).marked
      exact ⟨first, rest, rfl, List.ne_nil_of_mem member, fun s member => (each s member).closed⟩

theorem aboveLine_inj (nonneg : 0 ≤ m.num) (nonneg' : 0 ≤ m'.num) (each : ∀ s ∈ above, FactorText s)
    (each' : ∀ s ∈ above', FactorText s) (same : aboveLine m above = aboveLine m' above') :
    m.num = m'.num ∧ above = above' := by
  rw [aboveLine, aboveLine, ← Reader.Fraction.toString_toNat nonneg,
    ← Reader.Fraction.toString_toNat nonneg'] at same
  split at same <;> split at same
  · obtain ⟨first, rest⟩ := List.cons.inj same
    have size := toString_inj (congrArg String.toList first)
    exact ⟨by omega, rest⟩
  · have shape : toString m.num.toNat :: above = above' := same
    exact absurd (each' _ (shape ▸ List.mem_cons_self)) (not_factorText_toString _)
  · have shape : above = toString m'.num.toNat :: above' := same
    exact absurd (each _ (shape ▸ List.mem_cons_self)) (not_factorText_toString _)
  next one one' =>
    simp only [ne_eq, Bool.or_eq_true, decide_eq_true_eq, not_or, not_not] at one one'
    exact ⟨one.1.trans one'.1.symm, same⟩

/-- A term without its sign begins with no sign. -/
theorem head_unsigned (nonneg : 0 ≤ m.num) (each : ∀ s ∈ above, FactorText s) :
    ∃ c rest, (unsigned m above below).toList = c :: rest ∧ isTermSign c = false := by
  obtain ⟨first, others, shape, some, closed⟩ := aboveLine_cons nonneg each
  obtain ⟨c, rest, begins⟩ := List.exists_cons_of_ne_nil some
  refine ⟨c, rest ++ (others.flatMap fun s => '*' :: s.toList) ++ (belowText (belowLine m below)).toList,
    ?_, ?_⟩
  · rw [unsigned, shape, String.toList_append, toList_row, begins, List.cons_append, List.cons_append]
  · have first := closed first List.mem_cons_self
    rw [begins] at first
    rw [Bool.eq_false_iff]
    intro sign
    have refused : nest isSign 0 c = none := by
      simp only [isTermSign, Bool.or_eq_true, beq_iff_eq] at sign
      rcases sign with rfl | rfl <;> rfl
    exact Sealed.not_append_cons (s := []) refused .nil first

theorem sealed_unsigned (nonneg : 0 ≤ m.num) (each : ∀ s ∈ above ++ below, FactorText s) :
    Sealed isTermSign (unsigned m above below).toList := by
  have weaker {s : List Char} (closed : Sealed isSign s) : Sealed isTermSign s :=
    closed.mono (by simp +contextual [isSign])
  obtain ⟨first, others, shape, _, closed⟩ :=
    aboveLine_cons nonneg fun s member => each s (List.mem_append_left _ member)
  have lower := @lower_belowLine below m fun s member => each s (List.mem_append_right _ member)
  rw [unsigned, shape, String.toList_append]
  refine .append (.intercalate (by decide) fun s member => weaker (closed s member)) ?_
  have line : Sealed isTermSign "/".toList := by decide
  generalize belowLine m below = factors at lower
  rcases factors with _ | ⟨s, _ | ⟨t, rest⟩⟩
  · exact .nil
  · rw [belowText, String.toList_append]
    exact line.append (weaker (lower s List.mem_cons_self).1)
  · rw [toList_belowText_several]
    exact line.append (.group (.intercalate (by decide) fun s member => (lower s member).1.matched))

theorem unsigned_inj (nonneg : 0 ≤ m.num) (nonneg' : 0 ≤ m'.num)
    (each : ∀ s ∈ above ++ below, FactorText s) (each' : ∀ s ∈ above' ++ below', FactorText s)
    (same : unsigned m above below = unsigned m' above' below') :
    m = m' ∧ above = above' ∧ below = below' := by
  have line (below : List String) : ∀ c ∈ (belowText below).toList.head?, c = '/' := by
    rcases below with _ | ⟨s, _ | ⟨t, rest⟩⟩
    · simp [belowText]
    · simp [belowText]
    · simp [toList_belowText_several]
  have upper : ∀ s ∈ above, FactorText s := fun s member => each s (List.mem_append_left _ member)
  have upper' : ∀ s ∈ above', FactorText s := fun s member => each' s (List.mem_append_left _ member)
  have lower : ∀ s ∈ below, FactorText s := fun s member => each s (List.mem_append_right _ member)
  have lower' : ∀ s ∈ below', FactorText s := fun s member => each' s (List.mem_append_right _ member)
  obtain ⟨first, rest, shape, _, closed⟩ := aboveLine_cons nonneg upper
  obtain ⟨first', rest', shape', _, closed'⟩ := aboveLine_cons nonneg' upper'
  have shown := congrArg String.toList same
  rw [unsigned, unsigned, String.toList_append, String.toList_append, shape, shape', toList_row,
    toList_row, List.append_assoc, List.append_assoc] at shown
  obtain ⟨rows, belows⟩ := row_inj closed closed' (line _) (line _) shown
  rw [← shape, ← shape'] at rows
  obtain ⟨num, aboves⟩ := aboveLine_inj nonneg nonneg' upper upper' rows
  obtain ⟨den, belows⟩ := belowLine_inj lower lower'
    (belowText_inj (lower_belowLine lower) (lower_belowLine lower') (String.toList_inj.mp belows))
  exact ⟨Rat.ext num den, aboves, belows⟩

/-- The coefficient and the factors above and below the line can be read off the text of a term. -/
theorem fraction_inj {c c' : Rat} (each : ∀ s ∈ above ++ below, FactorText s)
    (each' : ∀ s ∈ above' ++ below', FactorText s)
    (same : (Entry.fraction above below).text c = (Entry.fraction above' below').text c') :
    c = c' ∧ above = above' ∧ below = below' := by
  -- Only a negative term begins with a minus sign.
  have apart {above below above' below' : List String} {c c' : Rat} (each : ∀ s ∈ above' ++ below', FactorText s) :
      "-" ++ unsigned (Rational.abs c) above below ≠ unsigned (Rational.abs c') above' below' := by
    intro same
    obtain ⟨d, rest, begins, unsigned⟩ := @head_unsigned above' below' _
      (Reader.Fraction.abs_num_nonneg c') fun s member => each s (List.mem_append_left _ member)
    have shown := congrArg String.toList same
    rw [begins, String.toList_append] at shown
    obtain rfl : '-' = d := by simpa using congrArg List.head? shown
    cases unsigned
  have magnitudes (same : unsigned (Rational.abs c) above below = unsigned (Rational.abs c') above' below') :=
    unsigned_inj (Reader.Fraction.abs_num_nonneg c) (Reader.Fraction.abs_num_nonneg c') each each' same
  rw [text_fraction, text_fraction] at same
  by_cases negative : c < 0 <;> by_cases negative' : c' < 0
  · rw [if_pos negative, if_pos negative'] at same
    obtain ⟨magnitude, shape⟩ := magnitudes (String.append_right_inj _ |>.mp same)
    rw [Rational.abs, Rational.abs, if_pos negative, if_pos negative', neg_inj] at magnitude
    exact ⟨magnitude, shape⟩
  · rw [if_pos negative, if_neg negative', String.empty_append] at same
    exact absurd same (apart each')
  · rw [if_neg negative, if_pos negative', String.empty_append] at same
    exact absurd same.symm (apart each)
  · rw [if_neg negative, if_neg negative', String.empty_append, String.empty_append] at same
    obtain ⟨magnitude, shape⟩ := magnitudes same
    rw [Rational.abs, Rational.abs, if_neg negative, if_neg negative'] at magnitude
    exact ⟨magnitude, shape⟩

end Lines

end ExactAlgebra.Expr
