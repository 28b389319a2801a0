import ExactAlgebra.Proofs.TermKey
import Mathlib

/-! What the text of a sum tells. The signs between the terms stand outside of all parentheses, so the
terms can be read off the text of a sum, each with its coefficient and its factors. -/
namespace ExactAlgebra.Expr
open Text

/-- An entry as a term shows it: a number, or a fraction of at least one factor. -/
structure TermEntry (entry : Entry) : Prop where
  factors : ∀ s ∈ factorTexts entry, FactorText s
  proper : entry ≠ .fraction [] []

/-- The factors above and below the line; a number has none. -/
def lines : Entry → List String × List String
  | .number => ([], [])
  | .fraction above below => (above, below)

def body (item : Rat × Entry) : List Char :=
  (unsigned (Rational.abs item.1) (lines item.2).1 (lines item.2).2).toList

def sign (item : Rat × Entry) : Char := if item.1 < 0 then '-' else '+'

variable {e : Expr} {entry entry' : Entry} {c c' : Rat} {items items' : List (Rat × Entry)}

theorem text_lines (entry : Entry) (c : Rat) :
    entry.text c = (Entry.fraction (lines entry).1 (lines entry).2).text c := by
  cases entry with
  | number => exact Reader.Fraction.text_number c
  | fraction => rfl

theorem TermEntry.each (term : TermEntry entry) :
    ∀ s ∈ (lines entry).1 ++ (lines entry).2, FactorText s := by
  cases entry with
  | number => simp [lines]
  | fraction => exact term.factors

theorem toList_term (entry : Entry) (c : Rat) :
    (entry.text c).toList = (if c < 0 then ['-'] else []) ++ body (c, entry) := by
  rw [text_lines, text_fraction, String.toList_append]
  split <;> rfl

theorem TermEntry.head (term : TermEntry entry) (c : Rat) :
    ∃ d rest, body (c, entry) = d :: rest ∧ isTermSign d = false :=
  head_unsigned (Reader.Fraction.abs_num_nonneg c) fun s member =>
    term.each s (List.mem_append_left _ member)

theorem TermEntry.ne_minus (term : TermEntry entry) (c : Rat) {after rest : List Char} :
    [] ++ (body (c, entry) ++ after) ≠ ['-'] ++ rest := by
  obtain ⟨d, others, shape, unsigned⟩ := term.head c
  rw [shape]
  rintro same
  obtain rfl : d = '-' := (List.cons.inj same).1
  cases unsigned

theorem TermEntry.closed (term : TermEntry entry) (c : Rat) : Sealed isTermSign (body (c, entry)) :=
  sealed_unsigned (Reader.Fraction.abs_num_nonneg c) term.each

theorem TermEntry.startsWith (term : TermEntry entry) (c : Rat) :
    (entry.text c).startsWith '-' = decide (c < 0) := by
  rw [String.startsWith_char_eq_head?, toList_term]
  obtain ⟨d, rest, shape, unsigned⟩ := term.head c
  by_cases negative : c < 0
  · simp [negative]
  · have other : d ≠ '-' := by
      rintro rfl
      cases unsigned
    simp [negative, shape, other]

theorem TermEntry.text_inj (term : TermEntry entry) (term' : TermEntry entry')
    (same : entry.text c = entry'.text c') : c = c' ∧ entry = entry' := by
  rw [text_lines entry, text_lines entry'] at same
  obtain ⟨coefficients, above, below⟩ := fraction_inj term.each term'.each same
  refine ⟨coefficients, ?_⟩
  cases entry with
  | number =>
    cases entry' with
    | number => rfl
    | fraction =>
      refine absurd ?_ term'.proper
      exact congrArg₂ Entry.fraction above.symm below.symm
  | fraction =>
    cases entry' with
    | number =>
      refine absurd ?_ term.proper
      exact congrArg₂ Entry.fraction above below
    | fraction => exact congrArg₂ Entry.fraction above below

/-- A term can be read off its sign and what stands behind it. -/
theorem TermEntry.row_inj {item item' : Rat × Entry} (term : TermEntry item.2) (term' : TermEntry item'.2)
    (same : (sign item, body item) = (sign item', body item')) : item = item' := by
  obtain ⟨signs, bodies⟩ := Prod.mk.inj same
  have negative : item.1 < 0 ↔ item'.1 < 0 := by
    unfold sign at signs
    split at signs <;> split at signs
    next negative negative' => exact iff_of_true negative negative'
    · cases signs
    · cases signs
    next positive positive' => exact iff_of_false positive positive'
  have shown : (item.2.text item.1).toList = (item'.2.text item'.1).toList := by
    rw [toList_term, toList_term, if_congr negative rfl rfl]
    exact congrArg _ bodies
  obtain ⟨coefficients, entries⟩ := term.text_inj term' (String.toList_inj.mp shown)
  exact Prod.ext coefficients entries

/-- Texts in a row, each after a sign, are told apart by the signs. -/
theorem signed_inj {rows rows' : List (Char × List Char)}
    (each : ∀ row ∈ rows, isTermSign row.1 = true ∧ Sealed isTermSign row.2)
    (each' : ∀ row ∈ rows', isTermSign row.1 = true ∧ Sealed isTermSign row.2)
    (same : (rows.flatMap fun row => row.1 :: row.2) = rows'.flatMap fun row => row.1 :: row.2) :
    rows = rows' := by
  have ends {rows : List (Char × List Char)}
      (each : ∀ row ∈ rows, isTermSign row.1 = true ∧ Sealed isTermSign row.2) :
      ∀ c ∈ (rows.flatMap fun row => row.1 :: row.2).head?, nest isTermSign 0 c = none := by
    intro c leads
    cases rows with
    | nil => cases leads
    | cons row rows =>
      obtain rfl := Option.mem_some_iff.mp leads
      have sign := (each row List.mem_cons_self).1
      simp only [isTermSign, Bool.or_eq_true, beq_iff_eq] at sign
      rcases sign with same | same <;> rw [same] <;> rfl
  induction rows generalizing rows' with
  | nil =>
    cases rows' with
    | nil => rfl
    | cons => cases same
  | cons row rows ih =>
    cases rows' with
    | nil => cases same
    | cons row' rows' =>
      have later : ∀ r ∈ rows, _ := fun r member => each r (List.mem_cons_of_mem _ member)
      have later' : ∀ r ∈ rows', _ := fun r member => each' r (List.mem_cons_of_mem _ member)
      rw [List.flatMap_cons, List.flatMap_cons, List.cons_append, List.cons_append] at same
      obtain ⟨signs, others⟩ := List.cons.inj same
      obtain ⟨bodies, others⟩ := Sealed.append_inj (each row List.mem_cons_self).2
        (each' row' List.mem_cons_self).2 (ends later) (ends later') others
      rw [ih later later' others, Prod.ext signs bodies]

/-- Apart from a plus sign that is left out in front, terms are written one after another, each after
its sign. -/
theorem toList_joinTerms {item : Rat × Entry} (each : ∀ later ∈ item :: items, TermEntry later.2) :
    (joinTerms ((item :: items).map fun item => item.2.text item.1)).toList =
      (if item.1 < 0 then ['-'] else []) ++
        (body item ++ items.flatMap fun item => sign item :: body item) := by
  rw [List.map_cons, joinTerms, String.toList_append, toList_term, List.append_assoc,
    String.toList_join, List.map_map, List.flatMap_map]
  congr 2
  refine List.flatMap_congr fun later member => ?_
  rw [Function.comp_apply, (each later (List.mem_cons_of_mem _ member)).startsWith, sign]
  by_cases negative : later.1 < 0
  · simp [negative, toList_term]
  · simp [negative, toList_term]

/-- Terms in a row are the same once each has the same sign and the same text behind it. -/
theorem rows_inj (each : ∀ item ∈ items, TermEntry item.2) (each' : ∀ item ∈ items', TermEntry item.2)
    (same : (items.flatMap fun item => sign item :: body item) =
      items'.flatMap fun item => sign item :: body item) : items = items' := by
  have isSign (item : Rat × Entry) : isTermSign (sign item) = true := by
    unfold sign
    split <;> rfl
  have rows {items : List (Rat × Entry)} (each : ∀ item ∈ items, TermEntry item.2) :
      ∀ row ∈ items.map fun item => (sign item, body item),
        isTermSign row.1 = true ∧ Sealed isTermSign row.2 := by
    intro row member
    obtain ⟨item, inside, rfl⟩ := List.mem_map.mp member
    exact ⟨isSign item, (each item inside).closed item.1⟩
  have maps := signed_inj (rows each) (rows each') (by simpa only [List.flatMap_map] using same)
  clear same rows
  induction items generalizing items' with
  | nil => exact (List.map_eq_nil_iff.mp maps.symm).symm
  | cons item items ih =>
    cases items' with
    | nil => cases maps
    | cons item' items' =>
      obtain ⟨first, later⟩ := List.cons.inj maps
      rw [(each item List.mem_cons_self).row_inj (each' item' List.mem_cons_self) first,
        ih (fun i member => each i (List.mem_cons_of_mem _ member))
          (fun i member => each' i (List.mem_cons_of_mem _ member)) later]

/-- The terms can be read off the text in which they stand in a row. -/
theorem joinTerms_inj (each : ∀ item ∈ items, TermEntry item.2) (each' : ∀ item ∈ items', TermEntry item.2)
    (same : joinTerms (items.map fun item => item.2.text item.1) =
      joinTerms (items'.map fun item => item.2.text item.1)) : items = items' := by
  have shown := congrArg String.toList same
  cases items with
  | nil =>
    cases items' with
    | nil => rfl
    | cons item' items' =>
      rw [toList_joinTerms each'] at shown
      obtain ⟨d, rest, shape, _⟩ := (each' item' List.mem_cons_self).head item'.1
      simp [joinTerms, shape] at shown
  | cons item items =>
    cases items' with
    | nil =>
      rw [toList_joinTerms each] at shown
      obtain ⟨d, rest, shape, _⟩ := (each item List.mem_cons_self).head item.1
      simp [joinTerms, shape] at shown
    | cons item' items' =>
      have term := each item List.mem_cons_self
      have term' := each' item' List.mem_cons_self
      rw [toList_joinTerms each, toList_joinTerms each'] at shown
      refine rows_inj each each' ?_
      rw [List.flatMap_cons, List.flatMap_cons, List.cons_append, List.cons_append]
      by_cases negative : item.1 < 0 <;> by_cases negative' : item'.1 < 0
      · rw [if_pos negative, if_pos negative'] at shown
        rw [sign, sign, if_pos negative, if_pos negative']
        exact shown
      · rw [if_pos negative, if_neg negative'] at shown
        exact absurd shown.symm (term'.ne_minus item'.1)
      · rw [if_neg negative, if_pos negative'] at shown
        exact absurd shown (term.ne_minus item.1)
      · rw [if_neg negative, if_neg negative'] at shown
        rw [sign, sign, if_neg negative, if_neg negative']
        exact congrArg _ shown

theorem termEntry_layout {t : Expr} (formed : t.WellFormed) (flat : t.isPlainSum = false) :
    ∃ entry, t.face.layout = [(1, entry)] ∧ TermEntry entry := by
  cases number : t.isNumber with
  | true =>
    cases t with
    | number => exact ⟨.number, rfl, by simp [factorTexts], by simp⟩
    | _ => cases number
  | false =>
    refine ⟨_, layout_factors formed flat number, fun s member => factorText_factors formed member, ?_⟩
    obtain ⟨f, rest, shape⟩ := List.exists_cons_of_ne_nil (factors_ne_nil formed number)
    have listed : (f.factorSide f.face).2 ∈
        factorTexts (fractionEntry (t.factors.map fun f => f.factorSide f.face)) :=
      mem_factorTexts.mpr ⟨_, List.mem_map_of_mem (shape ▸ List.mem_cons_self), rfl⟩
    intro none
    rw [none] at listed
    cases listed

theorem WellFormed.termEntries_spreadLayout {k p : Rat} {terms : List Expr}
    (formed : (sum k terms p).WellFormed) : ∀ item ∈ spreadLayout terms, TermEntry item.2 := by
  intro item member
  obtain ⟨t, sorted, inside⟩ := List.mem_flatMap.mp member
  have inTerms := (sortTerms_perm terms).mem_iff.mp sorted
  obtain ⟨entry, layout, term⟩ := termEntry_layout (allWellFormed_iff.mp formed.2.2.2 t inTerms)
    (formed.2.2.1.flat t inTerms)
  rw [layout] at inside
  obtain rfl := List.mem_singleton.mp inside
  exact term

/-- The terms of a sum, their order included, can be read off its text. -/
theorem spreadLayout_inj {k l p q : Rat} {terms others : List Expr} (formed : (sum k terms p).WellFormed)
    (formed' : (sum l others q).WellFormed)
    (same : (spreadLayout terms).text 1 = (spreadLayout others).text 1) :
    spreadLayout terms = spreadLayout others := by
  refine joinTerms_inj formed.termEntries_spreadLayout formed'.termEntries_spreadLayout ?_
  simpa only [Layout.text, mul_one] using same

theorem termEntries (formed : e.WellFormed) : ∀ item ∈ e.face.layout, TermEntry item.2 := by
  cases flat : e.isPlainSum with
  | true =>
    cases e with
    | sum c terms p =>
      obtain rfl : p = 1 := by simpa [isPlainSum] using flat
      rw [(layout_sum c terms 1).2.2, if_pos rfl]
      exact formed.termEntries_spreadLayout
    | _ => cases flat
  | false =>
    obtain ⟨entry, layout, term⟩ := termEntry_layout formed flat
    rw [layout]
    exact List.forall_mem_singleton.mpr term

theorem two_le_length_spreadLayout {k p : Rat} {terms : List Expr}
    (formed : (sum k terms p).WellFormed) : 2 ≤ (spreadLayout terms).length := by
  have single : ∀ t ∈ sortTerms terms, t.face.layout.length = 1 := by
    intro t sorted
    have inTerms := (sortTerms_perm terms).mem_iff.mp sorted
    obtain ⟨entry, layout, -⟩ := termEntry_layout (allWellFormed_iff.mp formed.2.2.2 t inTerms)
      (formed.2.2.1.flat t inTerms)
    rw [layout, List.length_singleton]
  have lengths : (sortTerms terms).map (fun t => t.face.layout.length) =
      (sortTerms terms).map fun _ => 1 := List.map_congr_left single
  have several := formed.2.2.1.several
  rw [spreadLayout, List.length_flatMap]
  simpa [lengths, (sortTerms_perm terms).length_eq] using several

/-- No other expression has the text of a number. -/
theorem eq_number_of_text_eq (formed : e.WellFormed) {q : Rat} (same : e.text = (number q).text) :
    e = number q := by
  have scaled {e : Expr} (formed : e.WellFormed) :
      ∀ item ∈ e.face.layout.map (fun item => (item.1 * e.coeff, item.2)), TermEntry item.2 := by
    intro item member
    obtain ⟨old, inside, rfl⟩ := List.mem_map.mp member
    exact termEntries formed old inside
  have layouts : e.face.layout.map (fun item => (item.1 * e.coeff, item.2)) = [(1 * q, .number)] := by
    refine joinTerms_inj (scaled formed) (@scaled (number q) trivial) ?_
    rw [List.map_map]
    exact same
  cases flat : e.isPlainSum with
  | true =>
    cases e with
    | sum c terms p =>
      obtain rfl : p = 1 := by simpa [isPlainSum] using flat
      have several := two_le_length_spreadLayout formed
      rw [(layout_sum c terms 1).2.2, if_pos rfl] at layouts
      have single := congrArg List.length layouts
      rw [List.length_map, List.length_singleton] at single
      omega
    | _ => cases flat
  | false =>
    cases numeric : e.isNumber with
    | true =>
      cases e with
      | number c =>
        have values : 1 * c = 1 * q := congrArg Prod.fst (List.cons.inj layouts).1
        rw [one_mul, one_mul] at values
        rw [values]
      | _ => cases numeric
    | false =>
      rw [layout_factors formed flat numeric] at layouts
      cases congrArg Prod.snd (List.cons.inj layouts).1

end ExactAlgebra.Expr
