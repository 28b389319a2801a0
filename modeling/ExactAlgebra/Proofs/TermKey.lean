import ExactAlgebra.Proofs.Addition
import ExactAlgebra.Proofs.FactorText
import Mathlib

/-! What the key of a term tells. The key is the text of the term with coefficient one. The factors
above and below the line can be read off it, and the powers of unknowns among them, so terms with the
same key have the same place in a sum and are written alike. -/
namespace ExactAlgebra.Expr
open Text

variable {e t u : Expr}

theorem text_positive {p : Rat} (positive : 0 < p) :
    (Rational.text p).toList = (toString p.num.toNat).toList ++
      if p.den = 1 then [] else '/' :: (toString p.den).toList := by
  rw [Rational.text, Reader.Fraction.toString_toNat (Rat.num_nonneg.mpr positive.le)]
  split <;> simp

theorem text_inj {p q : Rat} (positiveP : 0 < p) (positiveQ : 0 < q)
    (same : Rational.text p = Rational.text q) : p = q := by
  have ends (r : Rat) : ∀ c ∈ (if r.den = 1 then [] else '/' :: (toString r.den).toList).head?,
      nest isSign 0 c = none := by
    split
    · simp
    · intro c leads
      obtain rfl := Option.mem_some_iff.mp leads
      rfl
  have shown := congrArg String.toList same
  rw [text_positive positiveP, text_positive positiveQ] at shown
  obtain ⟨nums, dens⟩ := Sealed.append_inj (sealed_toString _) (sealed_toString _) (ends p) (ends q) shown
  have num : p.num = q.num := by
    have size := toString_inj nums
    have := Rat.num_pos.mpr positiveP
    have := Rat.num_pos.mpr positiveQ
    omega
  have den : p.den = q.den := by
    split at dens <;> split at dens
    next one one' => rw [one, one']
    · cases dens
    · cases dens
    · exact toString_inj (List.cons.inj dens).2
  exact Rat.ext num den

theorem head_toString (n : ℕ) : ∃ c rest, (toString n).toList = c :: rest ∧ c.isDigit = true := by
  cases shape : (toString n).toList with
  | nil => exact absurd shape (toList_toString_ne_nil n)
  | cons c rest =>
    have member : c ∈ (toString n).toList := by rw [shape]; exact List.mem_cons_self
    exact ⟨c, rest, rfl, isDigit_of_mem_toString member⟩

theorem exponentText_inj {p q : Rat} (positiveP : 0 < p) (positiveQ : 0 < q)
    (same : exponentText p = exponentText q) : p = q := by
  -- A whole power begins with a digit, any other with a parenthesis.
  have apart {p q : Rat} (positive : 0 < p) (whole : p.den = 1) :
      Rational.text p ≠ "(" ++ Rational.text q ++ ")" := by
    intro same
    have shown := congrArg String.toList same
    obtain ⟨c, rest, shape, digit⟩ := head_toString p.num.toNat
    rw [text_positive positive, shape] at shown
    obtain rfl : c = '(' := by simpa using congrArg List.head? shown
    exact absurd digit (by decide)
  unfold exponentText at same
  split at same <;> split at same
  · exact text_inj positiveP positiveQ same
  next whole _ => exact absurd same (apart positiveP whole)
  next _ whole => exact absurd same.symm (apart positiveQ whole)
  · refine text_inj positiveP positiveQ (String.toList_inj.mp ?_)
    simpa using congrArg String.toList same

/-- A term is written as the fraction of its factors. -/
theorem layout_factors (formed : e.WellFormed) (flat : e.isPlainSum = false)
    (proper : e.isNumber = false) :
    e.face.layout = [(1, fractionEntry (e.factors.map fun f => f.factorSide f.face))] := by
  cases e with
  | number => cases proper
  | symbol | call | exponential => rfl
  | sum c terms p =>
    have other : p ≠ 1 := by
      rintro rfl
      cases flat
    have layout := (layout_sum c terms p).2.2
    rw [if_neg other] at layout
    exact layout
  | product c factors => exact layout_product c factors
  | foreign => exact formed.elim

theorem factors_ne_nil (formed : e.WellFormed) (proper : e.isNumber = false) : e.factors ≠ [] := by
  cases e with
  | number => cases proper
  | product c factors =>
    intro none
    have several := formed.2.1.several
    rw [← (sortFactors_perm factors).length_eq] at several
    simp only [Expr.factors] at none
    rw [none] at several
    exact absurd several (by decide)
  | foreign => exact formed.elim
  | _ => exact List.cons_ne_nil _ _

theorem isFactor_factors (formed : e.WellFormed) {f : Expr} (member : f ∈ e.factors) :
    f.WellFormed ∧ IsFactor f := by
  cases e with
  | number => cases member
  | product c factors =>
    have inside := (sortFactors_perm factors).mem_iff.mp member
    exact ⟨allWellFormed_iff.mp formed.2.2 f inside, formed.2.1.proper f inside⟩
  | foreign => exact formed.elim
  | symbol | call | sum | exponential =>
    obtain rfl := List.mem_singleton.mp member
    exact ⟨formed.unit, ⟨rfl, rfl, rfl⟩⟩

theorem factorText_factors (formed : e.WellFormed) {s : String}
    (member : s ∈ factorTexts (fractionEntry (e.factors.map fun f => f.factorSide f.face))) :
    FactorText s := by
  obtain ⟨side, inside, rfl⟩ := mem_factorTexts.mp member
  obtain ⟨f, factor, rfl⟩ := List.mem_map.mp inside
  obtain ⟨formedF, proper⟩ := isFactor_factors formed factor
  exact factorText formedF proper

theorem mem_intercalate (separator : String) {s : String} {texts : List String} (listed : s ∈ texts) {c : Char}
    (member : c ∈ s.toList) : c ∈ (separator.intercalate texts).toList := by
  cases texts with
  | nil => cases listed
  | cons first rest =>
    rw [Reader.toList_intercalate_cons]
    rcases List.mem_cons.mp listed with rfl | later
    · exact List.mem_append_left _ member
    · exact List.mem_append_right _ (List.mem_flatMap.mpr ⟨s, later, List.mem_append_right _ member⟩)

/-- The characters of its factors occur in the text of a term. -/
theorem mem_fraction_text {above below : List String} {s : String} (listed : s ∈ above ++ below)
    {d : Char} (member : d ∈ s.toList) (c : Rat) :
    d ∈ ((Entry.fraction above below).text c).toList := by
  simp only [Entry.text, String.toList_append]
  rcases List.mem_append.mp listed with top | bottom
  · exact List.mem_append_left _ (List.mem_append_right _
      (mem_intercalate "*" (List.mem_append_right _ top) member))
  · refine List.mem_append_right _ ?_
    have lower : s ∈ if (Rational.abs c).den ≠ 1 then toString (Rational.abs c).den :: below else below := by
      split
      · exact List.mem_cons_of_mem _ bottom
      · exact bottom
    revert lower
    generalize (if (Rational.abs c).den ≠ 1 then toString (Rational.abs c).den :: below else below) = factors
    intro lower
    rcases factors with _ | ⟨factor, _ | ⟨second, rest⟩⟩
    · cases lower
    · obtain rfl := List.mem_singleton.mp lower
      simp [belowText, member]
    · rw [toList_belowText_several]
      have inside := mem_intercalate "*" lower member
      simp only [List.mem_cons, List.mem_append]
      exact .inr (.inr (.inl inside))

theorem mem_text_positive {q : Rat} (positive : 0 < q) {d : Char}
    (member : d ∈ (Rational.text q).toList) : d.isDigit = true ∨ d = '/' := by
  rw [text_positive positive] at member
  rcases List.mem_append.mp member with top | bottom
  · exact .inl (isDigit_of_mem_toString top)
  · split at bottom
    · cases bottom
    · exact (List.mem_cons.mp bottom).symm.imp_left isDigit_of_mem_toString

/-- Apart from numbers, no expression has the text of a positive number. -/
theorem text_ne_positive (formed : e.WellFormed) (proper : e.isNumber = false) {q : Rat}
    (positive : 0 < q) : e.text ≠ Rational.text q := by
  intro same
  have digits : ∀ d ∈ e.text.toList, d.isDigit = true ∨ d = '/' := by
    rw [same]
    exact fun d => mem_text_positive positive
  cases flat : e.isPlainSum with
  | true =>
    cases e with
    | sum c terms p =>
      obtain rfl : p = 1 := by simpa [isPlainSum] using flat
      refine not_sealed_spreadLayout formed.2.2.1 formed.2.2.2 c (.of_plain fun d member => ?_)
      have shown : (sum c terms 1).text = (spreadLayout terms).text c := by
        rw [Expr.text, (layout_sum c terms 1).2.2, if_pos rfl]
        rfl
      rcases digits d (shown ▸ member) with digit | rfl
      · obtain ⟨opening, closing, sign⟩ := isSign_isDigit digit
        simp only [isSign, Bool.or_eq_false_iff] at sign
        exact ⟨opening, closing, sign.1.1⟩
      · decide
    | _ => cases flat
  | false =>
    obtain ⟨f, factor⟩ := List.exists_mem_of_ne_nil _ (factors_ne_nil formed proper)
    obtain ⟨formedF, properF⟩ := isFactor_factors formed factor
    obtain ⟨d, member, mark⟩ := (factorText formedF properF).marked
    have listed : (f.factorSide f.face).2 ∈
        factorTexts (fractionEntry (e.factors.map fun f => f.factorSide f.face)) :=
      mem_factorTexts.mpr ⟨_, List.mem_map_of_mem factor, rfl⟩
    have occurs : d ∈ e.text.toList := by
      have shown := mem_fraction_text listed member (1 * e.coeff)
      rw [Expr.text, layout_factors formed flat proper]
      simpa [Layout.text, joinTerms, fractionEntry] using shown
    rcases digits d occurs with digit | rfl
    · rw [isMark_isDigit digit] at mark
      cases mark
    · exact absurd mark (by decide)

theorem takeName?_append_cons {name : String} (named : Identifier name) {c : Char}
    (outside : continuesName c = false) (rest : List Char) :
    takeName? (name.toList ++ c :: rest) = some (name.toList, c :: rest) := by
  refine Reader.takeName?_append named fun d leads => ?_
  obtain rfl := Option.mem_some_iff.mp leads
  exact outside

/-- What stands after the name at the front of a power of that name. -/
theorem takeName?_poweredText {name : String} (named : Identifier name) {p : Rat} (positive : 0 < p) :
    (p = 1 ∧ takeName? (poweredText name name p).toList = some (name.toList, [])) ∨
      (p = 1 / 2 ∧ takeName? (poweredText name name p).toList =
        some ("sqrt".toList, '(' :: (name.toList ++ [')']))) ∨
      (p ≠ 1 ∧ p ≠ 1 / 2 ∧ takeName? (poweredText name name p).toList =
        some (name.toList, '^' :: (exponentText p).toList)) := by
  rcases poweredText_cases name name positive with ⟨one, shown⟩ | ⟨half, shown⟩ | ⟨one, half, shown⟩
  · refine .inl ⟨one, ?_⟩
    rw [shown]
    exact named
  · refine .inr (.inl ⟨half, ?_⟩)
    rw [shown]
    simpa using takeName?_append_cons (by decide : Identifier "sqrt") (by decide : continuesName '(' = false)
      (name.toList ++ [')'])
  · refine .inr (.inr ⟨one, half, ?_⟩)
    rw [shown]
    simpa using takeName?_append_cons named (by decide : continuesName '^' = false) (exponentText p).toList

/-- A text that is no power of a name, to judge by what stands after the name at its front. -/
def Unnamed (s : List Char) : Prop :=
  match takeName? s with
  | none => True
  | some (word, '(' :: rest) =>
    word = "sqrt".toList → ∀ name : String, Identifier name → rest ≠ name.toList ++ [')']
  | some (_, '^' :: rest) => ∀ q : Rat, 0 < q → rest ≠ (exponentText q).toList
  | some _ => False

theorem Unnamed.ne_poweredText {s : String} (unnamed : Unnamed s.toList) {name : String}
    (named : Identifier name) {p : Rat} (positive : 0 < p) : s ≠ poweredText name name p := by
  rintro rfl
  unfold Unnamed at unnamed
  rcases takeName?_poweredText named positive with ⟨_, front⟩ | ⟨_, front⟩ | ⟨_, _, front⟩
  · rw [front] at unnamed
    exact unnamed
  · rw [front] at unnamed
    exact unnamed rfl name named rfl
  · rw [front] at unnamed
    exact unnamed p positive rfl

theorem poweredText_name_inj {name other : String} (named : Identifier name)
    (namedOther : Identifier other) {p q : Rat} (positiveP : 0 < p) (positiveQ : 0 < q)
    (same : poweredText name name p = poweredText other other q) : name = other ∧ p = q := by
  rcases takeName?_poweredText named positiveP with ⟨oneP, front⟩ | ⟨halfP, front⟩ | ⟨_, _, front⟩ <;>
    rcases takeName?_poweredText namedOther positiveQ with
      ⟨oneQ, frontQ⟩ | ⟨halfQ, frontQ⟩ | ⟨_, _, frontQ⟩ <;>
    rw [same, frontQ, Option.some.injEq, Prod.mk.injEq] at front
  · exact ⟨(String.toList_inj.mp front.1).symm, oneP.trans oneQ.symm⟩
  · cases front.2
  · cases front.2
  · cases front.2
  · have names := List.append_cancel_right (List.cons.inj front.2).2
    exact ⟨(String.toList_inj.mp names).symm, halfP.trans halfQ.symm⟩
  · cases front.2
  · cases front.2
  · cases front.2
  · have exponents := String.toList_inj.mp (List.cons.inj front.2).2
    exact ⟨(String.toList_inj.mp front.1).symm, (exponentText_inj positiveQ positiveP exponents).symm⟩

theorem unnamed_of_head {s : List Char} {c : Char} {rest : List Char} (shape : s = c :: rest)
    (other : startsName c = false) : Unnamed s := by
  simp [Unnamed, shape, takeName?, other]

theorem unnamed_call {name : String} (named : Identifier name) (proper : name ≠ "sqrt")
    (rest : List Char) : Unnamed (name.toList ++ '(' :: rest) := by
  have front := takeName?_append_cons named (by decide : continuesName '(' = false) rest
  unfold Unnamed
  rw [front]
  exact fun same => absurd (String.toList_inj.mp same) proper

theorem unnamed_root {inner : String} (other : ∀ name : String, Identifier name → inner ≠ name) :
    Unnamed ("sqrt(" ++ inner ++ ")").toList := by
  have front := takeName?_append_cons (by decide : Identifier "sqrt")
    (by decide : continuesName '(' = false) (inner.toList ++ [')'])
  have shape : ("sqrt(" ++ inner ++ ")").toList = "sqrt".toList ++ '(' :: (inner.toList ++ [')']) := by simp
  unfold Unnamed
  rw [shape, front]
  exact fun _ name named same => other name named (String.toList_inj.mp (List.append_cancel_right same))

theorem unnamed_powered {inner guarded : String} {p : Rat} (positive : 0 < p)
    (one : p = 1 → Unnamed guarded.toList) (other : ∀ name : String, Identifier name → inner ≠ name)
    (raised : ∀ rest, Unnamed (guarded.toList ++ '^' :: rest)) :
    Unnamed (poweredText inner guarded p).toList := by
  rcases poweredText_cases inner guarded positive with ⟨same, shown⟩ | ⟨_, shown⟩ | ⟨_, _, shown⟩
  · rw [shown]
    exact one same
  · rw [shown]
    exact unnamed_root other
  · rw [shown]
    simpa using raised (exponentText p).toList

theorem guarded_integer {name : String} (c p : Rat) (integer : isIntegerText name = true) :
    ∃ d rest, (symbol c name p).face.guarded.toList = d :: rest ∧ startsName d = false := by
  have guarded : (symbol c name p).face.guarded =
      if name.startsWith '-' then "(" ++ name ++ ")" else name := rfl
  rw [guarded]
  split
  · exact ⟨'(', name.toList ++ [')'], by simp, by decide⟩
  next plain =>
    unfold isIntegerText at integer
    split at integer
    next s shape =>
      rw [String.startsWith_char_eq_head?, shape] at plain
      exact absurd rfl plain
    next =>
      cases shape : name.toList with
      | nil => simp [shape] at integer
      | cons d rest =>
        refine ⟨d, rest, rfl, Bool.eq_false_iff.mpr fun starts => ?_⟩
        have digit := (Reader.startsName_only starts).2.1
        simp [shape, digit] at integer

/-- An atom other than a number is a name, or a name and its arguments. -/
theorem text_atom_cases (formed : e.WellFormed) (proper : e.isNumber = false) (atom : e.isAtom = true) :
    ∃ name : String, Identifier name ∧
      (e.text = name ∨ (name ≠ "sqrt" ∧ ∃ rest, e.text.toList = name.toList ++ '(' :: rest)) := by
  obtain ⟨n, rfl⟩ | ⟨_, shown⟩ := text_atom atom
  · cases proper
  cases e with
  | symbol c name p =>
    simp only [isAtom, Bool.and_eq_true, beq_iff_eq] at atom
    obtain ⟨_, _, named, rooted, _⟩ := formed
    have identifier : Identifier name := by
      refine named.resolve_right fun integer => rooted integer ?_
      rw [atom.2]
      rfl
    refine ⟨name, identifier, .inl ?_⟩
    rw [shown, guarded_identifier identifier]
  | call c name args p =>
    refine ⟨name, formed.2.2.1, .inr ⟨formed.2.2.2.1, ?_⟩⟩
    rw [shown]
    simp [face, singleFace]
  | number => cases proper
  | sum | product | exponential | foreign => cases atom

/-- An operand of the power sign that is no number is not written as a number would be. -/
theorem operandText_ne_exponentText (formed : e.WellFormed) (proper : e.isNumber = false) {q : Rat}
    (positive : 0 < q) : (e.operandText e.face).toList ≠ (exponentText q).toList := by
  have exponent : (∃ c rest, (exponentText q).toList = c :: rest ∧ c.isDigit = true) ∨
      exponentText q = "(" ++ Rational.text q ++ ")" := by
    unfold exponentText
    split
    next whole =>
      obtain ⟨c, rest, shape, digit⟩ := head_toString q.num.toNat
      refine .inl ⟨c, rest, ?_, digit⟩
      rw [text_positive positive, if_pos whole, List.append_nil, shape]
    · exact .inr rfl
  intro same
  unfold operandText at same
  dsimp only at same
  rw [← Expr.text] at same
  split at same
  next atom =>
    obtain ⟨name, named, shown⟩ := text_atom_cases formed proper atom
    obtain ⟨d, word, shape, starts, _⟩ := Reader.identifier_chars named
    obtain ⟨rest, begins⟩ : ∃ rest, e.text.toList = d :: rest := by
      rcases shown with shown | ⟨_, rest, shown⟩
      · exact ⟨word, by rw [shown, shape]⟩
      · exact ⟨word ++ '(' :: rest, by rw [shown, shape]; rfl⟩
    rw [begins] at same
    rcases exponent with ⟨c, rest, shape, digit⟩ | grouped
    · rw [shape] at same
      obtain rfl := (List.cons.inj same).1
      have mark : isMark d = true := by simp [isMark, starts]
      rw [isMark_isDigit digit] at mark
      cases mark
    · obtain rfl : d = '(' := by simpa [grouped] using congrArg List.head? same
      exact absurd starts (by decide)
  next =>
    rcases exponent with ⟨c, rest, shape, digit⟩ | grouped
    · rw [shape] at same
      obtain rfl : '(' = c := by simpa using congrArg List.head? same
      exact absurd digit (by decide)
    · refine text_ne_positive formed proper positive (String.toList_inj.mp ?_)
      simpa [grouped] using same

/-- An exponential is written as no power of a name. -/
theorem unnamed_exponential {c : Rat} {base exponent : Expr}
    (formed : (exponential c base exponent).WellFormed) :
    Unnamed (exponential c base exponent).face.inner.toList := by
  obtain ⟨_, number, formedBase, formedExponent⟩ := formed
  have shape : (exponential c base exponent).face.inner.toList =
      (base.operandText base.face).toList ++ '^' :: (exponent.operandText exponent.face).toList := by
    simp [face]
  have operand : base.operandText base.face =
      if base.isAtom then base.text else "(" ++ base.text ++ ")" := rfl
  rw [shape, operand]
  split
  next atom =>
    cases numeric : base.isNumber with
    | true =>
      obtain ⟨n, rfl⟩ | ⟨other, _⟩ := text_atom atom
      · obtain ⟨d, rest, digits, digit⟩ := head_toString n
        rw [text_natCast, digits]
        refine unnamed_of_head rfl ?_
        have mark := isMark_isDigit digit
        simp only [isMark, Bool.or_eq_false_iff] at mark
        exact mark.2
      · rw [numeric] at other
        cases other
    | false =>
      obtain ⟨name, named, shown | ⟨sqrt, rest, shown⟩⟩ := text_atom_cases formedBase numeric atom
      · rw [shown]
        unfold Unnamed
        rw [takeName?_append_cons named (by decide)]
        exact fun q positive => operandText_ne_exponentText formedExponent number positive
      · rw [shown, List.append_assoc]
        exact unnamed_call named sqrt _
  · have begins : ("(" ++ base.text ++ ")").toList = '(' :: (base.text.toList ++ [')']) := by simp
    rw [begins]
    exact unnamed_of_head rfl (by decide)

/-- Only powers of names are written as such. -/
theorem unnamed_side (formed : e.WellFormed) (proper : IsFactor e)
    (other : ∀ c name p, e = symbol c name p → ¬ Identifier name) :
    Unnamed (e.factorSide e.face).2.toList := by
  have powered (plain : e.isExponential = false)
      (one : e.power.den = 1 → Unnamed e.face.guarded.toList)
      (root : ∀ name : String, Identifier name → e.face.inner ≠ name)
      (raised : ∀ rest, Unnamed (e.face.guarded.toList ++ '^' :: rest)) :
      Unnamed (e.factorSide e.face).2.toList := by
    unfold factorSide
    split
    · cases plain
    split
    next negative =>
      refine unnamed_powered (neg_pos.mpr negative) (fun same => one ?_) root raised
      rw [← Rat.neg_den, same]
      rfl
    next above =>
      refine unnamed_powered (lt_of_le_of_ne (not_lt.mp above) (power_ne_zero formed).symm)
        (fun same => one ?_) root raised
      rw [same]
      rfl
  cases e with
  | number => cases proper.notNumber
  | product => cases proper.notProduct
  | foreign => exact formed.elim
  | symbol c name p =>
    obtain ⟨_, _, named, rooted, _⟩ := formed
    have integer := named.resolve_left (other c name p rfl)
    obtain ⟨d, rest, shape, outside⟩ := guarded_integer c p integer
    refine powered rfl (fun whole => absurd whole (rooted integer)) (fun name' named' same => ?_)
      fun more => unnamed_of_head (by rw [shape]; rfl) outside
    obtain rfl : name = name' := same
    exact other c name p rfl named'
  | call c name args p =>
    obtain ⟨_, _, named, sqrt, _⟩ := formed
    obtain ⟨rest, shape⟩ : ∃ rest, (call c name args p).face.guarded.toList = name.toList ++ '(' :: rest := by
      simp [face, singleFace]
    have inner : (call c name args p).face.inner = (call c name args p).face.guarded := rfl
    refine powered rfl (fun _ => shape ▸ unnamed_call named sqrt rest) (fun name' named' same => ?_)
      fun more => ?_
    · have opening : '(' ∈ name'.toList := by
        rw [← same, inner, shape]
        exact List.mem_append_right _ List.mem_cons_self
      exact (isSign_continuesName (continuesName_of_mem named' opening)).1 rfl
    · rw [shape, List.append_assoc]
      exact unnamed_call named sqrt _
  | sum c terms p =>
    have shape : (sum c terms p).face.guarded.toList =
        '(' :: (((spreadLayout terms).text 1).toList ++ [')']) := by simp [(layout_sum c terms p).1]
    refine powered rfl (fun _ => unnamed_of_head shape (by decide)) (fun name named same => ?_)
      fun rest => ?_
    · rw [inner_sum] at same
      refine not_sealed_spreadLayout formed.2.2.1 formed.2.2.2 1 ?_
      rw [same]
      exact (sealed_identifier named).mono (by simp +contextual [isSign])
    · exact unnamed_of_head (by rw [shape]; rfl) (by decide)
  | exponential c base exponent => exact unnamed_exponential formed

open Classical in
/-- The power of an unknown that the text of a factor shows; zero if it shows none. -/
noncomputable def shownDegree (s : String) : Rat :=
  if shown : ∃ p : Rat, 0 < p ∧ ∃ name, Identifier name ∧ isVariableName name = true ∧
      s = poweredText name name p
  then shown.choose else 0

theorem shownDegree_power {name : String} (named : Identifier name) {p : Rat} (positive : 0 < p) :
    shownDegree (poweredText name name p) = if isVariableName name then p else 0 := by
  unfold shownDegree
  split
  next shown =>
    obtain ⟨positive', name', named', unknown, same⟩ := shown.choose_spec
    obtain ⟨rfl, powers⟩ := poweredText_name_inj named named' positive positive' same
    rw [if_pos unknown, ← powers]
  next none =>
    rw [if_neg]
    exact fun unknown => none ⟨p, positive, name, named, unknown, rfl⟩

theorem shownDegree_unnamed {s : String} (unnamed : Unnamed s.toList) : shownDegree s = 0 := by
  unfold shownDegree
  split
  next shown =>
    obtain ⟨positive, name, named, _, same⟩ := shown.choose_spec
    exact absurd same (unnamed.ne_poweredText named positive)
  · rfl

/-- The degree of a factor can be read off its text and the side of the line on which it stands. -/
theorem degreeHint_factor (formed : e.WellFormed) (proper : IsFactor e) :
    e.degreeHint = if (e.factorSide e.face).1 then shownDegree (e.factorSide e.face).2
      else -shownDegree (e.factorSide e.face).2 := by
  have unnamed (other : ∀ c name p, e = symbol c name p → ¬ Identifier name)
      (none : e.degreeHint = 0) : e.degreeHint = if (e.factorSide e.face).1
        then shownDegree (e.factorSide e.face).2 else -shownDegree (e.factorSide e.face).2 := by
    rw [shownDegree_unnamed (unnamed_side formed proper other), none, neg_zero, ite_self]
  cases e with
  | number => cases proper.notNumber
  | product => cases proper.notProduct
  | foreign => exact formed.elim
  | call | exponential => exact unnamed (by simp) rfl
  | sum c terms p =>
    refine unnamed (by simp) ?_
    simp only [degreeHint, face]
    split <;> rfl
  | symbol c name p =>
    have degree : (symbol c name p).degreeHint = if isVariableName name then p else 0 := rfl
    by_cases named : Identifier name
    · have side : (symbol c name p).factorSide (symbol c name p).face =
          if p < 0 then (false, poweredText name (symbol c name p).face.guarded (-p))
          else (true, poweredText name (symbol c name p).face.guarded p) := rfl
      rw [degree, side, guarded_identifier named]
      by_cases negative : p < 0
      · rw [if_pos negative, shownDegree_power named (neg_pos.mpr negative)]
        split <;> simp
      · rw [if_neg negative, shownDegree_power named (lt_of_le_of_ne (not_lt.mp negative) formed.2.1.symm)]
        rfl
    · have integer := formed.2.2.1.resolve_left named
      refine unnamed (fun _ _ _ same => ?_) ?_
      · obtain ⟨rfl, rfl, rfl⟩ := symbol.inj same
        exact named
      · rw [degree, isVariableName, integer]
        simp

/-- The degree of a term is that of its factors together. -/
theorem degreeHint_factors (formed : e.WellFormed) (flat : e.isPlainSum = false)
    (proper : e.isNumber = false) : e.degreeHint = (e.factors.map degreeHint).sum := by
  cases e with
  | number => cases proper
  | product c factors =>
    have sums (fs : List Expr) (start : Rat) :
        (fs.map face).foldl (fun d f => d + f.degree) start = start + (fs.map degreeHint).sum := by
      induction fs generalizing start with
      | nil => simp
      | cons f fs ih => simp [ih, degreeHint, add_assoc]
    rw [degreeHint, face, faces_eq, Expr.factors, ((sortFactors_perm factors).map degreeHint).sum_eq]
    exact (sums factors 0).trans (zero_add _)
  | foreign => exact formed.elim
  | symbol | call | sum | exponential => simp only [Expr.factors, List.map_cons, List.map_nil,
      List.sum_singleton, degreeHint, unit, face_withCoeff proper]

/-- The degree of a term, read off the factors above and below the line. -/
theorem degreeHint_eq_shown (formed : e.WellFormed) (flat : e.isPlainSum = false)
    (proper : e.isNumber = false) {above below : List String}
    (shape : fractionEntry (e.factors.map fun f => f.factorSide f.face) = .fraction above below) :
    e.degreeHint = (above.map shownDegree).sum - (below.map shownDegree).sum := by
  have each : e.factors.map degreeHint = (e.factors.map fun f => f.factorSide f.face).map
      fun side => if side.1 then shownDegree side.2 else -shownDegree side.2 := by
    rw [List.map_map]
    refine List.map_congr_left fun f member => ?_
    obtain ⟨formedF, properF⟩ := isFactor_factors formed member
    exact degreeHint_factor formedF properF
  obtain ⟨rfl, rfl⟩ := Entry.fraction.inj shape
  rw [degreeHint_factors formed flat proper, each]
  generalize (e.factors.map fun f => f.factorSide f.face) = sides
  induction sides with
  | nil => simp
  | cons side sides ih =>
    cases above : side.1 with
    | true =>
      simp only [List.map_cons, List.sum_cons, List.filter_cons, above, ih, if_true, Bool.not_true,
        Bool.false_eq_true, if_false]
      ring
    | false =>
      simp only [List.map_cons, List.sum_cons, List.filter_cons, above, ih, if_true, Bool.not_false,
        Bool.false_eq_true, if_false]
      ring

theorem termKey_flat (formed : e.WellFormed) (flat : e.isPlainSum = false)
    (proper : e.isNumber = false) :
    e.termKey = (fractionEntry (e.factors.map fun f => f.factorSide f.face)).text 1 := by
  rw [termKey, proper, layout_factors formed flat proper]
  simp [Layout.text, joinTerms]

/-- Only numbers have the key of numbers, whatever the other terms are. -/
theorem termKey_ne_number (formed : e.WellFormed) (flat : e.isPlainSum = false)
    (proper : e.isNumber = false) : e.termKey ≠ "#" := by
  intro same
  obtain ⟨f, factor⟩ := List.exists_mem_of_ne_nil _ (factors_ne_nil formed proper)
  obtain ⟨formedF, properF⟩ := isFactor_factors formed factor
  obtain ⟨d, member, mark⟩ := (factorText formedF properF).marked
  have listed : (f.factorSide f.face).2 ∈
      factorTexts (fractionEntry (e.factors.map fun f => f.factorSide f.face)) :=
    mem_factorTexts.mpr ⟨_, List.mem_map_of_mem factor, rfl⟩
  have occurs : d ∈ e.termKey.toList := by
    rw [termKey_flat formed flat proper]
    exact mem_fraction_text listed member 1
  rw [same] at occurs
  obtain rfl := List.mem_singleton.mp occurs
  exact absurd mark (by decide)

theorem alike_of_termKey_eq (formedT : t.WellFormed) (formedU : u.WellFormed)
    (flatT : t.isPlainSum = false) (flatU : u.isPlainSum = false) (properT : t.isNumber = false)
    (properU : u.isNumber = false) (same : t.termKey = u.termKey) :
    t.degreeHint = u.degreeHint ∧ t.face.layout = u.face.layout := by
  have textsT {s : String} := @factorText_factors t formedT s
  have textsU {s : String} := @factorText_factors u formedU s
  have degreeT {above below : List String} := @degreeHint_eq_shown t formedT flatT properT above below
  have degreeU {above below : List String} := @degreeHint_eq_shown u formedU flatU properU above below
  rw [layout_factors formedT flatT properT, layout_factors formedU flatU properU]
  rw [termKey_flat formedT flatT properT, termKey_flat formedU flatU properU] at same
  generalize shapeT : fractionEntry (t.factors.map fun f => f.factorSide f.face) = entryT at *
  generalize shapeU : fractionEntry (u.factors.map fun f => f.factorSide f.face) = entryU at *
  obtain ⟨aboveT, belowT, rfl⟩ : ∃ above below, entryT = .fraction above below := ⟨_, _, shapeT.symm⟩
  obtain ⟨aboveU, belowU, rfl⟩ : ∃ above below, entryU = .fraction above below := ⟨_, _, shapeU.symm⟩
  obtain ⟨_, rfl, rfl⟩ := fraction_inj (fun s => textsT) (fun s => textsU) same
  exact ⟨(degreeT rfl).trans (degreeU rfl).symm, rfl⟩

theorem termRank_eq (e : Expr) :
    e.termRank e.face = ⟨e.isNumber, e.degreeHint, e.termKey, e.hasTermKey⟩ := by
  unfold hasTermKey termKey termRank
  split
  next number => simp only [number, degreeHint]
  next proper => simp only [proper, degreeHint]

/-- Terms with the same key stand in the same place of a sum and are written alike. -/
theorem IsTerm.alike (termT : IsTerm t) (termU : IsTerm u) (same : t.termKey = u.termKey) :
    t.termRank t.face = u.termRank u.face ∧ t.face.layout = u.face.layout := by
  have apart {t u : Expr} (termU : IsTerm u) (same : t.termKey = u.termKey)
      (number : t.isNumber = true) : u.isNumber = true := by
    by_contra other
    have proper : u.isNumber = false := Bool.eq_false_of_not_eq_true other
    refine termKey_ne_number termU.formed (by rw [unit, isPlainSum_withCoeff]; exact termU.flat)
      (by rw [unit, isNumber_withCoeff]; exact proper) ?_
    rw [unit, termKey_withCoeff, ← same, termKey, if_pos number]
  rw [termRank_eq, termRank_eq, same, termT.keyed, termU.keyed]
  cases numberT : t.isNumber with
  | true =>
    have numberU := apart termU same numberT
    cases t with
    | number c =>
      cases u with
      | number d => exact ⟨rfl, rfl⟩
      | _ => cases numberU
    | _ => cases numberT
  | false =>
    have numberU : u.isNumber = false := by
      rw [Bool.eq_false_iff]
      intro number
      rw [apart termT same.symm number] at numberT
      cases numberT
    have faceT : t.unit.face = t.face := face_withCoeff numberT 1
    have faceU : u.unit.face = u.face := face_withCoeff numberU 1
    obtain ⟨degrees, layouts⟩ := alike_of_termKey_eq termT.formed termU.formed
      (by rw [unit, isPlainSum_withCoeff]; exact termT.flat)
      (by rw [unit, isPlainSum_withCoeff]; exact termU.flat)
      (by rw [unit, isNumber_withCoeff]; exact numberT)
      (by rw [unit, isNumber_withCoeff]; exact numberU)
      (by rw [unit, unit, termKey_withCoeff, termKey_withCoeff, same])
    rw [degreeHint, degreeHint, faceT, faceU] at degrees
    rw [faceT, faceU] at layouts
    rw [numberU, degreeHint, degreeHint, degrees]
    exact ⟨rfl, layouts⟩

end ExactAlgebra.Expr
