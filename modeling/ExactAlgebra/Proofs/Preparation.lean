import ExactAlgebra.Proofs.Lexemes
import Mathlib

/-! Written arithmetic needs no preparation. The steps by which a raw text is prepared for cutting look
for signs, other names and multiplications left out; in the characters of a phrase they find none, so
they leave it as it is. -/
namespace ExactAlgebra.Reader
open Text

/-- A name that a new session gives no meaning. -/
structure PlainName (name : String) : Prop where
  spelled : Expr.Identifier name
  notFunction : Session.initial.grammar.isFunction name = false
  notConstant : isConstantName name = false
  notAlias : aliases.lookup name = none

def Phrase.All (ofNumber : Nat → Prop) (ofName : String → Prop) : Phrase → Prop
  | number n => ofNumber n
  | name text => ofName text
  | negative a | group a => a.All ofNumber ofName
  | binary _ a b => a.All ofNumber ofName ∧ b.All ofNumber ofName

abbrev Phrase.Named : Phrase → Prop := Phrase.All (fun _ => True) PlainName

theorem Phrase.Named.spelled {phrase : Phrase} (named : phrase.Named) : phrase.Spelled := by
  induction phrase with
  | number => trivial
  | name text => exact PlainName.spelled named
  | negative a ih => exact ih named
  | binary sign a b ihA ihB => exact ⟨ihA named.1, ihB named.2⟩
  | group a ih => exact ih named

def isPlain (c : Char) : Bool := continuesName c || closesWord c || c == '('

theorem isPlain_chars {phrase : Phrase} (spelled : phrase.Spelled) : ∀ c ∈ phrase.chars, isPlain c = true := by
  induction phrase with
  | number n =>
    intro c member
    have digit : c.isDigit = true := isDigit_of_mem_toString (n := n) member
    simp [isPlain, continuesName, Char.isAlphanum, digit]
  | name text =>
    obtain ⟨first, word, shape, starts, inside⟩ := identifier_chars spelled
    intro c member
    have continues : continuesName c = true := by
      rw [Phrase.chars, shape] at member
      rcases List.mem_cons.mp member with rfl | later
      · exact startsName_continues starts
      · exact inside c later
    simp [isPlain, continues]
  | negative a ih =>
    simp only [Phrase.chars, List.mem_cons, forall_eq_or_imp]
    exact ⟨by decide, ih spelled⟩
  | binary sign a b ihA ihB =>
    simp only [Phrase.chars, List.mem_append, List.mem_cons]
    rintro c (left | rfl | right)
    · exact ihA spelled.1 c left
    · simp [isPlain, closesWord_sign]
    · exact ihB spelled.2 c right
  | group a ih =>
    simp only [Phrase.chars, List.cons_append, List.mem_cons, List.mem_append, List.not_mem_nil, or_false]
    rintro c (rfl | inside | rfl)
    · decide
    · exact ih spelled c inside
    · decide

theorem isPlain_ascii {c : Char} (plain : isPlain c = true) : c.toNat < 128 := by
  simp only [isPlain, Bool.or_eq_true, beq_iff_eq] at plain
  rcases plain with (continues | closes) | rfl
  · exact continuesName_ascii continues
  · rcases closesWord_eq closes with rfl | rfl | rfl | rfl | rfl | rfl <;> decide
  · decide

theorem isPlain_not_blank {c : Char} (plain : isPlain c = true) : isBlank c = false := by
  have ascii := isPlain_ascii plain
  revert plain
  refine ascii_induction (motive := fun c => isPlain c = true → isBlank c = false) ?_ ascii
  decide +kernel

/-- A phrase begins with something other than a sign, or with a minus sign. -/
theorem Phrase.head_chars {phrase : Phrase} (spelled : phrase.Spelled) :
    ∃ c rest, phrase.chars = c :: rest ∧ c ≠ '*' := by
  induction phrase with
  | number n =>
    cases shape : (toString n).toList with
    | nil => exact absurd shape (toList_toString_ne_nil n)
    | cons c rest =>
      refine ⟨c, rest, shape, ?_⟩
      rintro rfl
      exact absurd (isDigit_of_mem_toString (n := n) (shape ▸ List.mem_cons_self)) (by decide)
  | name text =>
    obtain ⟨c, rest, shape, starts, _⟩ := identifier_chars spelled
    refine ⟨c, rest, shape, ?_⟩
    rintro rfl
    exact absurd starts (by decide)
  | negative a => exact ⟨'-', a.chars, rfl, by decide⟩
  | binary sign a b ihA =>
    obtain ⟨c, rest, shape, other⟩ := ihA spelled.1
    exact ⟨c, rest ++ sign.char :: b.chars, by rw [chars, shape, List.cons_append], other⟩
  | group a => exact ⟨'(', a.chars ++ [')'], rfl, by decide⟩

/-- A word can begin after this character. -/
def opensWord (before : Option Char) : Bool := !(before.map joinsNumber).getD false

/-- A pass over a text, given the character before it, that leaves words, signs and parentheses as they
are where they stand in phrases. -/
structure LeavesPhrases (pass : Option Char → List Char → List Char) : Prop where
  number : ∀ (n : Nat) before rest, opensWord before = true → Parted rest →
    ∃ last, pass before ((toString n).toList ++ rest) = (toString n).toList ++ pass last rest
  name : ∀ name before rest, PlainName name → opensWord before = true → Parted rest →
    ∃ last, pass before (name.toList ++ rest) = name.toList ++ pass last rest
  sign : ∀ (sign : Sign) before c rest, c ≠ '*' →
    pass before (sign.char :: c :: rest) = sign.char :: pass (some sign.char) (c :: rest)
  opening : ∀ before rest, pass before ('(' :: rest) = '(' :: pass (some '(') rest
  closing : ∀ before rest, Parted rest → pass before (')' :: rest) = ')' :: pass (some ')') rest

theorem opensWord_sign (sign : Sign) : opensWord (some sign.char) = true := by
  cases sign <;> decide

/-- What leaves the parts of phrases as they are, leaves phrases as they are. -/
theorem LeavesPhrases.phrase {pass : Option Char → List Char → List Char} (leaves : LeavesPhrases pass)
    {phrase : Phrase} (named : phrase.Named) {before : Option Char} (opens : opensWord before = true)
    {rest : List Char} (parted : Parted rest) :
    ∃ last, pass before (phrase.chars ++ rest) = phrase.chars ++ pass last rest := by
  induction phrase generalizing before rest with
  | number n => exact leaves.number n before rest opens parted
  | name text => exact leaves.name text before rest named opens parted
  | negative a ih =>
    have spelled : a.Spelled := Phrase.Named.spelled named
    obtain ⟨c, word, shape, other⟩ := Phrase.head_chars spelled
    have minus := leaves.sign .minus before c (word ++ rest) other
    rw [← List.cons_append, ← shape] at minus
    obtain ⟨last, inside⟩ := ih named (opensWord_sign .minus) parted
    exact ⟨last, by rw [Phrase.chars, List.cons_append, List.cons_append, ← inside]; exact minus⟩
  | binary sign a b ihA ihB =>
    have spelled : b.Spelled := Phrase.Named.spelled named.2
    obtain ⟨c, word, shape, other⟩ := Phrase.head_chars spelled
    have closes : Parted (sign.char :: (b.chars ++ rest)) := .cons (closesWord_sign sign)
    obtain ⟨middle, left⟩ := ihA named.1 opens closes
    have between := leaves.sign sign middle c (word ++ rest) other
    rw [← List.cons_append, ← shape] at between
    obtain ⟨last, right⟩ := ihB named.2 (opensWord_sign sign) parted
    refine ⟨last, ?_⟩
    rw [Phrase.chars, List.append_assoc, List.cons_append, left, between, right]
    simp
  | group a ih =>
    have opened : opensWord (some '(') = true := by decide
    have closes : Parted (')' :: rest) := .cons rfl
    obtain ⟨middle, inside⟩ := ih named opened closes
    refine ⟨some ')', ?_⟩
    rw [Phrase.chars, List.cons_append, List.cons_append, List.append_assoc, leaves.opening]
    change '(' :: pass (some '(') (a.chars ++ ')' :: rest) = _
    rw [inside, leaves.closing _ _ parted]
    simp

theorem LeavesPhrases.whole {pass : Option Char → List Char → List Char} (leaves : LeavesPhrases pass)
    (ends : ∀ before, pass before [] = []) {phrase : Phrase} (named : phrase.Named) :
    pass none phrase.chars = phrase.chars := by
  have opens : opensWord none = true := rfl
  obtain ⟨last, passed⟩ := leaves.phrase named opens .nil
  rwa [ends, List.append_nil] at passed

theorem continuesName_digits (n : Nat) : ∀ c ∈ (toString n).toList, continuesName c = true := by
  intro c member
  have digit : c.isDigit = true := isDigit_of_mem_toString (n := n) member
  simp [continuesName, Char.isAlphanum, digit]

theorem continuesName_identifier {name : String} (named : Expr.Identifier name) :
    ∀ c ∈ name.toList, continuesName c = true := by
  obtain ⟨first, word, shape, starts, inside⟩ := identifier_chars named
  intro c member
  rw [shape] at member
  rcases List.mem_cons.mp member with rfl | later
  · exact startsName_continues starts
  · exact inside c later

theorem ne_closing {c : Char} (continues : continuesName c = true) : c ≠ ')' := by
  rintro rfl
  exact absurd continues (by decide)

theorem stripLeft_parted {rest : List Char} (parted : Parted rest) : stripLeft rest = rest := by
  cases rest with
  | nil => rfl
  | cons c rest =>
    have closes := parted c rfl
    have blank : isBlank c = false := isPlain_not_blank (by simp [isPlain, closes])
    rw [stripLeft, List.dropWhile_cons_of_neg (by simp [blank])]

theorem replaceAliases_skip (word rest : List Char) :
    replaceAliases word.length (word ++ rest) = replaceAliases 0 rest := by
  induction word with
  | nil => rfl
  | cons c word ih => rw [List.cons_append, List.length_cons, replaceAliases, ih]

theorem replaceAliases_of_not_starts {c : Char} (starts : startsName c = false) (rest : List Char) :
    replaceAliases 0 (c :: rest) = c :: replaceAliases 0 rest := by
  rw [replaceAliases, takeName?, if_neg (by simp [starts])]

theorem leavesPhrases_aliases : LeavesPhrases fun _ s => replaceAliases 0 s where
  number n before rest _ _ := by
    refine ⟨none, ?_⟩
    have digits : ∀ c ∈ (toString n).toList, startsName c = false := by
      intro c member
      have digit := isDigit_of_mem_toString (n := n) member
      by_contra starts
      have only := startsName_only (Bool.eq_true_of_not_eq_false starts)
      rw [isDigit, (isDigit_only digit).2] at only
      exact absurd only.2.1 (by simp)
    generalize (toString n).toList = word at digits
    induction word with
    | nil => rfl
    | cons c word ih =>
      rw [List.cons_append, replaceAliases_of_not_starts (digits c List.mem_cons_self), List.cons_append,
        ih fun d later => digits d (List.mem_cons_of_mem _ later)]
  name name before rest plain _ parted := by
    refine ⟨none, ?_⟩
    have found := takeName?_identifier plain.spelled parted
    have usual : usualName name.toList = name.toList := by
      rw [usualName, String.ofList_toList, plain.notAlias]
    obtain ⟨c, word, shape, _, _⟩ := identifier_chars plain.spelled
    rw [shape] at found usual ⊢
    rw [List.cons_append] at found
    rw [List.cons_append, replaceAliases, found]
    simp only [usual, List.length_cons, Nat.add_sub_cancel]
    rw [replaceAliases_skip, List.cons_append]
  sign sign before c rest _ := replaceAliases_of_not_starts (by cases sign <;> decide) _
  opening before rest := replaceAliases_of_not_starts (by decide) _
  closing before rest _ := replaceAliases_of_not_starts (by decide) _

theorem joinsNumber_of_continues {c : Char} (continues : continuesName c = true) : joinsNumber c = true := by
  have ascii := continuesName_ascii continues
  revert continues
  refine ascii_induction (motive := fun c => continuesName c = true → joinsNumber c = true) ?_ ascii
  decide +kernel

theorem multiplyNumbers_of_none {before : Option Char} {c : Char} {rest : List Char}
    (none : (before.map joinsNumber).getD false = true ∨ takeNumber? (c :: rest) = none) :
    multiplyNumbers before 0 (c :: rest) = c :: multiplyNumbers (some c) 0 rest := by
  have nothing : (if (before.map joinsNumber).getD false then Option.none else takeNumber? (c :: rest)) =
      Option.none := by
    split
    · rfl
    next opens => exact none.resolve_left opens
  rw [multiplyNumbers]
  simp only [nothing]

/-- Inside a word no number begins. -/
theorem multiplyNumbers_within {before : Option Char} (joins : (before.map joinsNumber).getD false = true)
    {word : List Char} (inside : ∀ c ∈ word, joinsNumber c = true) (rest : List Char) :
    ∃ last, multiplyNumbers before 0 (word ++ rest) = word ++ multiplyNumbers last 0 rest := by
  induction word generalizing before with
  | nil => exact ⟨before, rfl⟩
  | cons c word ih =>
    have within : ((some c).map joinsNumber).getD false = true := inside c List.mem_cons_self
    obtain ⟨last, later⟩ := ih within fun d member => inside d (List.mem_cons_of_mem _ member)
    exact ⟨last, by rw [List.cons_append, multiplyNumbers_of_none (.inl joins), later, List.cons_append]⟩

theorem leavesPhrases_numbers : LeavesPhrases fun before s => multiplyNumbers before 0 s where
  number n before rest opens parted := by
    have found := takeNumber?_digits (n := n) parted
    have inside := continuesName_digits n
    have nothing : (before.map joinsNumber).getD false = false := by simpa [opensWord] using opens
    cases shape : (toString n).toList with
    | nil => exact absurd shape (toList_toString_ne_nil n)
    | cons c word =>
      rw [shape] at found inside
      obtain ⟨last, later⟩ := @multiplyNumbers_within (some c)
        (joinsNumber_of_continues (inside c List.mem_cons_self)) word
        (fun d member => joinsNumber_of_continues (inside d (List.mem_cons_of_mem _ member))) rest
      refine ⟨last, ?_⟩
      rw [List.cons_append] at found ⊢
      rw [List.cons_append, ← later, multiplyNumbers]
      simp only [nothing, Bool.false_eq_true, if_false, found, stripLeft_parted parted]
      cases rest with
      | nil => rfl
      | cons d rest =>
        have closes := parted d rfl
        have stops : (startsName d || d == '(') = false := by
          rcases closesWord_eq closes with rfl | rfl | rfl | rfl | rfl | rfl <;> decide
        simp [stops]
  name name before rest plain _ _ := by
    have inside := continuesName_identifier plain.spelled
    obtain ⟨c, word, shape, starts, _⟩ := identifier_chars plain.spelled
    obtain ⟨_, digit, point, _⟩ := startsName_only starts
    have decimal : isDecimal c = false := by
      rw [isDigit, Bool.or_eq_false_iff] at digit
      exact digit.1
    rw [shape] at inside ⊢
    obtain ⟨last, later⟩ := @multiplyNumbers_within (some c)
      (joinsNumber_of_continues (inside c List.mem_cons_self)) word
      (fun d member => joinsNumber_of_continues (inside d (List.mem_cons_of_mem _ member))) rest
    exact ⟨last, by rw [List.cons_append,
      multiplyNumbers_of_none (.inr (takeNumber?_none decimal point)), later, List.cons_append]⟩
  sign sign before c rest _ := by
    refine multiplyNumbers_of_none (.inr (takeNumber?_none ?_ ?_))
    all_goals cases sign <;> decide
  opening before rest := multiplyNumbers_of_none (.inr (takeNumber?_none (by decide) (by decide)))
  closing before rest _ := multiplyNumbers_of_none (.inr (takeNumber?_none (by decide) (by decide)))

theorem multiplyGroups_of_ne {c : Char} (other : c ≠ ')') (rest : List Char) :
    multiplyGroups 0 (c :: rest) = c :: multiplyGroups 0 rest := by
  rw [multiplyGroups, if_neg (by simpa using other)]

theorem multiplyGroups_word {word : List Char} (inside : ∀ c ∈ word, c ≠ ')')
    (rest : List Char) : multiplyGroups 0 (word ++ rest) = word ++ multiplyGroups 0 rest := by
  induction word with
  | nil => rfl
  | cons c word ih =>
    rw [List.cons_append, multiplyGroups_of_ne (inside c List.mem_cons_self),
      ih fun d later => inside d (List.mem_cons_of_mem _ later), List.cons_append]

theorem leavesPhrases_groups : LeavesPhrases fun _ s => multiplyGroups 0 s where
  number n before rest _ _ := ⟨none, multiplyGroups_word (fun c member => ne_closing (continuesName_digits n c member)) rest⟩
  name name before rest plain _ _ :=
    ⟨none, multiplyGroups_word (fun c member => ne_closing (continuesName_identifier plain.spelled c member)) rest⟩
  sign sign before c rest _ := multiplyGroups_of_ne (by cases sign <;> decide) _
  opening before rest := multiplyGroups_of_ne (by decide) _
  closing before rest parted := by
    rw [multiplyGroups, if_pos (beq_self_eq_true ')'), stripLeft_parted parted]
    cases rest with
    | nil => rfl
    | cons d rest =>
      have closes := parted d rfl
      have stops : startsOperand d = false := by
        rcases closesWord_eq closes with rfl | rfl | rfl | rfl | rfl | rfl <;> decide
      simp [stops]

theorem replaceFrom_of_not_prefix {old new rest : List Char} {c : Char}
    (other : old.isPrefixOf (c :: rest) = false) :
    replaceFrom old new 0 (c :: rest) = c :: replaceFrom old new 0 rest := by
  rw [replaceFrom, if_neg (by simp [other])]

theorem isPrefixOf_of_ne {p c : Char} (other : c ≠ p) (old rest : List Char) :
    (p :: old).isPrefixOf (c :: rest) = false := by
  simp [List.isPrefixOf, other.symm]

theorem replaceFrom_word {p : Char} {old new word : List Char} (absent : p ∉ word) (rest : List Char) :
    replaceFrom (p :: old) new 0 (word ++ rest) = word ++ replaceFrom (p :: old) new 0 rest := by
  induction word with
  | nil => rfl
  | cons c word ih =>
    have other : c ≠ p := fun same => absent (same ▸ List.mem_cons_self)
    rw [List.cons_append, replaceFrom_of_not_prefix (isPrefixOf_of_ne other _ _),
      ih fun member => absent (List.mem_cons_of_mem _ member), List.cons_append]

theorem leavesPhrases_stars : LeavesPhrases fun _ s => replaceFrom ['*', '*'] ['^'] 0 s where
  number n before rest _ _ :=
    ⟨none, replaceFrom_word (fun member => absurd (continuesName_digits n _ member) (by decide)) rest⟩
  name name before rest plain _ _ := ⟨none, replaceFrom_word
    (fun member => absurd (continuesName_identifier plain.spelled _ member) (by decide)) rest⟩
  sign sign before c rest other := by
    refine replaceFrom_of_not_prefix ?_
    simp [List.isPrefixOf, other.symm]
  opening before rest := replaceFrom_of_not_prefix (isPrefixOf_of_ne (by decide) _ _)
  closing before rest _ := replaceFrom_of_not_prefix (isPrefixOf_of_ne (by decide) _ _)

theorem replaceAll_of_notMem {p : Char} {old new s : List Char} (absent : p ∉ s) :
    replaceAll (p :: old) new s = s := by
  have kept : replaceFrom (p :: old) new 0 (s ++ []) = s ++ replaceFrom (p :: old) new 0 [] :=
    replaceFrom_word absent []
  rw [replaceAll, List.isEmpty_cons, if_neg Bool.false_ne_true]
  simpa [replaceFrom] using kept

theorem lowerRaised_of_none {s : List Char} (none : ∀ c ∈ s, raised.lookup c = none) :
    lowerRaised [] s = s := by
  induction s with
  | nil => rfl
  | cons c s ih =>
    rw [lowerRaised, none c List.mem_cons_self]
    simp [ih fun d later => none d (List.mem_cons_of_mem _ later)]

theorem callRoots_of_notMem {s : List Char} (absent : '√' ∉ s) : callRoots 0 s = s := by
  induction s with
  | nil => rfl
  | cons c s ih =>
    have other : c ≠ '√' := fun same => absent (same ▸ List.mem_cons_self)
    rw [callRoots, if_neg (by simpa using other), ih fun member => absent (List.mem_cons_of_mem _ member)]

theorem raised_of_ascii {c : Char} (ascii : c.toNat < 128) : raised.lookup c = none := by
  refine ascii_induction (motive := fun c => raised.lookup c = none) ?_ ascii
  decide +kernel

theorem replaceSigns_phrase {phrase : Phrase} (named : phrase.Named) :
    replaceSigns phrase.chars = phrase.chars := by
  have ascii : ∀ c ∈ phrase.chars, c.toNat < 128 :=
    fun c member => isPlain_ascii (isPlain_chars named.spelled c member)
  have absent {p : Char} (foreign : ¬ p.toNat < 128) : p ∉ phrase.chars :=
    fun member => foreign (ascii p member)
  have stars : replaceAll ['*', '*'] ['^'] phrase.chars = phrase.chars :=
    leavesPhrases_stars.whole (fun _ => rfl) named
  rw [replaceSigns, lowerRaised_of_none fun c member => raised_of_ascii (ascii c member),
    callRoots_of_notMem (absent (by decide))]
  simp only [signs, List.foldl_cons, List.foldl_nil]
  change replaceAll ['*', '*'] ['^'] (replaceAll ['–'] ['-'] (replaceAll ['−'] ['-']
    (replaceAll ['÷'] ['/'] (replaceAll ['·'] ['*'] (replaceAll ['×'] ['*']
      (replaceAll ['√'] "sqrt".toList (replaceAll ['π'] "pi".toList phrase.chars))))))) = _
  rw [replaceAll_of_notMem (p := 'π') (absent (by decide)),
    replaceAll_of_notMem (p := '√') (absent (by decide)),
    replaceAll_of_notMem (p := '×') (absent (by decide)),
    replaceAll_of_notMem (p := '·') (absent (by decide)),
    replaceAll_of_notMem (p := '÷') (absent (by decide)),
    replaceAll_of_notMem (p := '−') (absent (by decide)),
    replaceAll_of_notMem (p := '–') (absent (by decide)), stars]

theorem strip_of_notBlank {s : List Char} (solid : ∀ c ∈ s, isBlank c = false) : strip s = s := by
  have left {t : List Char} (solid : ∀ c ∈ t, isBlank c = false) : t.dropWhile isBlank = t := by
    cases t with
    | nil => rfl
    | cons c t => exact List.dropWhile_cons_of_neg (by simp [solid c List.mem_cons_self])
  rw [strip, stripRight, stripLeft, left solid, left fun c member => solid c (List.mem_reverse.mp member),
    List.reverse_reverse]

theorem strip_of_plain {s : List Char} (plain : ∀ c ∈ s, isPlain c = true) : strip s = s :=
  strip_of_notBlank fun c member => isPlain_not_blank (plain c member)

/-- A text is accepted as long as it is. -/
theorem checkInput_phrase {phrase : Phrase} (named : phrase.Named) (short : phrase.chars.length ≤ 10000) :
    checkInput (Settings.initial.get .maxInputLength) phrase.chars = .ok phrase.chars := by
  obtain ⟨c, rest, shape, _⟩ := Phrase.head_chars named.spelled
  have limit : Datum.isBelow phrase.chars.length (Settings.initial.get .maxInputLength) = .ok false := by
    have below : ¬ ((10000 : Int) : Rat) < phrase.chars.length := by exact_mod_cast not_lt.mpr short
    change Except.ok (some (compareOfLessAndEq ((10000 : Int) : Rat) phrase.chars.length) == some .lt) = _
    rw [compareOfLessAndEq, if_neg below]
    split <;> rfl
  have filled : phrase.chars.isEmpty = false := by rw [shape]; rfl
  unfold checkInput
  simp only [strip_of_plain (isPlain_chars named.spelled), filled, limit, Bool.false_eq_true, if_false]
  rfl

/-- The characters of a phrase are prepared already. -/
theorem preprocess_phrase {phrase : Phrase} (named : phrase.Named) {text : String}
    (written : text.toList = phrase.chars) (short : text.length ≤ 10000) :
    Session.initial.preprocess text = .ok text := by
  have length : phrase.chars.length ≤ 10000 := by
    rwa [← written, String.length_toList]
  have multiplied : writeMultiplication phrase.chars = phrase.chars := by
    rw [writeMultiplication, leavesPhrases_numbers.whole (fun _ => rfl) named]
    exact leavesPhrases_groups.whole (fun _ => rfl) named
  have renamed : replaceAliases 0 phrase.chars = phrase.chars :=
    leavesPhrases_aliases.whole (fun _ => rfl) named
  have checked : Preprocessor.run Settings.initial phrase.chars .validate = .ok phrase.chars :=
    checkInput_phrase named length
  have steps : Preprocessor.initial.foldlM (fun s item => Preprocessor.run Settings.initial s item.2)
      phrase.chars = .ok phrase.chars := by
    rw [Preprocessor.initial, List.foldlM_cons]
    simp only [checked]
    change Except.ok (writeMultiplication (replaceAliases 0 (replaceSigns phrase.chars))) = _
    rw [replaceSigns_phrase named, renamed, multiplied]
  rw [Session.preprocess, normalize, written]
  change (Preprocessor.initial.foldlM (fun s item => Preprocessor.run Settings.initial s item.2)
    phrase.chars >>= fun s => Except.ok (String.ofList s)) = _
  rw [steps, ← written]
  exact congrArg Except.ok String.ofList_toList

end ExactAlgebra.Reader
