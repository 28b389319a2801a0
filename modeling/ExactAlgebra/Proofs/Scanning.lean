import ExactAlgebra.Proofs.Lexemes
import Mathlib

/-! Cutting a text into tokens, one front at a time. What stands at the front of a text decides what is
done with it: a blank is passed over, a word becomes a token, a bracket opens or closes a group. Written
out in order, the tokens give back the text without its blanks. -/
namespace ExactAlgebra.Reader
open Text

/-- What stands at the front of a text. -/
inductive Front
  | blank
  | word (token : Token)
  | opening (closer : String)
  | closing
  | refused (fault : Fault)

def Lexicon.front (lexicon : Lexicon) (position : ℕ) (c : Char) (cs : List Char) : Front :=
  if isBlank c then .blank
  else if startsNumber c cs then
    match takeNumber? (c :: cs) with
    | some (number, _) => .word (.number (String.ofList number) position)
    | none => .refused .unsupported
  else if isLetter c || c == '_' then
    match takeName? (c :: cs) with
    | some (name, _) => .word (.name (String.ofList name) position)
    | none => .refused .unsupported
  else if c == ',' then .word (.comma position)
  else
    match lexicon.brackets.lookup (String.singleton c) with
    | some closer => .opening closer
    | none =>
      if lexicon.brackets.any (·.2 == String.singleton c) then .closing
      else
        match lexicon.symbolAt? (c :: cs) with
        | some symbol => .word (.operator symbol position)
        | none => .refused (.unexpectedCharacter (String.singleton c) position)

section Steps

variable {lexicon : Lexicon} {skip position : ℕ} {done tokens : List Token} {groups : List OpenGroup} {c : Char}
  {cs word rest : List Char}

/-- One step of the cutting, by what stands at the front. -/
theorem scan_cons (lexicon : Lexicon) (position : ℕ) (done : List Token) (groups : List OpenGroup) (c : Char)
    (cs : List Char) :
    lexicon.scan 0 position done groups (c :: cs) =
      match lexicon.front position c cs with
      | .blank => lexicon.scan 0 (position + 1) done groups cs
      | .word token => lexicon.scan (token.text.toList.length - 1) (position + 1) (token :: done) groups cs
      | .opening closer =>
        lexicon.scan 0 (position + 1) [] (⟨String.singleton c, position, closer, done⟩ :: groups) cs
      | .closing =>
        match groups with
        | [] => .error (.unmatchedBracket (String.singleton c) position)
        | group :: groups =>
          if group.closer == String.singleton c then
            lexicon.scan 0 (position + 1) (.group group.bracket group.position done.reverse :: group.before) groups cs
          else .error (.mismatchedBracket group.closer (String.singleton c) position)
      | .refused fault => .error fault := by
  conv_lhs => unfold Lexicon.scan
  unfold Lexicon.front
  dsimp only
  split
  · rfl
  split
  · cases takeNumber? (c :: cs) with
    | none => rfl
    | some found => simp [Token.text]
  split
  · cases takeName? (c :: cs) with
    | none => rfl
    | some found => simp [Token.text]
  split
  · simp [Token.text]
  cases lexicon.brackets.lookup (String.singleton c) with
  | some closer => rfl
  | none =>
    dsimp only
    split
    · cases groups <;> rfl
    · cases lexicon.symbolAt? (c :: cs) <;> rfl

/-- A token that is a word written at a position. -/
structure IsWordAt (position : ℕ) (s : List Char) (token : Token) : Prop where
  placed : token.position = position
  single : ∀ bracket start children, token ≠ .group bracket start children
  written : ∃ rest, IsWord isWordChar s token.text.toList rest

def signChars : List Char := ['=', '+', '-', '*', '/', '%', '^', '!']

theorem symbolAt?_initial (c : Char) (cs : List Char) : Session.initial.lexicon.symbolAt? (c :: cs) =
    if signChars.contains c then some (String.singleton c) else none := by
  have begins (d : Char) : (!(String.singleton d).isEmpty && (String.singleton d).toList.isPrefixOf (c :: cs)) =
      (d == c) := by
    simp [List.isPrefixOf]
  have symbols : Session.initial.lexicon.symbols = signChars.map String.singleton := symbols_initial
  unfold Lexicon.symbolAt?
  rw [symbols, List.find?_map]
  simp only [Function.comp_def, begins]
  cases found : signChars.find? (· == c) with
  | none =>
    have absent : ¬ signChars.contains c := fun present =>
      List.find?_eq_none.mp found c (by simpa using present) (by simp)
    rw [if_neg absent]
    rfl
  | some d =>
    obtain rfl : d = c := by simpa using List.find?_some found
    rw [if_pos (by simpa using List.mem_of_find?_eq_some found)]
    rfl

theorem singleton_beq (c d : Char) : (String.singleton c == String.singleton d) = (c == d) := by
  rw [Bool.eq_iff_iff]
  simp

theorem lookup_initial (c : Char) : Session.initial.lexicon.brackets.lookup (String.singleton c) =
    if c == '(' then some ")" else if c == '[' then some "]" else none := by
  change List.lookup _ [(String.singleton '(', ")"), (String.singleton '[', "]")] = _
  rw [List.lookup_cons, List.lookup_cons, singleton_beq, singleton_beq]
  cases c == '(' <;> cases c == '[' <;> rfl

theorem closes_initial (c : Char) : Session.initial.lexicon.brackets.any (·.2 == String.singleton c) =
    (c == ')' || c == ']') := by
  change (String.singleton ')' == String.singleton c || (String.singleton ']' == String.singleton c || false)) = _
  rw [singleton_beq, singleton_beq, Bool.or_false, BEq.comm, BEq.comm (a := ']')]

/-- What is cut off as a word stands there, and neither a blank nor a bracket is part of it. -/
theorem isWordAt_of_front {token : Token}
    (found : Session.initial.lexicon.front position c cs = .word token) : IsWordAt position (c :: cs) token := by
  unfold Lexicon.front at found
  split at found
  · cases found
  split at found
  · split at found
    next number rest taken =>
      cases found
      refine ⟨rfl, nofun, rest, ?_⟩
      rw [Token.text, String.toList_ofList]
      exact (isWord_of_takeNumber? taken).imp fun _ => isWordChar_of_isNumeral
    next => cases found
  split at found
  · split at found
    next name rest taken =>
      cases found
      refine ⟨rfl, nofun, rest, ?_⟩
      rw [Token.text, String.toList_ofList]
      exact (isWord_of_takeName? taken).imp fun _ => isWordChar_of_continuesName
    next => cases found
  split at found
  next comma =>
    cases found
    obtain rfl : c = ',' := by simpa using comma
    refine ⟨rfl, nofun, cs, by simp [Token.text], by simp [Token.text], ?_⟩
    rw [show (Token.comma position).text.toList = [','] by simp [Token.text], List.forall_mem_singleton]
    decide
  split at found
  · cases found
  split at found
  · cases found
  split at found
  next symbol known =>
    cases found
    rw [symbolAt?_initial] at known
    split at known
    next listed =>
      cases known
      have signs : signChars.all isWordChar = true := by decide
      have wordChar := List.all_eq_true.mp signs c (by simpa using listed)
      exact ⟨rfl, nofun, cs, by simp [Token.text], by simp [Token.text], by simpa [Token.text] using wordChar⟩
    next => cases known
  next => cases found

theorem isBlank_of_front (found : lexicon.front position c cs = .blank) : isBlank c = true := by
  unfold Lexicon.front at found
  split at found
  next blank => exact blank
  repeat' split at found
  all_goals cases found

theorem opening_of_front {closer : String} (found : Session.initial.lexicon.front position c cs = .opening closer) :
    (c = '(' ∧ closer = ")") ∨ (c = '[' ∧ closer = "]") := by
  unfold Lexicon.front at found
  rw [lookup_initial] at found
  repeat' split at found
  all_goals cases found
  next known =>
    repeat' split at known
    all_goals cases known
    next round => exact .inl ⟨by simpa using round, rfl⟩
    next square => exact .inr ⟨by simpa using square, rfl⟩

theorem closing_of_front (found : Session.initial.lexicon.front position c cs = .closing) : c = ')' ∨ c = ']' := by
  unfold Lexicon.front at found
  rw [closes_initial] at found
  repeat' split at found
  all_goals cases found
  next closes => simpa using closes

theorem front_number (taken : takeNumber? (c :: cs) = some (word, rest)) (lexicon : Lexicon) (position : ℕ) :
    lexicon.front position c cs = .word (.number (String.ofList word) position) := by
  obtain ⟨first, tail, rfl, front, starts⟩ := head_of_takeNumber? taken
  have split := (isWord_of_takeNumber? taken).split
  rw [List.cons_append] at split
  obtain ⟨rfl, rfl⟩ := List.cons.inj split
  have solid : isBlank c = false := by
    rcases front with decimal | rfl
    · exact isBlank_of_isDecimal decimal
    · decide
  simp only [Lexicon.front, solid, starts, taken, Bool.false_eq_true, if_false, if_true]

theorem front_name (taken : takeName? (c :: cs) = some (word, rest)) (lexicon : Lexicon) (position : ℕ) :
    lexicon.front position c cs = .word (.name (String.ofList word) position) := by
  obtain ⟨first, tail, rfl, starts, -⟩ := head_of_takeName? taken
  have split := (isWord_of_takeName? taken).split
  rw [List.cons_append] at split
  obtain ⟨rfl, rfl⟩ := List.cons.inj split
  obtain ⟨solid, digit, point, letter⟩ := startsName_only starts
  have number : startsNumber c (tail ++ rest) = false := by simp [startsNumber, digit, point]
  simp only [Lexicon.front, solid, number, letter, taken, Bool.false_eq_true, if_false, if_true]

theorem front_point (ends : startsDecimal rest = false) (position : ℕ) :
    ∃ fault, Session.initial.lexicon.front position '.' rest = .refused fault := by
  have number : takeNumber? ('.' :: rest) = none := (takeNumber?_eq_none_iff '.' rest).mpr ⟨by decide, fun _ => ends⟩
  have solid : isBlank '.' = false := by decide
  have letter : (isLetter '.' || '.' == '_') = false := by decide
  simp only [Lexicon.front, lookup_initial, closes_initial, symbolAt?_initial, solid, number, letter,
    Bool.false_eq_true, if_false]
  split
  · exact ⟨.unsupported, rfl⟩
  · exact ⟨.unexpectedCharacter (String.singleton '.') position, rfl⟩

theorem scan_front {lexicon : Lexicon} {token : Token} (text : token.text.toList = word) (filled : word ≠ [])
    (front : ∀ c tail, word = c :: tail → lexicon.front position c (tail ++ rest) = .word token) :
    lexicon.scan 0 position done groups (word ++ rest) =
      lexicon.scan 0 (position + word.length) (token :: done) groups rest := by
  obtain ⟨c, tail, rfl⟩ := List.exists_cons_of_ne_nil filled
  rw [List.cons_append, scan_cons, front c tail rfl]
  dsimp only
  rw [text, List.length_cons, Nat.add_sub_cancel, scan_skip]
  congr 1
  omega

theorem scan_takeNumber? (lexicon : Lexicon) (taken : takeNumber? (word ++ rest) = some (word, rest)) :
    lexicon.scan 0 position done groups (word ++ rest) =
      lexicon.scan 0 (position + word.length) (.number (String.ofList word) position :: done) groups rest := by
  refine scan_front (by simp [Token.text]) (isWord_of_takeNumber? taken).nonempty ?_
  rintro c tail rfl
  exact front_number taken lexicon position

theorem scan_takeName? (lexicon : Lexicon) (taken : takeName? (word ++ rest) = some (word, rest)) :
    lexicon.scan 0 position done groups (word ++ rest) =
      lexicon.scan 0 (position + word.length) (.name (String.ofList word) position :: done) groups rest := by
  refine scan_front (by simp [Token.text]) (isWord_of_takeName? taken).nonempty ?_
  rintro c tail rfl
  exact front_name taken lexicon position

theorem scan_blanks (lexicon : Lexicon) {blanks : List Char} (blank : ∀ b ∈ blanks, isBlank b = true) :
    lexicon.scan 0 position done groups (blanks ++ rest) =
      lexicon.scan 0 (position + blanks.length) done groups rest := by
  induction blanks generalizing position with
  | nil => rfl
  | cons b blanks ih =>
    obtain ⟨first, others⟩ := List.forall_mem_cons.mp blank
    have front : lexicon.front position b (blanks ++ rest) = .blank := by rw [Lexicon.front, if_pos first]
    rw [List.cons_append, scan_cons, front]
    dsimp only
    rw [ih others, List.length_cons]
    congr 1
    omega

end Steps

/-- A piece of a flattened text: what is written, and where, if that is recorded. -/
structure Piece where
  text : String
  position? : Option ℕ

namespace Lexicon

mutual
/-- A token flattened: a group is its opening bracket, what stands inside and the bracket that closes it. -/
def pieces (lexicon : Lexicon) : Token → List Piece
  | .group bracket position children =>
    ⟨bracket, some position⟩ :: (lexicon.piecesAll children ++ [⟨(lexicon.brackets.lookup bracket).getD "", none⟩])
  | token => [⟨token.text, some token.position⟩]

def piecesAll (lexicon : Lexicon) : List Token → List Piece
  | [] => []
  | token :: tokens => lexicon.pieces token ++ lexicon.piecesAll tokens
end

/-- What was read so far: the tokens before each open group, its bracket, and the tokens in the innermost. -/
def piecesBefore (lexicon : Lexicon) : List OpenGroup → List Token → List Piece
  | [], done => lexicon.piecesAll done.reverse
  | group :: groups, done =>
    lexicon.piecesBefore groups group.before ++
      ⟨group.bracket, some group.position⟩ :: lexicon.piecesAll done.reverse

end Lexicon

/-- The pieces spell a text that begins at a position, but for the blanks. -/
inductive Spells : ℕ → List Char → List Piece → Prop
  | nil {position : ℕ} : Spells position [] []
  | blank {position : ℕ} {c : Char} {s : List Char} {pieces : List Piece} (blank : isBlank c = true)
    (later : Spells (position + 1) s pieces) : Spells position (c :: s) pieces
  | word {position : ℕ} {s rest : List Char} {text : String} {position? : Option ℕ} {pieces : List Piece}
    (word : IsWord (fun c => !isBlank c) s text.toList rest) (placed : ∀ p ∈ position?, p = position)
    (later : Spells (position + text.toList.length) rest pieces) :
    Spells position s (⟨text, position?⟩ :: pieces)

namespace Spells

variable {position : ℕ} {s : List Char} {pieces : List Piece}

theorem text_eq (spells : Spells position s pieces) :
    pieces.flatMap (·.text.toList) = s.filter (!isBlank ·) := by
  induction spells with
  | nil => rfl
  | blank blank _ ih => rw [List.filter_cons_of_neg (by simp [blank]), ih]
  | word word _ _ ih =>
    rw [List.flatMap_cons, ih, word.split, List.filter_append, List.filter_eq_self.mpr word.each]

/-- A recorded position is where the piece stands. -/
theorem prefix_drop (spells : Spells position s pieces) : ∀ piece ∈ pieces, ∀ p ∈ piece.position?,
    position ≤ p ∧ piece.text.toList <+: s.drop (p - position) := by
  induction spells with
  | nil => exact nofun
  | @blank position c s pieces _ _ ih =>
    intro piece member p recorded
    obtain ⟨after, begins⟩ := ih piece member p recorded
    have step : p - position = p - (position + 1) + 1 := by omega
    exact ⟨by omega, by rwa [step, List.drop_succ_cons]⟩
  | @word position s rest text position? pieces word placed _ ih =>
    intro piece member p recorded
    rcases List.mem_cons.mp member with rfl | later
    · obtain rfl := placed p recorded
      exact ⟨le_rfl, rest, by rw [Nat.sub_self, List.drop_zero, word.split]⟩
    · obtain ⟨after, begins⟩ := ih piece later p recorded
      have step : p - position = text.toList.length + (p - (position + text.toList.length)) := by omega
      exact ⟨by omega, by rwa [step, word.split, ← List.drop_drop, List.drop_left]⟩

theorem rising (spells : Spells position s pieces) : (pieces.filterMap (·.position?)).Pairwise (· < ·) := by
  induction spells with
  | nil => exact .nil
  | blank _ _ ih => exact ih
  | @word position s rest text position? pieces word placed later ih =>
    cases position? with
    | none => exact ih
    | some p =>
      obtain rfl := placed p rfl
      refine List.pairwise_cons.mpr ⟨fun q member => ?_, ih⟩
      obtain ⟨piece, inside, recorded⟩ := List.mem_filterMap.mp member
      have after := (later.prefix_drop piece inside q recorded).1
      have longer := List.length_pos_of_ne_nil word.nonempty
      omega

end Spells

section Runs

variable {skip position : ℕ} {done tokens : List Token} {groups : List OpenGroup} {cs : List Char}

theorem piecesAll_append (lexicon : Lexicon) (tokens more : List Token) :
    lexicon.piecesAll (tokens ++ more) = lexicon.piecesAll tokens ++ lexicon.piecesAll more := by
  induction tokens with
  | nil => rfl
  | cons token rest ih => rw [List.cons_append, Lexicon.piecesAll, ih, Lexicon.piecesAll, List.append_assoc]

/-- A token read in the innermost group comes last of all pieces. -/
theorem piecesBefore_cons (lexicon : Lexicon) (groups : List OpenGroup) (token : Token) (done : List Token) :
    lexicon.piecesBefore groups (token :: done) = lexicon.piecesBefore groups done ++ lexicon.pieces token := by
  cases groups <;> simp [Lexicon.piecesBefore, piecesAll_append, Lexicon.piecesAll]

theorem pieces_of_single {token : Token} (lexicon : Lexicon)
    (single : ∀ bracket start children, token ≠ .group bracket start children) :
    lexicon.pieces token = [⟨token.text, some token.position⟩] := by
  cases token with
  | group bracket start children => exact absurd rfl (single bracket start children)
  | _ => rfl

/-- The cutting writes out, after what was read before, the rest of the text. -/
theorem spells_scan
    (known : ∀ group ∈ groups, Session.initial.lexicon.brackets.lookup group.bracket = some group.closer)
    (returned : Session.initial.lexicon.scan skip position done groups cs = .ok tokens) :
    ∃ pieces, Spells (position + skip) (cs.drop skip) pieces ∧
      Session.initial.lexicon.piecesAll tokens = Session.initial.lexicon.piecesBefore groups done ++ pieces := by
  induction cs generalizing skip position done groups with
  | nil =>
    cases groups with
    | cons => cases skip <;> cases returned
    | nil =>
      obtain rfl : done.reverse = tokens := by cases skip <;> exact Except.ok.inj returned
      exact ⟨[], by rw [List.drop_nil]; exact .nil, by rw [List.append_nil]; rfl⟩
  | cons c cs ih =>
    cases skip with
    | succ skip =>
      rw [Lexicon.scan] at returned
      obtain ⟨pieces, spells, flattened⟩ := ih known returned
      exact ⟨pieces, by rwa [List.drop_succ_cons, ← add_assoc, add_right_comm], flattened⟩
    | zero =>
      rw [scan_cons] at returned
      cases front : Session.initial.lexicon.front position c cs with
      | blank =>
        rw [front] at returned
        obtain ⟨pieces, spells, flattened⟩ := ih known returned
        exact ⟨pieces, .blank (isBlank_of_front front) spells, flattened⟩
      | word token =>
        rw [front] at returned
        obtain ⟨placed, single, rest, word⟩ := isWordAt_of_front front
        obtain ⟨pieces, spells, flattened⟩ := ih known returned
        have longer := List.length_pos_of_ne_nil word.nonempty
        have next : position + 1 + (token.text.toList.length - 1) = position + token.text.toList.length := by omega
        rw [word.drop_tail, next] at spells
        have visible := word.imp fun c inside => (Bool.and_eq_true_iff.mp inside).1
        refine ⟨⟨token.text, some token.position⟩ :: pieces, .word visible (by simp [placed]) spells, ?_⟩
        rw [flattened, piecesBefore_cons, pieces_of_single _ single, List.append_assoc, List.singleton_append]
      | opening closer =>
        rw [front] at returned
        have bracket := opening_of_front front
        have word : IsWord (fun c => !isBlank c) (c :: cs) (String.singleton c).toList cs := by
          rcases bracket with ⟨rfl, -⟩ | ⟨rfl, -⟩ <;> exact ⟨by simp, by simp, by simp; decide⟩
        have stored : Session.initial.lexicon.brackets.lookup (String.singleton c) = some closer := by
          rcases bracket with ⟨rfl, rfl⟩ | ⟨rfl, rfl⟩ <;> rfl
        obtain ⟨pieces, spells, flattened⟩ := ih (List.forall_mem_cons.mpr ⟨stored, known⟩) returned
        refine ⟨⟨String.singleton c, some position⟩ :: pieces, .word word (by simp) (by simpa using spells), ?_⟩
        rw [flattened, Lexicon.piecesBefore, List.append_assoc]
        rfl
      | closing =>
        rw [front] at returned
        have word : IsWord (fun c => !isBlank c) (c :: cs) (String.singleton c).toList cs := by
          rcases closing_of_front front with rfl | rfl <;> exact ⟨by simp, by simp, by simp; decide⟩
        cases groups with
        | nil => cases returned
        | cons group groups =>
          dsimp only at returned
          split at returned
          next matched =>
            obtain ⟨stored, others⟩ := List.forall_mem_cons.mp known
            obtain ⟨pieces, spells, flattened⟩ := ih others returned
            refine ⟨⟨String.singleton c, none⟩ :: pieces, .word word (by simp) (by simpa using spells), ?_⟩
            have closer : group.closer = String.singleton c := by simpa using matched
            rw [flattened, piecesBefore_cons, Lexicon.pieces, stored, closer, Lexicon.piecesBefore]
            simp
          next => cases returned
      | refused fault =>
        rw [front] at returned
        cases returned

/-- The tokens of a text, flattened, spell it. -/
theorem spells_tokenize {text : String} (returned : Session.initial.lexicon.tokenize text = .ok tokens) :
    Spells 0 text.toList (Session.initial.lexicon.piecesAll tokens) := by
  have known : ∀ group ∈ ([] : List OpenGroup),
      Session.initial.lexicon.brackets.lookup group.bracket = some group.closer := by simp
  obtain ⟨pieces, spells, flattened⟩ := spells_scan known returned
  rw [flattened]
  exact spells

end Runs

end ExactAlgebra.Reader
