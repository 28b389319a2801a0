import ExactAlgebra.Rational.Literal
import ExactAlgebra.Text.Letter

/-! The written forms of numbers inside a longer text. -/
namespace ExactAlgebra.Reader
open Text Rational

def withExponent (mantissa rest : List Char) : List Char × List Char :=
  match takeExponent? rest, rest with
  | some ((sign, digits), rest'), mark :: _ => (mantissa ++ mark :: sign ++ digits, rest')
  | _, _ => (mantissa, rest)

/-- The longest unsigned number at the front of the text, and what follows it. -/
def takeNumber? (s : List Char) : Option (List Char × List Char) :=
  let whole := s.takeWhile isDecimal
  let rest := s.dropWhile isDecimal
  if whole.isEmpty then
    match s with
    | '.' :: rest =>
      let fraction := rest.takeWhile isDecimal
      if fraction.isEmpty then none
      else some (withExponent ('.' :: fraction) (rest.dropWhile isDecimal))
    | _ => none
  else
    match rest with
    | '.' :: rest =>
      some (withExponent (whole ++ '.' :: rest.takeWhile isDecimal) (rest.dropWhile isDecimal))
    | rest => some (withExponent whole rest)

end ExactAlgebra.Reader
