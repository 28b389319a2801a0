import ExactAlgebra.Binary64.Significant
import ExactAlgebra.Datum.Json
import ExactAlgebra.Rational.Decimal
import ExactAlgebra.Session.Evaluation

/-! Answers to requests in text. A request never fails: a fault becomes part of the answer, as a
message and a code. -/
namespace ExactAlgebra

structure Failure where
  message : String
  code : String

def Fault.failure (fault : Fault) : Failure := ⟨fault.message, fault.code⟩

inductive EvalAnswer
  | success (result : String) (approximation : Option String) (freeSymbols : List String)
  | failure (cause : Failure)

inductive SolveAnswer
  | roots (exact : List String) (approximations : List (Option String))
  /-- An equation without unknowns holds always or never. -/
  | verdict (holds : Bool)
  | solution (values : List (String × String))
  | failure (ofSystem : Bool) (cause : Failure)

/-- A field that is left out when there is no text for it. -/
def optionalField (key : String) (value : Option String) : List (String × Datum) :=
  match value with
  | some text => [(key, .text text)]
  | none => []

def optionalText : Option String → Datum
  | some text => .text text
  | none => .absent

def Failure.fields (cause : Failure) : List (String × Datum) :=
  [("error", .text cause.message), ("error_code", .text cause.code)]

/-- A text that stands for nothing when there is none. -/
def quotedOption : Option String → String
  | some text => Text.quoted text
  | none => "None"

namespace EvalAnswer

def fields : EvalAnswer → List (String × Datum)
  | success result approximation freeSymbols =>
    [("ok", .flag true), ("result", .text result)] ++ optionalField "approx" approximation ++
      [("free_symbols", .texts freeSymbols)]
  | failure cause => ("ok", .flag false) :: cause.fields

def described : EvalAnswer → String
  | success result approximation freeSymbols =>
    let approx := (approximation.map fun a => ", approx=" ++ Text.quoted a).getD ""
    "EvalResult(ok=True, result=" ++ Text.quoted result ++ approx ++ ", free_symbols=" ++
      Text.bracketed (freeSymbols.map Text.quoted) ++ ")"
  | failure cause => "EvalResult(ok=False, error=" ++ Text.quoted cause.message ++ ")"

end EvalAnswer

namespace SolveAnswer

def kindName : SolveAnswer → String
  | roots .. => "equation"
  | verdict _ => "identity_or_contradiction"
  | solution _ => "system"
  | failure ofSystem _ => if ofSystem then "system" else "equation"

/-- The word for an equation that holds always or never. -/
def verdictText (holds : Bool) : String := if holds then "identity" else "contradiction"

def fields (answer : SolveAnswer) : List (String × Datum) :=
  let kind := ("type", Datum.text answer.kindName)
  match answer with
  | roots exact approximations =>
    [("ok", .flag true), kind, ("exact", .texts exact),
      ("approx", .list (approximations.map optionalText))]
  | verdict holds => [("ok", .flag true), kind, ("exact", .texts [verdictText holds])]
  | solution values =>
    [("ok", .flag true), kind,
      ("solutions", .list [.record (values.map fun (name, value) => (name, .text value))])]
  | failure _ cause => [("ok", .flag false), kind] ++ cause.fields

def described (answer : SolveAnswer) : String :=
  let kind := "result_type=" ++ Text.quoted answer.kindName
  let strings (texts : List String) : String := Text.bracketed (texts.map Text.quoted)
  match answer with
  | roots exact approximations =>
    "SolveResult(ok=True, " ++ kind ++ ", exact=" ++ strings exact ++ ", approx=" ++
      Text.bracketed (approximations.map quotedOption) ++ ")"
  | verdict holds =>
    "SolveResult(ok=True, " ++ kind ++ ", exact=" ++ strings [verdictText holds] ++ ")"
  | solution values =>
    let pairs := values.map fun (name, value) => Text.quoted name ++ ": " ++ Text.quoted value
    "SolveResult(ok=True, " ++ kind ++ ", system_solutions=[\x7b" ++
      String.intercalate ", " pairs ++ "\x7d])"
  | failure _ cause =>
    "SolveResult(ok=False, " ++ kind ++ ", error=" ++ Text.quoted cause.message ++ ")"

end SolveAnswer

/-- How many digits of a numeric value are shown: a number that is not negative, or the digits of
one. -/
def significantDigits : Datum → Except Fault Nat
  | .whole n => if 0 ≤ n && n < 2147483648 then .ok n.toNat else .error .unsupported
  | .text s =>
    let n := Text.naturalOf s.toList
    if !s.isEmpty && s.toList.all Text.isDecimal && n < 2147483648 then .ok n
    else .error .unsupported
  | _ => .error .unsupported

/-- A constant expression as decimal text: exactly for a number, else by its numeric value, where
there is one. -/
def Expr.approximation? (e : Expr) (precision : Datum) : Except Fault (Option String) := do
  match e with
  | .number c => return some (← Rational.decimalText c precision)
  | e =>
    if !e.isConstant then return none
    else
      match e.toFloat with
      | .ok x => return some (Binary64.significant (← significantDigits precision) x)
      | .error fault => if fault.kind = .unsupported then throw fault else return none

namespace Value

mutual
def approximation? (precision : Datum) : Value → Except Fault (Option String)
  | expr e => e.approximation? precision
  | equation _ _ => .ok none
  | list items => do
    let parts ← approximations precision items
    return (parts.mapM id).map fun parts => "[" ++ String.intercalate "," parts ++ "]"

def approximations (precision : Datum) : List Value → Except Fault (List (Option String))
  | [] => return []
  | v :: vs => do
    let v ← approximation? precision v
    return v :: (← approximations precision vs)
end

mutual
/-- The unknowns of a value and of all items of a list, in no order. -/
def freeNames : Value → Except Fault (List String)
  | list items => freeNamesAll items
  | v => v.unknowns

def freeNamesAll : List Value → Except Fault (List String)
  | [] => return []
  | v :: vs => do
    let names ← freeNames v
    return names ++ (← freeNamesAll vs)
end

end Value

namespace Equation

/-- Coefficients after like terms were collected in place: the first of several like terms has
their sum, and all that were kept are divided by their content. -/
def collectedCoeffs (terms : List Expr) : List Rat :=
  let keys := terms.map Expr.termKey
  let keyed := keys.zip (terms.map Expr.coeff)
  let sumOf (key : String) : Rat :=
    (keyed.filter (·.1 == key)).foldl (fun total entry => total + entry.2) 0
  let isFirst (place : Nat) (key : String) : Bool := !(keys.take place).contains key
  let kept := (terms.zipIdx.filter fun (t, place) =>
    isFirst place t.termKey && sumOf t.termKey ≠ 0).map fun (t, _) => t.withCoeff (sumOf t.termKey)
  let divisor : Rat :=
    match Expr.ofTerms (kept.map Expr.rankTerm) with
    | .sum c _ _ => if 1 < kept.length then c else 1
    | _ => 1
  terms.zipIdx.map fun (t, place) =>
    if isFirst place t.termKey then sumOf t.termKey / (if sumOf t.termKey = 0 then 1 else divisor)
    else t.coeff

/-- An expression whose summands got new coefficients in place. -/
def withSummandCoeffs (e : Expr) (coeffs : List Rat) : Expr :=
  match e with
  | .sum c terms p =>
    if p = 1 then .sum c (terms.zipWith Expr.withCoeff coeffs) p
    else e.withCoeff (coeffs.headD e.coeff)
  | e => e.withCoeff (coeffs.headD e.coeff)

/-- What is left of the two sides when everything is moved to the left without a copy of the
operands: the right side is negated, and the terms have the coefficients that they got in the
difference. -/
def consumed (equation : Equation) : Equation :=
  let left := equation.left
  let right := equation.right.neg
  if left.isZero || right.isZero || (left.isNumber && right.isNumber) then ⟨left, right⟩
  else
    let fromLeft := left.summands
    let coeffs := collectedCoeffs (fromLeft ++ right.summands)
    ⟨withSummandCoeffs left (coeffs.take fromLeft.length),
      withSummandCoeffs right (coeffs.drop fromLeft.length)⟩

end Equation

namespace Session

def approximation? (session : Session) (v : Value) : Except Fault (Option String) :=
  v.approximation? (session.settings.get .outputPrecision)

def describe (session : Session) (v : Value) : Except Fault EvalAnswer := do
  let text ← v.render
  let approximation ← session.approximation? v
  return .success text approximation (Expr.sortNames (← v.freeNames))

def orFailure (x : Machine α) (onFault : Failure → α) : Machine α :=
  tryCatch x fun fault => pure (onFault fault.failure)

def answer (session : Session) (x : Machine Value) : Machine EvalAnswer :=
  orFailure (do Machine.ofExcept (session.describe (← x))) .failure

/-- Evaluates a text. The text itself goes by the name `expression`, for which there is no other
value. -/
def evaluate (session : Session) (text : String) (bindings : Bindings) : Machine EvalAnswer := do
  if (bindings.lookup "expression").isSome then throw .unsupported
  session.answer (session.parse text bindings)

/-- Whether a text can be read, without evaluating it, and otherwise what stands in the way. -/
def validate (session : Session) (text : String) : Bool × Option String :=
  match session.compile text with
  | .ok _ => (true, none)
  | .error .unsupported => (false, some "Unexpected validation error")
  | .error fault => (false, some fault.message)

def differentiate (session : Session) (text : String) (x : Option String) (order : Datum) :
    Machine EvalAnswer :=
  session.answer do session.runEngine ((← session.read text).diff x order)

def integrate (session : Session) (text : String) (x : Option String) : Machine EvalAnswer :=
  session.answer do session.runEngine ((← session.read text).integrate x)

def transform (session : Session) (text t s : String) : Machine EvalAnswer :=
  session.answer do session.runEngine ((← session.read text).laplace t s)

def inverseTransform (session : Session) (text s t : String) : Machine EvalAnswer :=
  session.answer do session.runEngine ((← session.read text).ilt s t)

def rootsAnswer (session : Session) (roots : List Expr) : Except Fault SolveAnswer := do
  let exact ← roots.mapM fun root => (Value.expr root).render
  return .roots exact (← roots.mapM fun root => session.approximation? (.expr root))

/-- The equation as the solver finds it: with unprotected operands the test for unknowns has
already consumed its sides. -/
def forSolver (session : Session) : Value → Except Fault Value
  | .equation left right =>
    if session.settings.chosen .immutable then .ok (.equation left right)
    else do
      let sides := (Equation.mk (← left.toExpr) (← right.toExpr)).consumed
      return .equation (.expr sides.left) (.expr sides.right)
  | v => .ok v

/-- Solves one equation, or an expression that is to be zero. -/
def solveEquation (session : Session) (text : String) (x : Option String) :
    Machine SolveAnswer :=
  orFailure (do
    let value ← session.read text
    if value.isList then
      return .failure false ⟨"Use solve_system for several equations", "DIMENSION_ERROR"⟩
    let difference ← Machine.ofExcept value.toZero
    Machine.ofExcept difference.checkOpen
    if x.isNone && difference.isConstant then return .verdict difference.isZero
    let equation ← Machine.ofExcept (session.forSolver value)
    let roots ← session.runEngine (equation.solve x)
    Machine.ofExcept (session.rootsAnswer roots)) (.failure false)

/-- Solves a system of linear equations; a given unknown is picked out of the solution. -/
def solveSystem (session : Session) (text : String) (x : Option String) : Machine SolveAnswer :=
  orFailure (do
    let parts := (Text.splitTopLevel text.toList).map String.ofList
    let values ← parts.mapM session.read
    let solution ← session.runEngine (LinearSystem.solveValues values none)
    match x with
    | none =>
      let values ← Machine.ofExcept (solution.mapM fun (name, e) => do
        return (name, ← (Value.expr e).render))
      return .solution values
    | some x =>
      match solution.lookup x with
      | some value => Machine.ofExcept (session.rootsAnswer [value])
      | none =>
        return .failure false ⟨"'" ++ x ++ "' does not occur in the system", "UNKNOWN_VARIABLE"⟩)
    (.failure true)

end Session
end ExactAlgebra
