/-! Why a computation was refused. Each constructor is a cause and carries what its message
needs; the wording, the machine code and the place in the text are derived here and nowhere
else. -/
namespace ExactAlgebra

/-- The families of causes that a caller can tell apart. -/
inductive FaultKind
  | literal
  | unexpectedToken
  | parity
  | operator
  | validation
  | invalidName
  | undefined
  | divisionByZero
  | outOfDomain
  | outOfRange
  | dimension
  | iterations
  | timeout
  | unsupported
deriving DecidableEq, Repr

inductive Fault
  /-- A binary64 infinity or NaN has no rational value. -/
  | nonFinite (text : String)
  | invalidLiteral (quoted : String)
  | literalOutOfRange (quoted : String)
  | divisionByZero
  | moduloByZero
  | polynomialDivisionByZero
  | numericDivisionByZero
  | zeroToThePowerZero
  | powerTooLarge (bits : Nat)
  | factorialTooLarge (n : Int)
  | factorialOfNegative (n : Int)
  | seriesTooLong (kind limit : String)
  | emptyInput
  | inputTooLong (limit : String)
  | unexpectedCharacter (char : String) (position : Nat)
  | unmatchedBracket (bracket : String) (position : Nat)
  | mismatchedBracket (expected found : String) (position : Nat)
  | unclosedBracket (bracket : String) (position : Nat)
  | emptyExpression
  | unexpectedToken (token : String) (position : Nat)
  | unexpectedEnd
  | unexpectedOperator (symbol : String) (position : Nat)
  | unexpectedSymbol (symbol : String) (position : Nat)
  | commaInGroup (position : Nat)
  | emptyArgument
  | bareFunction (name : String) (position : Nat)
  | unknownFunction (name : String) (position : Nat)
  | arity (name expected : String) (given : Nat)
  | missingOperand (symbol : String)
  | unknownInstruction (kind : String)
  | malformedProgram
  | equationArithmetic
  | chainedEquals
  | constantAsName (name role : String)
  | badName (name : String)
  | badVariableName (name : String)
  | expectedName (role got : String)
  | ambiguousVariable (function expression : String)
  | expectedInteger (function got : String)
  | negativeOrder
  | unknownSetting (name : String)
  | unboundVariable (name : String)
  | notNumeric (name : String)
  | noEquations
  | noVariables
  | nonlinearIn (name : String)
  | productOfUnknowns
  | noUniqueSolution
  | inconsistentSystem
  | underdetermined (equations unknowns : Nat)
  | listLengths (left right : Nat)
  | notPolynomialIn (function name expression : String)
  | notPolynomialPair (operation : String) (name : Option String)
  | notQuadratic (expression : String)
  | limitDoesNotExist (expression name point : String)
  | limitUnbounded (expression name : String)
  | undefinedAt (function point : String)
  | logOfZero
  | complexResult
  | numericFailure
  | noConvergence (method : String)
  | deadlineExceeded (budget : String)
  /-- A value of a kind that the operation does not take, or a computation that leaves the
  representable range or nests without end. -/
  | unsupported
deriving DecidableEq, Repr

namespace Fault

def kind : Fault → FaultKind
  | nonFinite _ | invalidLiteral _ | literalOutOfRange _ => .literal
  | divisionByZero | moduloByZero | polynomialDivisionByZero | numericDivisionByZero =>
    .divisionByZero
  | zeroToThePowerZero | limitDoesNotExist .. | limitUnbounded .. => .undefined
  | powerTooLarge _ | factorialTooLarge _ | seriesTooLong .. => .outOfRange
  | factorialOfNegative _ | undefinedAt .. | logOfZero | complexResult | numericFailure =>
    .outOfDomain
  | unexpectedCharacter .. | emptyExpression | unexpectedToken .. | unexpectedEnd
  | unexpectedOperator .. | unexpectedSymbol .. | commaInGroup _ | emptyArgument
  | bareFunction .. | unknownFunction .. => .unexpectedToken
  | unmatchedBracket .. | mismatchedBracket .. | unclosedBracket .. => .parity
  | arity .. | missingOperand _ | unknownInstruction _ | malformedProgram | equationArithmetic
  | chainedEquals => .operator
  | constantAsName .. | badName _ | badVariableName _ => .invalidName
  | emptyInput | inputTooLong _ | expectedName .. | ambiguousVariable .. | expectedInteger ..
  | negativeOrder | unknownSetting _ | unboundVariable _ | notNumeric _ | noEquations
  | noVariables | nonlinearIn _ | productOfUnknowns | noUniqueSolution | inconsistentSystem =>
    .validation
  | underdetermined .. | listLengths .. | notPolynomialIn .. | notPolynomialPair ..
  | notQuadratic _ => .dimension
  | noConvergence _ => .iterations
  | deadlineExceeded _ => .timeout
  | unsupported => .unsupported

def defaultCode : FaultKind → String
  | .literal => "PARSE_ERROR"
  | .unexpectedToken => "UNEXPECTED_TOKEN"
  | .parity => "PARITY_ERROR"
  | .operator => "OPERATOR_ERROR"
  | .validation => "VALIDATION_ERROR"
  | .invalidName => "INVALID_VARIABLE_NAME"
  | .undefined => "UNDEFINED"
  | .divisionByZero => "DIVISION_BY_ZERO"
  | .outOfDomain => "OUT_OF_DOMAIN"
  | .outOfRange => "OUT_OF_RANGE"
  | .dimension => "DIMENSION_ERROR"
  | .iterations => "MAX_ITERATIONS"
  | .timeout => "TIMEOUT"
  | .unsupported => "INTERNAL_ERROR"

def code : Fault → String
  | nonFinite _ => "NON_FINITE"
  | invalidLiteral _ | literalOutOfRange _ => "INVALID_NUMBER"
  | emptyInput => "EMPTY_INPUT"
  | inputTooLong _ => "TOO_LONG"
  | unexpectedEnd => "UNEXPECTED_END"
  | expectedName .. | ambiguousVariable .. | expectedInteger .. | negativeOrder =>
    "INVALID_ARGUMENT"
  | unknownSetting _ => "UNKNOWN_SETTING"
  | unboundVariable _ => "UNBOUND_VARIABLE"
  | notNumeric _ => "NOT_NUMERIC"
  | noEquations => "NO_EQUATIONS"
  | noVariables => "NO_VARIABLES"
  | nonlinearIn _ | productOfUnknowns => "NONLINEAR_SYSTEM"
  | noUniqueSolution => "NO_UNIQUE_SOLUTION"
  | inconsistentSystem => "INCONSISTENT_SYSTEM"
  | underdetermined .. => "UNDERDETERMINED"
  | fault => defaultCode fault.kind

def message : Fault → String
  | nonFinite text => s!"Cannot convert {text} to a rational"
  | invalidLiteral quoted => s!"Invalid number literal: {quoted}"
  | literalOutOfRange quoted => s!"Number literal out of range: {quoted}"
  | divisionByZero => "Division by zero"
  | moduloByZero => "Modulo by zero"
  | polynomialDivisionByZero => "Polynomial division by zero"
  | numericDivisionByZero => "Division by zero during numeric evaluation"
  | zeroToThePowerZero => "0^0 is undefined"
  | powerTooLarge bits => s!"Power too large (over {bits} bits)"
  | factorialTooLarge n => s!"factorial of {n} is too large"
  | factorialOfNegative n => s!"factorial is undefined for {n}"
  | seriesTooLong kind limit => s!"{kind} over more than {limit} terms"
  | emptyInput => "Expression cannot be empty"
  | inputTooLong limit => s!"Input too long (max {limit} characters)"
  | unexpectedCharacter char position => s!"Unexpected character '{char}' at position {position}"
  | unmatchedBracket bracket position => s!"Unmatched '{bracket}' at position {position}"
  | mismatchedBracket expected found position =>
    s!"Expected '{expected}' but found '{found}' at position {position}"
  | unclosedBracket bracket position => s!"Unclosed '{bracket}' at position {position}"
  | emptyExpression => "Empty expression"
  | unexpectedToken token position => s!"Unexpected token '{token}' at position {position}"
  | unexpectedEnd => "Unexpected end of expression"
  | unexpectedOperator symbol position => s!"Unexpected operator '{symbol}' at position {position}"
  | unexpectedSymbol symbol position => s!"Unexpected '{symbol}' at position {position}"
  | commaInGroup position => s!"Unexpected ',' in group at position {position}"
  | emptyArgument => "Empty argument"
  | bareFunction name _ => s!"Function '{name}' used without arguments"
  | unknownFunction name _ => s!"Unknown function '{name}'"
  | arity name expected given => s!"Function '{name}' expects {expected} argument(s), got {given}"
  | missingOperand symbol => s!"Operator '{symbol}' is missing an operand"
  | unknownInstruction kind => s!"Unknown instruction '{kind}'"
  | malformedProgram => "Malformed expression"
  | equationArithmetic => "Arithmetic on an equation is not supported"
  | chainedEquals => "Chained '=' is not supported"
  | constantAsName name role => s!"'{name}' is a constant, not a {role} name"
  | badName name => s!"Invalid name: '{name}'"
  | badVariableName name => s!"Invalid variable name: '{name}'"
  | expectedName role got => s!"Expected a {role} name, got '{got}'"
  | ambiguousVariable function expression => s!"{function} needs a variable for '{expression}'"
  | expectedInteger function got => s!"{function} expects an integer, got '{got}'"
  | negativeOrder => "Derivative order must be non-negative"
  | unknownSetting name => s!"Unknown setting '{name}'"
  | unboundVariable name => s!"No value for variable '{name}'"
  | notNumeric name => s!"'{name}' cannot be evaluated numerically"
  | noEquations => "No equations given"
  | noVariables => "No variables to solve for"
  | nonlinearIn name => s!"Equation is not linear in {name}"
  | productOfUnknowns => "Equation has products of unknowns"
  | noUniqueSolution => "System has no unique solution"
  | inconsistentSystem => "System is inconsistent"
  | underdetermined equations unknowns =>
    s!"{equations} equation(s) cannot determine {unknowns} unknowns"
  | listLengths left right => s!"Cannot combine lists of length {left} and {right}"
  | notPolynomialIn function name expression =>
    s!"{function} needs a polynomial in {name}, got '{expression}'"
  | notPolynomialPair operation (some name) =>
    s!"{operation} needs rational-coefficient polynomials in {name}"
  | notPolynomialPair operation none =>
    s!"{operation} needs rational-coefficient polynomials in one variable"
  | notQuadratic expression => s!"sqcomp needs a quadratic, got '{expression}'"
  | limitDoesNotExist expression name point =>
    s!"limit of {expression} as {name} -> {point} does not exist"
  | limitUnbounded expression name => s!"limit of {expression} as {name} -> Infinity is unbounded"
  | undefinedAt function point => s!"{function} is undefined at {point}"
  | logOfZero => "log(0) is undefined"
  | complexResult => "Result is complex"
  | numericFailure => "Numeric evaluation failed"
  | noConvergence method => s!"{method} did not converge"
  | deadlineExceeded budget => s!"Computation exceeded the {budget}ms time budget"
  | unsupported => "Internal"

def token? : Fault → Option String
  | unexpectedCharacter token _ | unmatchedBracket token _ | mismatchedBracket _ token _
  | unclosedBracket token _ | unexpectedToken token _ | unexpectedOperator token _
  | unexpectedSymbol token _ | bareFunction token _ | unknownFunction token _
  | arity token _ _ | missingOperand token => some token
  | commaInGroup _ | emptyArgument => some ","
  | chainedEquals => some "="
  | _ => none

def position? : Fault → Option Nat
  | unexpectedCharacter _ position | unmatchedBracket _ position
  | mismatchedBracket _ _ position | unclosedBracket _ position | unexpectedToken _ position
  | unexpectedOperator _ position | unexpectedSymbol _ position | commaInGroup position
  | bareFunction _ position | unknownFunction _ position => some position
  | _ => none

/-- Causes by which an expression has no value at a point, though it may have one nearby. -/
def isPole (fault : Fault) : Bool :=
  fault.kind == .divisionByZero || fault.kind == .outOfDomain

def isUndefined (fault : Fault) : Bool :=
  fault.isPole || fault.kind == .undefined

end Fault
end ExactAlgebra
