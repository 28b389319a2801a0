import ExactAlgebra.Value

/-! The table of functions: how many arguments each takes, and what it does. -/
namespace ExactAlgebra

inductive Builtin
  | sin | cos | tan | sec | csc | cot
  | asin | acos | atan
  | sinh | cosh | tanh | asinh | acosh | atanh
  | erf | log | log10 | exp | sqrt | abs | factorial | mod | min | max
  | expand | simplify | factor | partfrac | gcd | lcm | divide | deg | coeffs | sqcomp | roots
  | limit | diff | integrate | defint | sum | product | laplace | ilt | solve
deriving DecidableEq, Repr

inductive FunctionBody
  | builtin (function : Builtin)
  /-- An expression over parameters. -/
  | definition (params : List String) (body : Value)
  /-- A rule given from outside. -/
  | native (rule : List Value → Except Fault Value)

structure FunctionSpec where
  name : String
  minArgs : Int
  /-- No bound means any number. -/
  maxArgs : Option Int
  body : FunctionBody
  /-- Takes a list as one argument instead of being mapped over it. -/
  takesLists : Bool

def FunctionSpec.checkArity (spec : FunctionSpec) (given : Nat) : Except Fault Unit :=
  let tooMany := match spec.maxArgs with
    | some limit => limit < given
    | none => false
  if given < spec.minArgs || tooMany then
    let expected := match spec.maxArgs with
      | none => "at least " ++ toString spec.minArgs
      | some limit =>
        if spec.minArgs = limit then toString limit
        else toString spec.minArgs ++ " to " ++ toString limit
    .error (.arity spec.name expected given)
  else .ok ()

abbrev FunctionTable := List (String × FunctionSpec)

namespace Builtin

/-- Name, function, least and greatest number of arguments. -/
def table : List (String × Builtin × Int × Option Int) :=
  [("sin", sin, 1, some 1), ("cos", cos, 1, some 1), ("tan", tan, 1, some 1),
    ("sec", sec, 1, some 1), ("csc", csc, 1, some 1), ("cot", cot, 1, some 1),
    ("asin", asin, 1, some 1), ("acos", acos, 1, some 1), ("atan", atan, 1, some 1),
    ("sinh", sinh, 1, some 1), ("cosh", cosh, 1, some 1), ("tanh", tanh, 1, some 1),
    ("asinh", asinh, 1, some 1), ("acosh", acosh, 1, some 1), ("atanh", atanh, 1, some 1),
    ("erf", erf, 1, some 1), ("log", log, 1, some 2), ("log10", log10, 1, some 1),
    ("exp", exp, 1, some 1), ("sqrt", sqrt, 1, some 1), ("abs", abs, 1, some 1),
    ("factorial", factorial, 1, some 1), ("mod", mod, 2, some 2), ("min", min, 1, none),
    ("max", max, 1, none), ("expand", expand, 1, some 1), ("simplify", simplify, 1, some 1),
    ("factor", factor, 1, some 1), ("partfrac", partfrac, 1, some 2), ("gcd", gcd, 2, some 3),
    ("lcm", lcm, 2, some 3), ("divide", divide, 2, some 3), ("deg", deg, 1, some 2),
    ("coeffs", coeffs, 1, some 2), ("sqcomp", sqcomp, 1, some 2), ("roots", roots, 1, some 2),
    ("limit", limit, 3, some 3), ("diff", diff, 1, some 3), ("integrate", integrate, 1, some 2),
    ("defint", defint, 3, some 4), ("sum", sum, 4, some 4), ("product", product, 4, some 4),
    ("laplace", laplace, 3, some 3), ("ilt", ilt, 3, some 3), ("solve", solve, 1, some 2)]

def functions : FunctionTable :=
  table.map fun (name, function, minArgs, maxArgs) =>
    (name, ⟨name, minArgs, maxArgs, .builtin function, function = min || function = max⟩)

end Builtin
end ExactAlgebra
