import ExactAlgebra.Datum.Basic

/-! Settings. Each has a name and a default; a session may change any of them, and a scoped
change is undone when its scope ends. A setting takes any datum; whether it makes sense is found out
where it is used. -/
namespace ExactAlgebra

inductive Setting
  | timeoutMs
  | precision
  | outputPrecision
  | integrationDepth
  | laplaceIntegrationDepth
  | simplifyMaxPasses
  | numericFallback
  | maxNewtonIterations
  | maxBisectionIterations
  | newtonEpsilon
  | bisectionEpsilon
  | rootTolerance
  | solveRadius
  | solveStep
  | rootsPerSide
  | maxDenominator
  | maxRationalRootCandidates
  | quadratureTolerance
  | maxQuadratureDepth
  | maxSeriesTerms
  | maxInputLength
  | immutable
deriving DecidableEq, Repr

namespace Setting

def all : List Setting :=
  [timeoutMs, precision, outputPrecision, integrationDepth, laplaceIntegrationDepth,
    simplifyMaxPasses, numericFallback, maxNewtonIterations, maxBisectionIterations,
    newtonEpsilon, bisectionEpsilon, rootTolerance, solveRadius, solveStep, rootsPerSide,
    maxDenominator, maxRationalRootCandidates, quadratureTolerance, maxQuadratureDepth,
    maxSeriesTerms, maxInputLength, immutable]

def name : Setting → String
  | timeoutMs => "timeout_ms"
  | precision => "precision"
  | outputPrecision => "output_precision"
  | integrationDepth => "integration_depth"
  | laplaceIntegrationDepth => "laplace_integration_depth"
  | simplifyMaxPasses => "simplify_max_passes"
  | numericFallback => "numeric_fallback"
  | maxNewtonIterations => "max_newton_iterations"
  | maxBisectionIterations => "max_bisection_iterations"
  | newtonEpsilon => "newton_epsilon"
  | bisectionEpsilon => "bisection_epsilon"
  | rootTolerance => "root_tolerance"
  | solveRadius => "solve_radius"
  | solveStep => "solve_step"
  | rootsPerSide => "roots_per_side"
  | maxDenominator => "max_denominator"
  | maxRationalRootCandidates => "max_rational_root_candidates"
  | quadratureTolerance => "quadrature_tolerance"
  | maxQuadratureDepth => "max_quadrature_depth"
  | maxSeriesTerms => "max_series_terms"
  | maxInputLength => "max_input_length"
  | immutable => "immutable"

def default : Setting → Datum
  | timeoutMs => .whole 2000
  | precision => .whole 21
  | outputPrecision => .whole 15
  | integrationDepth => .whole 10
  | laplaceIntegrationDepth => .whole 40
  | simplifyMaxPasses => .whole 8
  | numericFallback => .flag true
  | maxNewtonIterations => .whole 200
  | maxBisectionIterations => .whole 2000
  | newtonEpsilon => .real 1e-14
  | bisectionEpsilon => .real 1e-12
  | rootTolerance => .real 1e-9
  | solveRadius => .real 100
  | solveStep => .real 0.1
  | rootsPerSide => .whole 10
  | maxDenominator => .whole 1000000000000
  | maxRationalRootCandidates => .whole 5000
  | quadratureTolerance => .real 1e-12
  | maxQuadratureDepth => .whole 40
  | maxSeriesTerms => .whole 1000000000
  | maxInputLength => .whole 10000
  | immutable => .flag true

def ofName (name : String) : Except Fault Setting :=
  match all.find? (·.name == name) with
  | some setting => .ok setting
  | none => .error (.unknownSetting name)

end Setting

structure Settings where
  get : Setting → Datum

namespace Settings

def initial : Settings := ⟨Setting.default⟩

def set (settings : Settings) (setting : Setting) (value : Datum) : Settings :=
  ⟨fun other => if other = setting then value else settings.get other⟩

def chosen (settings : Settings) (setting : Setting) : Bool := (settings.get setting).isTrue

def lookup (settings : Settings) (name : String) : Except Fault Datum := do
  return settings.get (← Setting.ofName name)

def assign (settings : Settings) (name : String) (value : Datum) :
    Except Fault Settings := do
  return settings.set (← Setting.ofName name) value

/-- Changes settings one after another; an unknown name refuses them all. -/
def assignAll (settings : Settings) (values : List (String × Datum)) :
    Except Fault Settings :=
  values.foldlM (fun settings (name, value) => settings.assign name value) settings

end Settings
end ExactAlgebra
