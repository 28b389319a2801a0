import ExactAlgebra.Reader.Normalization
import ExactAlgebra.Reader.Program
import ExactAlgebra.Text.Letter

/-! A session: settings, the tables that reading depends on, the values of names, and who watches
which operation. -/
namespace ExactAlgebra
open Reader

/-- All that an answer can depend on. -/
structure Session where
  settings : Settings
  operators : OperatorTable
  brackets : List (String × String)
  preprocessors : List (String × Preprocessor)
  /-- The watchers of each operation, in the order in which they came. -/
  watchers : List (String × List String)
  functions : FunctionTable
  constants : List (String × Value)
  bindings : List (String × Value)
  clock : Deadline.Clock
  rootFinder : Numeric.RootFinder

namespace Session

/-- A fresh session with given settings. What comes from outside is not there yet: the clock stands
still, and no numeric root is found. -/
def withSettings (settings : Settings) : Session where
  settings := settings
  operators := Operator.initial
  brackets := [("(", ")"), ("[", "]")]
  preprocessors := Preprocessor.initial
  watchers := []
  functions := Builtin.functions
  constants := ["pi", "e", "i"].map fun name => (name, .expr (.bare name))
  bindings := []
  clock := .still
  rootFinder := fun _ => []

def initial : Session := withSettings .initial

/-- Symbols of operators, each once, the longest first. -/
def lexicon (session : Session) : Lexicon where
  brackets := session.brackets
  symbols :=
    ((session.operators.map (·.1.1)).eraseDups).mergeSort fun a b => decide (b.length ≤ a.length)

def grammar (session : Session) : Grammar where
  operators := session.operators
  isFunction name := (session.functions.lookup name).isSome

def scope (session : Session) : Scope where
  settings := session.settings
  guard := .idle
  clock := session.clock
  functions := session.functions
  rootFinder := session.rootFinder

def preprocess (session : Session) (text : String) : Except Fault String :=
  normalize session.settings session.preprocessors text

def tokenize (session : Session) (text : String) : Except Fault (List Token) :=
  session.lexicon.tokenize text

def compile (session : Session) (text : String) : Except Fault Program := do
  session.grammar.program (← session.tokenize (← session.preprocess text))

end Session
end ExactAlgebra
