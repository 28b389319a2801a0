import ExactAlgebra.Algebra.Factor
import ExactAlgebra.Engine.Substitution
import ExactAlgebra.Rational.Literal

/-! Simplification: expansion, cancelling and the Pythagorean rule are tried in turn, and the
shortest form is kept as long as it gets shorter. -/
namespace ExactAlgebra.Expr
open Engine

def cancel (e : Expr) : Engine Expr := do
  let (numerator, denominator) ← e.together
  if denominator.isOne then return numerator
  else
    match sortNames (numerator.freeNames ++ denominator.freeNames) with
    | [x] =>
      let n ← numerator.poly? x
      let d ← (← denominator.expand).poly? x
      match n, d with
      | some n, some d =>
        if d.isZero then div numerator denominator
        else
          let common ← n.commonDivisor d
          if 0 < common.degree then
            let n ← n.quotient common
            let d ← d.quotient common
            div (← n.toExpr x) (← (← d.toExpr x).factorTree)
          else div numerator denominator
      | _, _ => div numerator denominator
    | _ => div numerator denominator

/-- A squared sine or cosine: function, argument and coefficient. -/
structure TrigSquare where
  isSine : Bool
  argument : String
  coeff : Rat
deriving BEq

def trigSquare? : Expr → Option TrigSquare
  | call c name (u :: _) p =>
    if p = 2 && (name == "sin" || name == "cos") then some ⟨name == "sin", u.text, c⟩ else none
  | _ => none

/-- Puts `c` for `c * sin(u)^2 + c * cos(u)^2`. -/
def pythagorean (e : Expr) : Except Fault Expr := do
  if !e.isPlainSum then return e
  let terms := e.spreadTerms
  let squares := terms.filterMap trigSquare?
  if squares.any fun s => !Rational.isWritable s.coeff then throw .unsupported
  let paired := squares.filter fun s => s.isSine && squares.contains { s with isSine := false }
  if paired.isEmpty then return e
  let isUsed (t : Expr) : Bool :=
    match trigSquare? t with
    | some s => paired.contains { s with isSine := true }
    | none => false
  let constants ← paired.mapM fun s => do return number (← Rational.ofText (Rational.text s.coeff))
  addAll (← addAll zero constants) (terms.filter (!isUsed ·))

/-- The form with the shorter text, or the lesser one of two equally short texts. -/
def shorter (a b : Expr × String) : Expr × String :=
  if b.2.length < a.2.length || (b.2.length == a.2.length && decide (b.2 < a.2)) then b else a

def simplifyPasses : Nat → Expr → Engine Expr
  | 0, e => return e
  | n + 1, e => do
    poll
    let expanded ← e.expand
    let reduced ← e.pythagorean
    let cancelled ← e.cancel
    let text ← e.render
    let best ← [expanded, reduced, cancelled].foldlM (fun best c => do
      return shorter best (c, ← c.render)) (e, text)
    if best.2 == text then return e else simplifyPasses n best.1

def simplify (e : Expr) : Engine Expr := guarded do
  let start ← e.canonicalize
  let passes ← count .simplifyMaxPasses
  simplifyPasses passes.toNat start

end ExactAlgebra.Expr
