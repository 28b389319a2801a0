/-! Sets of characters given by closed intervals of code points. -/
namespace ExactAlgebra.Text

abbrev Ranges := List (Nat × Nat)

def Ranges.find? (ranges : Ranges) (c : Char) : Option (Nat × Nat) :=
  List.find? (fun r => decide (r.1 ≤ c.toNat) && decide (c.toNat ≤ r.2)) ranges

def Ranges.holds (ranges : Ranges) (c : Char) : Bool :=
  (Ranges.find? ranges c).isSome

end ExactAlgebra.Text
