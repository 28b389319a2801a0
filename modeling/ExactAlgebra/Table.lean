/-! Tables in the order in which their keys came in. -/
namespace ExactAlgebra.Table

/-- Sets the value of a key; a new value for a known key keeps the place. -/
def insert [BEq κ] (key : κ) (value : α) : List (κ × α) → List (κ × α)
  | [] => [(key, value)]
  | (k, v) :: rest => if k == key then (k, value) :: rest else (k, v) :: insert key value rest

def erase [BEq κ] (key : κ) (table : List (κ × α)) : List (κ × α) :=
  table.filter fun entry => !(entry.1 == key)

end ExactAlgebra.Table
