import ZeroOne.Tree

/-! What goes wrong when an operation meets an item it has no rule for, or a number it cannot write. -/
namespace ZeroOne

/-- The causes of failure of the tree operations, with the item that was met. -/
inductive Fault
  | noValue (item : Tree)
  | cannotSimplify (item : Tree)
  | unknownNode (item : Tree)
  | tooManyDigits
  | emptyStack
  deriving DecidableEq, Repr

/-- A number of more decimal digits than this has no written form. -/
def digitLimit : Nat := 4300

def Fault.message : Fault → String
  | .noValue t => "'" ++ t.typeName ++ "' object has no attribute 'value'"
  | .cannotSimplify t => "Cannot simplify " ++ t.typeName
  | .unknownNode t => "Unknown node type: " ++ t.typeName
  | .tooManyDigits =>
    "Exceeds the limit (" ++ digitLimit.repr ++ " digits) for integer string conversion; " ++
      "use sys.set_int_max_str_digits() to increase the limit"
  | .emptyStack => "No result is left"

end ZeroOne
