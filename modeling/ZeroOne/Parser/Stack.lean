import ZeroOne.Trace

/-! The two stacks of the parser: operators and open groups that wait, and the trees built so far. Only a
reduction sees that operands are missing. -/
namespace ZeroOne

/-- Which way round a sum or product holds its operands; a disjunction always holds them as
written. -/
inductive OperandOrder
  | written
  | swapped
  deriving DecidableEq, Repr

def OperandOrder.combine (order : OperandOrder) (o : Operator) (left right : Tree) : Tree :=
  match order, o with
  | .swapped, .add => .add right left
  | .swapped, .mul => .mul right left
  | _, _ => .binary (.op o) left right

/-- The causes of failure of the parser, with the offset of the token concerned or of the end. -/
inductive ParseError
  | missingOperand (o : Operator) (pos : Int)
  | unmatched (pos : Int)
  | unclosed (pos : Int)
  | empty (pos : Int)
  | several (trees : List Tree) (pos : Int)
  deriving DecidableEq, Repr

namespace ParseError

def pos : ParseError → Int
  | .missingOperand _ p | .unmatched p | .unclosed p | .empty p | .several _ p => p

/-- The token that an error is about; the last two kinds are about the whole input. -/
def token? : ParseError → Option Token
  | .missingOperand o p => some ⟨.terminal (.op o), p⟩
  | .unmatched p => some ⟨.terminal .rparen, p⟩
  | .unclosed p => some ⟨.terminal .lparen, p⟩
  | .empty _ | .several _ _ => none

def message : ParseError → String
  | .missingOperand o p =>
    "Operator '" ++ o.spelling ++ "' at position " ++ p.repr ++ " is missing an operand"
  | .unmatched p => "Unmatched ')' at position " ++ p.repr
  | .unclosed p => "Unclosed '(' at position " ++ p.repr
  | .empty _ => "Expression is empty"
  | .several ts _ =>
    "Expected a single expression, found " ++ ts.length.repr ++
      " (" ++ ", ".intercalate (ts.map Tree.render) ++ ")"

end ParseError

inductive Pending
  | operator (o : Operator) (pos : Int)
  | group (pos : Int)
  deriving DecidableEq, Repr

/-- The two stacks, topmost first. -/
structure Stacks where
  pending : List Pending
  operands : List Tree
  deriving DecidableEq, Repr

namespace Stacks

def start : Stacks := ⟨[], []⟩

/-- Replaces the two topmost operands by their composite; the topmost one is the right operand. -/
def reduce (order : OperandOrder) (o : Operator) (pos : Int) :
    List Tree → Traced ParseError (List Tree)
  | right :: left :: rest =>
    let t := order.combine o left right
    ⟨[.reduce o t], .ok (t :: rest)⟩
  | _ => .fail (.missingOperand o pos)

/-- Reduces the topmost operators as long as they are due; an open group stops it. -/
def reduceWhile (order : OperandOrder) (due : Operator → Bool) :
    List Pending → List Tree → Traced ParseError Stacks
  | .operator o pos :: pending, operands =>
    if due o then do
      let operands ← reduce order o pos operands
      reduceWhile order due pending operands
    else pure ⟨.operator o pos :: pending, operands⟩
  | pending, operands => pure ⟨pending, operands⟩

/-- Takes in one terminal. An operator first reduces what binds at least as tight; a closing
parenthesis reduces all of its group. -/
def place (order : OperandOrder) (s : Stacks) (t : Terminal) (pos : Int) :
    Traced ParseError Stacks :=
  match t with
  | .lit l => pure { s with operands := .ofLiteral l :: s.operands }
  | .lparen => pure { s with pending := .group pos :: s.pending }
  | .op o => do
    let s ← reduceWhile order (fun top => o.precedence ≤ top.precedence) s.pending s.operands
    pure { s with pending := .operator o pos :: s.pending }
  | .rparen => do
    let s ← reduceWhile order (fun _ => true) s.pending s.operands
    match s.pending with
    | .group _ :: pending => pure { s with pending := pending }
    | _ => .fail (.unmatched pos)

/-- Reduces all that waits at the end of the input, which must leave a single tree. -/
def finish (order : OperandOrder) (s : Stacks) (pos : Int) : Traced ParseError Tree := do
  let s ← reduceWhile order (fun _ => true) s.pending s.operands
  match s.pending, s.operands with
  | .group p :: _, _ => .fail (.unclosed p)
  | _, [] => .fail (.empty pos)
  | _, [t] => pure t
  | _, ts => .fail (.several ts.reverse pos)

end Stacks
end ZeroOne
