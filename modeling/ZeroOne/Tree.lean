import ZeroOne.Token

/-! Expression trees, the items that can stand in them by mistake, and the values they denote. -/
namespace ZeroOne

inductive Value
  | int (n : Int)
  | bool (b : Bool)
  deriving DecidableEq, Repr

/-- What heads a composite: an operator, or nothing in particular. -/
inductive Symbol
  | op (o : Operator)
  | unspecified
  deriving DecidableEq, Repr

/-- Items without children that no operation builds: a node of no particular kind, and things that
are no nodes at all. -/
inductive Foreign
  | node
  | text (s : String)
  | int (n : Int)
  | none
  | result (v : Value)
  deriving DecidableEq, Repr

inductive Tree
  | number (n : Int)
  | bool (b : Bool)
  | binary (s : Symbol) (left right : Tree)
  | foreign (f : Foreign)
  deriving DecidableEq, Repr

namespace Value

def render : Value → String
  | .int n => n.repr
  | .bool b => if b then "true" else "false"

def typeName : Value → String
  | .int _ => "IntResult"
  | .bool _ => "BoolResult"

end Value

def Operator.spelling (o : Operator) : String := (Terminal.op o).spelling

namespace Symbol

/-- The text between the operands of a composite. -/
def spelling : Symbol → String
  | .op o => o.spelling
  | .unspecified => "?"

def typeName : Symbol → String
  | .op .add => "Add"
  | .op .mul => "Multiply"
  | .op .or => "Or"
  | .unspecified => "BinaryNode"

end Symbol

namespace Foreign

def isNode : Foreign → Bool
  | .node => true
  | _ => false

def typeName : Foreign → String
  | .node => "Node"
  | .text _ => "str"
  | .int _ => "int"
  | .none => "NoneType"
  | .result v => v.typeName

end Foreign

namespace Tree

abbrev add (l r : Tree) : Tree := .binary (.op .add) l r

abbrev mul (l r : Tree) : Tree := .binary (.op .mul) l r

abbrev or (l r : Tree) : Tree := .binary (.op .or) l r

abbrev zero : Tree := .number 0

abbrev bare : Tree := .foreign .node

def ofLiteral : Literal → Tree
  | .zero => .number 0
  | .one => .number 1
  | .yes => .bool true
  | .no => .bool false

def typeName : Tree → String
  | .number _ => "Number"
  | .bool _ => "Bool"
  | .binary s _ _ => s.typeName
  | .foreign f => f.typeName

def size : Tree → Nat
  | .binary _ l r => l.size + r.size + 1
  | _ => 1

theorem size_pos (t : Tree) : 0 < t.size := by
  cases t <;> simp [size]

def isNode : Tree → Bool
  | .foreign f => f.isNode
  | _ => true

/-- A regular tree holds numbers, truth values and operators only. -/
def Regular : Tree → Prop
  | .binary (.op _) l r => l.Regular ∧ r.Regular
  | .binary .unspecified _ _ => False
  | .foreign _ => False
  | _ => True

@[elab_as_elim]
theorem Regular.induction {motive : (t : Tree) → t.Regular → Prop}
    (number : ∀ n, motive (.number n) trivial) (bool : ∀ b, motive (.bool b) trivial)
    (operation : ∀ o l r (hl : l.Regular) (hr : r.Regular), motive l hl → motive r hr →
      motive (.binary (.op o) l r) ⟨hl, hr⟩)
    (t : Tree) (h : t.Regular) : motive t h := by
  induction t with
  | number n => exact number n
  | bool b => exact bool b
  | foreign f => exact h.elim
  | binary s l r ihl ihr =>
    cases s with
    | unspecified => exact h.elim
    | op o => exact operation o l r h.1 h.2 (ihl h.1) (ihr h.2)

/-- A source tree is regular and its leaves are literals. -/
def Source : Tree → Prop
  | .binary (.op _) l r => l.Source ∧ r.Source
  | .binary .unspecified _ _ => False
  | t => ∃ l, t = .ofLiteral l

end Tree
end ZeroOne
