import ZeroOne.Grammar

/-! Reading a word by the grammar, terminal by terminal. Between terminals either an operand or an
operator is due, so every reading knows which terminals it can go on with. -/
namespace ZeroOne.Grammar

/-- The left operands that wait in one group, for each operator at most one. -/
structure Frame where
  disjunct : Option Tree
  summand : Option Tree
  factor : Option Tree
  deriving DecidableEq, Repr

namespace Frame

def empty : Frame := ⟨none, none, none⟩

/-- The product that an operand ends; then the sum, and the disjunction, which is all of the group. -/
def product (f : Frame) (t : Tree) : Tree :=
  match f.factor with
  | some l => .mul l t
  | none => t

def sum (f : Frame) (t : Tree) : Tree :=
  match f.summand with
  | some l => .add l (f.product t)
  | none => f.product t

def disjunction (f : Frame) (t : Tree) : Tree :=
  match f.disjunct with
  | some l => .or l (f.sum t)
  | none => f.sum t

/-- Lets all that an operator is loose enough to end wait for its right operand. -/
def extend (f : Frame) (t : Tree) : Operator → Frame
  | .mul => { f with factor := some (f.product t) }
  | .add => { f with summand := some (f.sum t), factor := none }
  | .or => ⟨some (f.disjunction t), none, none⟩

end Frame

/-- What is due next, in the innermost group and the groups around it. -/
inductive Reading
  | operandDue (here : Frame) (outer : List Frame)
  | operatorDue (here : Frame) (operand : Tree) (outer : List Frame)
  deriving DecidableEq, Repr

namespace Reading

def start : Reading := .operandDue .empty []

/-- Goes on with a terminal, if one like it can come next. -/
def step? : Reading → Terminal → Option Reading
  | .operandDue here outer, .lit l => some (.operatorDue here (.ofLiteral l) outer)
  | .operandDue here outer, .lparen => some (.operandDue .empty (here :: outer))
  | .operatorDue here t outer, .op o => some (.operandDue (here.extend t o) outer)
  | .operatorDue here t (around :: outer), .rparen =>
    some (.operatorDue around (here.disjunction t) outer)
  | _, _ => none

def result? : Reading → Option Tree
  | .operatorDue here t [] => some (here.disjunction t)
  | _ => none

/-- The terminals that can come next, in the order of their spellings. -/
def acceptable (r : Reading) : List Terminal := Terminal.all.filter fun t => (r.step? t).isSome

def steps? (r : Reading) (w : List Terminal) : Option Reading := w.foldlM step? r

end Reading

def read? (w : List Terminal) : Option Tree := (Reading.start.steps? w).bind Reading.result?

end ZeroOne.Grammar
