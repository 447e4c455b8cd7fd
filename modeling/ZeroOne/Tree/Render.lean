import ZeroOne.Tree.Fault
import ZeroOne.Text.Quoted

/-! The two written forms of a tree: fully parenthesised source, and nested constructors. -/
namespace ZeroOne

/-- The source form of a foreign item, but for a bare node, whose form would be an address and which
shows as its constructor. -/
def Foreign.render : Foreign → String
  | .node => "Node()"
  | .text s => s
  | .int n => n.repr
  | .none => "None"
  | .result v => v.render

/-- The digits of a number, without its sign, are not too many to write it. -/
def Fits (n : Int) : Prop := (Nat.toDigits 10 n.natAbs).length ≤ digitLimit

instance (n : Int) : Decidable (Fits n) := inferInstanceAs (Decidable (_ ≤ _))

def writeInt (n : Int) : Except Fault String := if Fits n then .ok n.repr else .error .tooManyDigits

def Value.write : Value → Except Fault String
  | .int n => writeInt n
  | .bool b => .ok (Value.bool b).render

def Foreign.write : Foreign → Except Fault String
  | .int n => writeInt n
  | .result v => v.write
  | f => .ok f.render

namespace Tree

/-- The fully parenthesised source form of a tree, with numbers of any length. -/
def render : Tree → String
  | .number n => n.repr
  | .bool b => if b then "true" else "false"
  | .binary s l r => "(" ++ l.render ++ " " ++ s.spelling ++ " " ++ r.render ++ ")"
  | .foreign f => f.render

inductive Piece
  | text (s : String)
  | tree (t : Tree)

/-- Opening a composite makes five pieces of one, so its items weigh more than what they open to. -/
def Piece.weight : Piece → Nat
  | .text _ => 1
  | .tree t => 5 * t.size

def Piece.load : List Piece → Nat
  | [] => 0
  | p :: ps => p.weight + load ps

/-- Prints the pieces in turn behind what is out already, up to a number that cannot be written; a
composite opens into five pieces. -/
def printFrom (out : String) : List Piece → Except Fault String
  | [] => .ok out
  | .text s :: rest => printFrom (out ++ s) rest
  | .tree (.binary s l r) :: rest =>
    printFrom out
      (.text "(" :: .tree l :: .text (" " ++ s.spelling ++ " ") :: .tree r :: .text ")" :: rest)
  | .tree (.bool b) :: rest => printFrom (out ++ if b then "true" else "false") rest
  | .tree (.number n) :: rest =>
    match writeInt n with
    | .ok s => printFrom (out ++ s) rest
    | .error e => .error e
  | .tree (.foreign f) :: rest =>
    match f.write with
    | .ok s => printFrom (out ++ s) rest
    | .error e => .error e
termination_by pieces => Piece.load pieces
decreasing_by all_goals simp only [Piece.load, Piece.weight, size]; omega

def print (t : Tree) : Except Fault String := printFrom "" [.tree t]

def Writable : Tree → Prop
  | .binary _ l r => l.Writable ∧ r.Writable
  | .number n | .foreign (.int n) | .foreign (.result (.int n)) => Fits n
  | _ => True

variable {t : Tree}

theorem printFrom_of_writable (h : t.Writable) (out : String) (rest : List Piece) :
    printFrom out (.tree t :: rest) = printFrom (out ++ t.render) rest := by
  induction t generalizing out rest with
  | number n =>
    have hw : writeInt n = .ok n.repr := if_pos h
    rw [printFrom, hw, render]
  | bool b => rw [printFrom, render]
  | foreign f =>
    have hw : f.write = .ok f.render := by
      rcases f with _ | s | n | _ | n | b
      case int | result.int => exact if_pos h
      all_goals rfl
    rw [printFrom, hw, render]
  | binary s l r ihl ihr =>
    rw [printFrom, printFrom, ihl h.1, printFrom, ihr h.2, printFrom, render]
    simp only [String.append_assoc]

theorem printFrom_of_not_writable (h : ¬ t.Writable) (out : String) (rest : List Piece) :
    printFrom out (.tree t :: rest) = .error .tooManyDigits := by
  induction t generalizing out rest with
  | number n =>
    have hw : writeInt n = .error .tooManyDigits := if_neg h
    rw [printFrom, hw]
  | bool b => exact absurd trivial h
  | foreign f =>
    have hw : f.write = .error .tooManyDigits := by
      rcases f with _ | s | n | _ | n | b
      case int | result.int => exact if_neg h
      all_goals exact absurd trivial h
    rw [printFrom, hw]
  | binary s l r ihl ihr =>
    rw [printFrom, printFrom]
    by_cases hl : l.Writable
    · have hr : ¬ r.Writable := fun hr => h ⟨hl, hr⟩
      rw [printFrom_of_writable hl, printFrom, ihr hr]
    · exact ihl hl _ _

/-- Printing gives the source form of a tree that can be written. -/
theorem print_of_writable (h : t.Writable) : t.print = .ok t.render := by
  rw [print, printFrom_of_writable h, printFrom, String.empty_append]

theorem print_of_not_writable (h : ¬ t.Writable) : t.print = .error .tooManyDigits :=
  printFrom_of_not_writable h "" []

theorem print_eq_ok_iff {s : String} : t.print = .ok s ↔ t.Writable ∧ s = t.render := by
  by_cases h : t.Writable
  · simp [print_of_writable h, h, eq_comm]
  · simp [print_of_not_writable h, h]

theorem writable_ofLiteral (l : Literal) : (ofLiteral l).Writable := by
  have hzero : Fits 0 := by decide
  have hone : Fits 1 := by decide
  cases l with
  | zero => exact hzero
  | one => exact hone
  | yes | no => trivial

end Tree

private def describeBool (b : Bool) : String := if b then "True" else "False"

def Value.describe : Value → String
  | .int n => "IntResult(value=" ++ n.repr ++ ")"
  | .bool b => "BoolResult(value=" ++ describeBool b ++ ")"

/-- The constructor form of a foreign item, with quotation marks around a text. -/
def Foreign.describe : Foreign → String
  | .node => "Node()"
  | .text s => Text.quoted s
  | .int n => n.repr
  | .none => "None"
  | .result v => v.describe

/-- The constructor form of a tree, with the names of all types and fields, and with numbers of any
length. -/
def Tree.describe : Tree → String
  | .number n => "Number(value=" ++ n.repr ++ ")"
  | .bool b => "Bool(value=" ++ describeBool b ++ ")"
  | .binary s l r =>
    s.typeName ++ "(left=" ++ l.describe ++ ", right=" ++ r.describe ++ ")"
  | .foreign f => f.describe

end ZeroOne
