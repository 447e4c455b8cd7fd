/-! The vocabulary: literals, operators and parentheses, and the tokens that carry them. -/
namespace ZeroOne

inductive Literal
  | zero
  | one
  | yes
  | no
  deriving DecidableEq, Repr

inductive Operator
  | add
  | mul
  | or
  deriving DecidableEq, Repr

/-- An operator of higher precedence binds tighter. -/
def Operator.precedence : Operator → Nat
  | .mul => 2
  | .add => 1
  | .or => 0

inductive Terminal
  | lit (l : Literal)
  | op (o : Operator)
  | lparen
  | rparen
  deriving DecidableEq, Repr

namespace Terminal

def all : List Terminal :=
  [.lparen, .rparen, .op .mul, .op .add, .lit .zero, .lit .one, .lit .no, .lit .yes, .op .or]

def letters : Terminal → List Char
  | .lit .zero => ['0']
  | .lit .one => ['1']
  | .lit .yes => ['t', 'r', 'u', 'e']
  | .lit .no => ['f', 'a', 'l', 's', 'e']
  | .op .add => ['+']
  | .op .mul => ['*']
  | .op .or => ['|', '|']
  | .lparen => ['(']
  | .rparen => [')']

def spelling (t : Terminal) : String := .ofList t.letters

def bytes (t : Terminal) : List UInt8 := t.letters.map fun c => .ofNat c.toNat

def name : Terminal → String
  | .lit .zero => "ZERO"
  | .lit .one => "ONE"
  | .lit .yes => "TRUE"
  | .lit .no => "FALSE"
  | .op .add => "ADD"
  | .op .mul => "MULTIPLY"
  | .op .or => "OR"
  | .lparen => "LPAREN"
  | .rparen => "RPAREN"

end Terminal

/-- What a token can be: a terminal or the end of the input. -/
inductive Kind
  | terminal (t : Terminal)
  | eof
  deriving DecidableEq, Repr

namespace Kind

def all : List Kind := Terminal.all.map .terminal ++ [.eof]

def name : Kind → String
  | .terminal t => t.name
  | .eof => "EOF"

def ofName? (s : String) : Option Kind := all.find? (·.name == s)

/-- A terminal shows as it is spelled; the end of the input has no spelling and shows its name. -/
def spelling : Kind → String
  | .terminal t => t.spelling
  | .eof => "EOF"

def precedence? : Kind → Option Nat
  | .terminal (.op o) => some o.precedence
  | _ => none

end Kind

structure Token where
  kind : Kind
  pos : Int
  deriving DecidableEq, Repr

namespace Token

def spelling (t : Token) : String := t.kind.spelling

def describe (t : Token) : String := "Token(" ++ t.kind.name ++ ", pos=" ++ t.pos.repr ++ ")"

def isOperator (t : Token) : Bool := t.kind.precedence?.isSome

/-- Tokens are alike if their kinds are equal, wherever they stand. -/
def alike (a b : Token) : Bool := a.kind = b.kind

/-- A token is never alike to a text, not even to its own spelling. -/
def alikeText (_ : Token) (_ : String) : Bool := false

def distinct : List Token → List Token
  | [] => []
  | t :: ts => t :: (distinct ts).filter fun u => !t.alike u

end Token
end ZeroOne
