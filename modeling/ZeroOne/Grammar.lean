import ZeroOne.Tree

/-! The grammar: three operators, each left associative, and groups that are not empty. -/
namespace ZeroOne.Grammar

/-- The strength of a literal or a group, which binds tighter than all operators. -/
abbrev atomic : Nat := 3

/-- The words of four levels that have a tree; an operand on the right is a level tighter than its
operator. -/
inductive Derives : Nat → List Terminal → Tree → Prop
  | literal (l : Literal) : Derives atomic [.lit l] (.ofLiteral l)
  | group {w : List Terminal} {t : Tree} :
    Derives 0 w t → Derives atomic (.lparen :: w ++ [.rparen]) t
  | or {v w : List Terminal} {l r : Tree} :
    Derives 0 v l → Derives 1 w r → Derives 0 (v ++ .op .or :: w) (.or l r)
  | add {v w : List Terminal} {l r : Tree} :
    Derives 1 v l → Derives 2 w r → Derives 1 (v ++ .op .add :: w) (.add l r)
  | mul {v w : List Terminal} {l r : Tree} :
    Derives 2 v l → Derives atomic w r → Derives 2 (v ++ .op .mul :: w) (.mul l r)
  | looser {p : Nat} {w : List Terminal} {t : Tree} : Derives (p + 1) w t → Derives p w t

def Grammatical (w : List Terminal) : Prop := ∃ t, Derives 0 w t

inductive Nonterminal
  | start
  | disjunction
  | sum
  | product
  | atom
  deriving DecidableEq, Repr

inductive Part
  | terminal (t : Terminal)
  | nonterminal (n : Nonterminal)
  deriving DecidableEq, Repr

/-- The rules of the grammar, as a parsing engine is given them. -/
def rules : Nonterminal → List (List Part)
  | .start => [[.nonterminal .disjunction]]
  | .disjunction =>
    [[.nonterminal .disjunction, .terminal (.op .or), .nonterminal .sum], [.nonterminal .sum]]
  | .sum =>
    [[.nonterminal .sum, .terminal (.op .add), .nonterminal .product], [.nonterminal .product]]
  | .product =>
    [[.nonterminal .product, .terminal (.op .mul), .nonterminal .atom], [.nonterminal .atom]]
  | .atom =>
    [[.terminal (.lit .zero)], [.terminal (.lit .one)], [.terminal (.lit .yes)],
      [.terminal (.lit .no)],
      [.terminal .lparen, .nonterminal .disjunction, .terminal .rparen]]

end ZeroOne.Grammar
