import ZeroOne.Parser.Stack
import ZeroOne.Token.Lexer

/-! Parsing from any source of tokens, which are read one at a time and only as far as needed. -/
namespace ZeroOne

inductive SyntaxError
  | lexical (e : LexError)
  | structural (e : ParseError)
  deriving DecidableEq, Repr

namespace SyntaxError

def pos : SyntaxError → Int
  | .lexical e => e.pos
  | .structural e => e.pos

def message : SyntaxError → String
  | .lexical e => e.message
  | .structural e => e.message

end SyntaxError

namespace Stacks

variable {σ : Type} [TokenSource σ]

/-- Reads tokens onto the stacks until the input ends or one of them is in error. -/
def read (order : OperandOrder) (s : Stacks) (source : σ) : Traced SyntaxError Tree × σ :=
  match _h : TokenSource.next source with
  | (⟨es, .error e⟩, source') => (⟨es, .error (.lexical e)⟩, source')
  | (⟨es, .ok ⟨.eof, _⟩⟩, source') =>
    let answer := s.finish order (TokenSource.position source')
    ((answer.mapError .structural).after es, source')
  | (⟨es, .ok ⟨.terminal t, pos⟩⟩, source') =>
    match s.place order t pos with
    | ⟨fs, .error e⟩ => (⟨es ++ fs, .error (.structural e)⟩, source')
    | ⟨fs, .ok s'⟩ =>
      let (answer, last) := read order s' source'
      (answer.after (es ++ fs), last)
termination_by TokenSource.remaining source
decreasing_by exact TokenSource.remaining_next _h

end Stacks

/-- One expression from a source, and what is left of the source, also after a failure. -/
def parseFrom {σ : Type} [TokenSource σ] (order : OperandOrder) (source : σ) :
    Traced SyntaxError Tree × σ :=
  Stacks.start.read order source

def parse (order : OperandOrder) (t : Text) : Traced SyntaxError Tree :=
  (parseFrom order (Lexer.ofText t)).1

end ZeroOne
