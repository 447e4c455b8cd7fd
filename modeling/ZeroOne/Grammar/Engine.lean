import ZeroOne.Grammar
import ZeroOne.Grammar.Cursor
import ZeroOne.Text.Quoted

/-! Parsing a text by the grammar. An engine returns the parse tree, handlers turn it into an expression,
and what goes wrong is an error of this library or escapes. -/
namespace ZeroOne.Grammar

/-- The algorithms of an engine; `lalr` tries only the terminals that can come next, and `cyk`
splits the whole text first. -/
inductive Method
  | earley
  | lalr
  | cyk
  deriving DecidableEq, Repr

namespace Method

def name : Method → String
  | .earley => "earley"
  | .lalr => "lalr"
  | .cyk => "cyk"

def ofName? (s : String) : Option Method := [earley, lalr, cyk].find? (·.name == s)

end Method

/-- The causes of failure; no token stands for the end of the text. -/
inductive Failure
  | characters (place : Place) (expected : Option (List Terminal))
  | token (place : Place) (found : Option Terminal)
  | endOfText (expected : List Terminal)
  | ungrammatical
  | unknownMethod (name : String)
  deriving DecidableEq, Repr

namespace Failure

/-- The place of a failure, if it is reported with one. The end of the text counts as no place. -/
def place? : Failure → Option Place
  | .characters p _ => some p
  | .token p _ => some p
  | .endOfText _ => some .nowhere
  | .ungrammatical | .unknownMethod _ => none

/-- Input that does not fit in can be characters, a token or the end of the text. -/
def isUnexpectedInput : Failure → Bool
  | .characters _ _ | .token _ _ | .endOfText _ => true
  | .ungrammatical | .unknownMethod _ => false

def message? : Failure → Option String
  | .ungrammatical => some "Parsing failed."
  | .unknownMethod name =>
    some ("Got " ++ Text.quoted name ++ ", expected one of ('earley', 'lalr', 'cyk', None)")
  | _ => none

end Failure

/-- The nodes of a parse tree are the literals and the operations; all other rules only pass on. -/
inductive ParseTree
  | literal (l : Literal)
  | operation (o : Operator) (left right : ParseTree)
  deriving DecidableEq, Repr

/-- What to do at a literal, and at an operation whose operands are done. -/
structure Handlers where
  literal : Literal → Tree
  operation : Operator → Tree → Tree → Tree

def handlers : Handlers := ⟨Tree.ofLiteral, fun o => .binary (.op o)⟩

namespace ParseTree

def fold (h : Handlers) : ParseTree → Tree
  | .literal l => h.literal l
  | .operation o l r => h.operation o (l.fold h) (r.fold h)

def expression : ParseTree → Tree
  | .literal l => .ofLiteral l
  | .operation o l r => .binary (.op o) l.expression r.expression

theorem fold_handlers (q : ParseTree) : q.fold handlers = q.expression := by
  induction q with
  | literal l => rfl
  | operation o l r ihl ihr =>
    rw [fold, ihl, ihr]
    rfl

end ParseTree

/-- What an engine stops with: a failure that it reports, or the end of its stack. -/
inductive EngineError
  | failed (e : Failure)
  | exhausted
  deriving DecidableEq, Repr

structure Engine where
  parse : Method → Text → Except EngineError ParseTree
  transform : Handlers → ParseTree → Except EngineError Tree

/-- An error of this library carries the offset of the failure that caused it. All other errors of the
engine escape as they are. -/
inductive Error
  | rejected (pos : Option Int) (cause : Failure)
  | escaped (e : EngineError)
  deriving DecidableEq, Repr

/-- Only unexpected input in a parse is made an error of this library. -/
def Error.ofEngine : EngineError → Error
  | .failed e =>
    if e.isUnexpectedInput then .rejected (e.place?.map Place.pos) e else .escaped (.failed e)
  | .exhausted => .escaped .exhausted

namespace Engine

/-- Parses a text and builds its expression; what goes wrong in the handlers escapes as it is. -/
def read (E : Engine) (m : Method) (text : Text) : Except Error Tree :=
  match E.parse m text with
  | .ok q => (E.transform handlers q).mapError .escaped
  | .error e => .error (.ofEngine e)

/-- Parses by the method of a name; there is no engine for other names. -/
def readNamed (E : Engine) (name : String) (text : Text) : Except Error Tree :=
  match Method.ofName? name with
  | some m => E.read m text
  | none => .error (.escaped (.failed (.unknownMethod name)))

end Engine
end ZeroOne.Grammar
