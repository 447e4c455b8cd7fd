import ZeroOne.Program

/-! Sessions: lexers, parsers, simplifiers and trees that are known by name and live on from command
to command. -/
namespace ZeroOne
namespace Session

/-- What a name stands for. A parser keeps its lexer, also when the lexer's name is given away. -/
inductive Binding
  | lexer (handle : Nat)
  | parser (handle : Nat) (order : OperandOrder)
  | simplifier (passes : Nat)
  | tree (t : Tree)
  deriving DecidableEq, Repr

inductive TreeRef
  | given (t : Tree)
  | named (name : String)
  deriving DecidableEq, Repr

/-- The commands of a session; a tree that results is stored if it is given a name. -/
inductive Command
  | lexer (id : String) (text : Text)
  | next (id : String)
  | rest (id : String)
  | take (id : String) (count : Nat)
  | parser (id lexer : String) (order : OperandOrder)
  | setOrder (id : String) (order : OperandOrder)
  | parse (id : String) (store : Option String)
  | simplifier (id : String)
  | simplify (id : String) (tree : TreeRef) (store : Option String)
  | fix (id : String) (tree : TreeRef) (store : Option String)
  | evaluate (tree : TreeRef)
  | equal (a b : TreeRef)
  | print (tree : TreeRef)
  deriving DecidableEq, Repr

/-- The answers to commands. The position of a lexer and the count of passes come also with a
failure. -/
inductive Answer
  | unbound (name : String)
  | position (position : Nat)
  | token (result : Except LexError Token) (position : Nat)
  | tokens (result : Except LexError (List Token)) (position : Nat)
  | order (order : OperandOrder)
  | parsed (result : Except SyntaxError Tree) (position : Nat)
  | passes (passes : Nat)
  | simplified (result : Except Fault Tree) (passes : Nat)
  | value (result : Except Fault (Option Value))
  | equal (result : Except Fault Bool)
  | text (result : Except Fault String)

end Session

/-- The lexers that were ever made, by handle, and the names, the latest first. -/
structure Session where
  lexers : List Lexer
  names : List (String × Session.Binding)
  deriving DecidableEq, Repr

namespace Session

def start : Session := ⟨[], []⟩

def bind (s : Session) (name : String) (b : Binding) : Session :=
  { s with names := (name, b) :: s.names }

def store {ε : Type} (s : Session) (name : Option String) (result : Except ε Tree) : Session :=
  match name, result with
  | some n, .ok t => s.bind n (.tree t)
  | _, _ => s

def lexer? (s : Session) (name : String) : Option (Nat × Lexer) :=
  match s.names.lookup name with
  | some (.lexer h) => s.lexers[h]?.map (h, ·)
  | _ => none

def parser? (s : Session) (name : String) : Option (Nat × Lexer × OperandOrder) :=
  match s.names.lookup name with
  | some (.parser h order) => s.lexers[h]?.map (h, ·, order)
  | _ => none

def passes? (s : Session) (name : String) : Option Nat :=
  match s.names.lookup name with
  | some (.simplifier n) => some n
  | _ => none

def tree (s : Session) : TreeRef → Except String Tree
  | .given t => .ok t
  | .named n =>
    match s.names.lookup n with
    | some (.tree t) => .ok t
    | _ => .error n

def update (s : Session) (handle : Nat) (lexer : Lexer) : Session :=
  { s with lexers := s.lexers.set handle lexer }

def reads {α : Type} (s : Session) (id : String) (read : Lexer → Traced LexError α × Lexer)
    (answer : Except LexError α → Nat → Answer) : (List Event × Answer) × Session :=
  match s.lexer? id with
  | none => (([], .unbound id), s)
  | some (h, lexer) =>
    let (traced, lexer) := read lexer
    ((traced.events, answer traced.result lexer.position), s.update h lexer)

/-- Carries out a command, with the events on the way. A name that is not known changes nothing. -/
def step (s : Session) : Command → (List Event × Answer) × Session
  | .lexer id text =>
    let lexers := s.lexers ++ [Lexer.ofText text]
    (([], .position 0), { s with lexers }.bind id (.lexer s.lexers.length))
  | .next id => s.reads id Lexer.next .token
  | .rest id => s.reads id Lexer.tokens .tokens
  | .take id count => s.reads id (Lexer.take count) .tokens
  | .parser id lexer order =>
    match s.lexer? lexer with
    | none => (([], .unbound lexer), s)
    | some (h, _) => (([], .order order), s.bind id (.parser h order))
  | .setOrder id order =>
    match s.parser? id with
    | none => (([], .unbound id), s)
    | some (h, _) => (([], .order order), s.bind id (.parser h order))
  | .parse id name =>
    match s.parser? id with
    | none => (([], .unbound id), s)
    | some (h, lexer, order) =>
      let (answer, lexer) := parseFrom order lexer
      ((answer.events, .parsed answer.result lexer.position),
        (s.update h lexer).store name answer.result)
  | .simplifier id => (([], .passes 0), s.bind id (.simplifier 0))
  | .simplify id ref name =>
    match s.passes? id, s.tree ref with
    | none, _ => (([], .unbound id), s)
    | _, .error n => (([], .unbound n), s)
    | some passes, .ok t => (([], .simplified t.simplify passes), s.store name t.simplify)
  | .fix id ref name =>
    match s.passes? id, s.tree ref with
    | none, _ => (([], .unbound id), s)
    | _, .error n => (([], .unbound n), s)
    | some _, .ok t =>
      let (answer, passes) := t.fix
      ((answer.events, .simplified answer.result passes),
        (s.bind id (.simplifier passes)).store name answer.result)
  | .evaluate ref =>
    match s.tree ref with
    | .error n => (([], .unbound n), s)
    | .ok t => (([], .value t.evaluate), s)
  | .equal a b =>
    match s.tree a, s.tree b with
    | .error n, _ => (([], .unbound n), s)
    | _, .error n => (([], .unbound n), s)
    | .ok t, .ok u => (([], .equal (t.same? u)), s)
  | .print ref =>
    match s.tree ref with
    | .error n => (([], .unbound n), s)
    | .ok t => (([], .text t.print), s)

def run (s : Session) : List Command → List (List Event × Answer)
  | [] => []
  | c :: cs =>
    let (answer, s) := s.step c
    answer :: run s cs

end Session
end ZeroOne
