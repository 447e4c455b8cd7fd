import ZeroOne.Grammar.Engine
import ZeroOne.Grammar.Reading

/-! A small engine for the grammar that reads a text once from left to right. Its methods find the same
tree and report failures as their names promise. -/
namespace ZeroOne.Grammar

/-- A reading of the text before a cursor, and the place of the last terminal in it or else the
start. -/
structure Progress where
  reading : Reading
  cursor : Cursor
  last : Place
  deriving DecidableEq, Repr

namespace Progress

def start (t : Text) : Progress := ⟨.start, .ofText t, .start⟩

/-- Goes on over blanks and terminals that can come next, as far as possible, and stops behind
blanks. -/
def run (p : Progress) : Progress :=
  let here := p.cursor.skip
  match _h : here.scan? p.reading.acceptable with
  | some (t, behind) =>
    match p.reading.step? t with
    | some reading => run ⟨reading, behind, here.place⟩
    | none => ⟨p.reading, here, p.last⟩
  | none => ⟨p.reading, here, p.last⟩
termination_by p.cursor.rest.length
decreasing_by
  exact Nat.lt_of_lt_of_le (Cursor.length_rest_take? (Cursor.take?_of_scan? _h).2)
    p.cursor.length_rest_skip

def failExpecting (p : Progress) : Failure :=
  if p.cursor.rest.isEmpty then .endOfText p.reading.acceptable
  else .characters p.cursor.place (some p.reading.acceptable)

def failFinding (p : Progress) : Failure :=
  if p.cursor.rest.isEmpty then .token p.last none
  else
    match p.cursor.scan? Terminal.all with
    | some (t, _) => .token p.cursor.place (some t)
    | none => .characters p.cursor.place none

/-- The tree of the whole text, if the reading can end where it stopped and nothing is left. -/
def result? (p : Progress) : Option Tree :=
  if p.cursor.rest.isEmpty then p.reading.result? else none

end Progress

/-- Splits the rest of a text into terminals; fails at the first place where none is spelled. -/
def split (c : Cursor) : Except Failure (List Terminal) :=
  let here := c.skip
  if here.rest.isEmpty then .ok []
  else
    match _h : here.scan? Terminal.all with
    | some (t, behind) => (split behind).map (t :: ·)
    | none => .error (.characters here.place none)
termination_by c.rest.length
decreasing_by
  exact Nat.lt_of_lt_of_le (Cursor.length_rest_take? (Cursor.take?_of_scan? _h).2)
    c.length_rest_skip

def parse (method : Method) (t : Text) : Except Failure Tree :=
  match method with
  | .earley =>
    let stop := (Progress.start t).run
    match stop.result? with
    | some tree => .ok tree
    | none => .error stop.failExpecting
  | .lalr =>
    let stop := (Progress.start t).run
    match stop.result? with
    | some tree => .ok tree
    | none => .error stop.failFinding
  | .cyk =>
    match split (.ofText t) with
    | .error e => .error e
    | .ok w =>
      match read? w with
      | some tree => .ok tree
      | none => .error .ungrammatical

/-- The parse tree of an expression, if it holds literals and operators only. -/
def ParseTree.ofTree? : Tree → Option ParseTree
  | .number 0 => some (.literal .zero)
  | .number 1 => some (.literal .one)
  | .bool true => some (.literal .yes)
  | .bool false => some (.literal .no)
  | .binary (.op o) l r => do return .operation o (← ofTree? l) (← ofTree? r)
  | _ => none

/-- The engine of these methods, which has all the room that it needs. -/
def reader : Engine where
  parse m text :=
    match parse m text with
    | .ok t =>
      match ParseTree.ofTree? t with
      | some q => .ok q
      | none => .error (.failed .ungrammatical)
    | .error e => .error (.failed e)
  transform h q := .ok (q.fold h)

end ZeroOne.Grammar
