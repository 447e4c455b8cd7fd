import ZeroOne.Text
import ZeroOne.Token.Source

/-! The lexer: blanks, single marks, and words, which are runs of bytes that are as long as possible. -/
namespace ZeroOne

/-- Space, tab, line feed, carriage return and form feed are blank; the vertical tab is not. -/
def isBlank (b : UInt8) : Bool :=
  b = 32 || b = 9 || b = 10 || b = 13 || b = 12

def isWordByte (b : UInt8) : Bool :=
  (97 ≤ b && b ≤ 122) || (65 ≤ b && b ≤ 90) || b = 95 || b = 124

def Terminal.words : List Terminal := [.lit .yes, .lit .no, .op .or]

def Terminal.marks : List Terminal := [.lparen, .rparen, .op .mul, .op .add, .lit .zero, .lit .one]

def Terminal.ofMark? (b : UInt8) : Option Terminal := Terminal.marks.find? (·.bytes == [b])

def Terminal.ofWord? (w : List UInt8) : Option Terminal := Terminal.words.find? (·.bytes == w)

/-- The bytes that are still to be read, and the offset of the first of them. -/
structure Lexer where
  rest : List UInt8
  position : Nat
  deriving DecidableEq, Repr

namespace Lexer

def ofText (t : Text) : Lexer := ⟨t.encode, 0⟩

def skip (p : UInt8 → Bool) (s : Lexer) : Lexer :=
  ⟨s.rest.dropWhile p, s.position + (s.rest.takeWhile p).length⟩

/-- Reads one token where no blank stands; an unknown word is left behind, but an unexpected byte is
met again. -/
def scanHere (s : Lexer) : Except LexError Token × Lexer :=
  match s.rest with
  | [] => (.ok ⟨.eof, s.position⟩, s)
  | b :: more =>
    match Terminal.ofMark? b with
    | some t => (.ok ⟨.terminal t, s.position⟩, ⟨more, s.position + 1⟩)
    | none =>
      if isWordByte b then
        match Terminal.ofWord? (b :: more.takeWhile isWordByte) with
        | some t => (.ok ⟨.terminal t, s.position⟩, s.skip isWordByte)
        | none =>
          (.error (.unknownWord s.position b (more.takeWhile isWordByte)), s.skip isWordByte)
      else (.error (.unexpectedByte s.position b), s)

def scan (s : Lexer) : Except LexError Token × Lexer := (s.skip isBlank).scanHere

/-- Each token but the end of the input leaves a record. -/
def record : Except LexError Token → List Event
  | .ok ⟨.terminal t, p⟩ => [.token ⟨.terminal t, p⟩]
  | _ => []

def next (s : Lexer) : Traced LexError Token × Lexer :=
  (⟨record s.scan.1, s.scan.1⟩, s.scan.2)

theorem length_rest_skip (p : UInt8 → Bool) (s : Lexer) :
    (s.skip p).rest.length ≤ s.rest.length :=
  (List.dropWhile_suffix p).length_le

private theorem length_rest_scanHere {s : Lexer} {t : Terminal} {p : Int}
    (h : s.scanHere.1 = .ok ⟨.terminal t, p⟩) : s.scanHere.2.rest.length < s.rest.length := by
  obtain ⟨rest, position⟩ := s
  cases rest with
  | nil => simp [scanHere] at h
  | cons b more =>
    simp only [scanHere] at h ⊢
    cases hm : Terminal.ofMark? b with
    | some u => simp
    | none =>
      simp only [hm] at h
      split at h
      · rename_i hw
        have hd := length_rest_skip isWordByte ⟨more, position⟩
        split at h
        · rename_i hu
          simp only [hw, if_true, skip, List.dropWhile_cons, List.length_cons] at hd ⊢
          omega
        · cases h
      · cases h

theorem length_rest_scan {s : Lexer} {t : Terminal} {p : Int}
    (h : s.scan.1 = .ok ⟨.terminal t, p⟩) : s.scan.2.rest.length < s.rest.length :=
  Nat.lt_of_lt_of_le (length_rest_scanHere h) (length_rest_skip isBlank s)

instance : TokenSource Lexer where
  next := next
  position s := s.position
  remaining s := s.rest.length
  remaining_next {s s' es t p} h := by
    simp only [next, Prod.mk.injEq, Traced.mk.injEq] at h
    rw [← h.2]
    exact length_rest_scan h.1.2

/-- Reads all tokens up to the end of the input, which is the last of them. -/
def tokens (s : Lexer) : Traced LexError (List Token) × Lexer :=
  match _h : s.next with
  | (⟨es, .error e⟩, s') => (⟨es, .error e⟩, s')
  | (⟨es, .ok ⟨.eof, p⟩⟩, s') => (⟨es, .ok [⟨.eof, p⟩]⟩, s')
  | (⟨es, .ok ⟨.terminal t, p⟩⟩, s') =>
    let (answer, last) := s'.tokens
    (⟨es ++ answer.events, answer.result.map (⟨.terminal t, p⟩ :: ·)⟩, last)
termination_by s.rest.length
decreasing_by exact TokenSource.remaining_next _h

/-- Reads a number of tokens, fewer if the input ends before. -/
def take : Nat → Lexer → Traced LexError (List Token) × Lexer
  | 0, s => (⟨[], .ok []⟩, s)
  | n + 1, s =>
    match s.next with
    | (⟨es, .error e⟩, s') => (⟨es, .error e⟩, s')
    | (⟨es, .ok ⟨.eof, p⟩⟩, s') => (⟨es, .ok [⟨.eof, p⟩]⟩, s')
    | (⟨es, .ok ⟨.terminal t, p⟩⟩, s') =>
      let (answer, last) := take n s'
      (⟨es ++ answer.events, answer.result.map (⟨.terminal t, p⟩ :: ·)⟩, last)

end Lexer

def tokenize (t : Text) : Traced LexError (List Token) := (Lexer.ofText t).tokens.1

end ZeroOne
