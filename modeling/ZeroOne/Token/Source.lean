import ZeroOne.Trace

/-! Sources that hand out tokens one at a time: what a reader may rely on, and the plainest source. -/
namespace ZeroOne

/-- A word or a byte that no token is spelled with, and the offset where it starts. -/
inductive LexError
  | unknownWord (pos : Nat) (first : UInt8) (more : List UInt8)
  | unexpectedByte (pos : Nat) (byte : UInt8)
  deriving DecidableEq, Repr

namespace LexError

def pos : LexError → Nat
  | .unknownWord p _ _ => p
  | .unexpectedByte p _ => p

def byte : LexError → UInt8
  | .unknownWord _ b _ => b
  | .unexpectedByte _ b => b

def word? : LexError → Option String
  | .unknownWord _ b more => some (.ofList ((b :: more).map fun c => Char.ofNat c.toNat))
  | .unexpectedByte _ _ => none

def message (e : LexError) : String :=
  match e.word? with
  | some w => "Unknown identifier " ++ Text.quoted w ++ " at position " ++ e.pos.repr
  | none => "Unexpected byte " ++ Text.quotedByte e.byte ++ " at position " ++ e.pos.repr

end LexError

/-- A source hands out a token or an error and goes on; each terminal that it hands out leaves fewer
of them. -/
class TokenSource (σ : Type) where
  next : σ → Traced LexError Token × σ
  position : σ → Int
  remaining : σ → Nat
  remaining_next {s s' : σ} {es : List Event} {t : Terminal} {p : Int} :
    next s = (⟨es, .ok ⟨.terminal t, p⟩⟩, s') → remaining s' < remaining s

/-- Tokens that stand ready, behind which the input ends at a fixed offset. -/
structure Queue where
  tokens : List Token
  position : Int

namespace Queue

/-- Hands out the first token, and the end of the input for ever if there is none. -/
def next (q : Queue) : Token × Queue :=
  match q.tokens with
  | [] => (⟨.eof, q.position⟩, q)
  | t :: ts => (t, { q with tokens := ts })

instance : TokenSource Queue where
  next q := (pure q.next.1, q.next.2)
  position := Queue.position
  remaining q := q.tokens.length
  remaining_next {q q' es t p} h := by
    obtain ⟨ts, pos⟩ := q
    cases ts with
    | nil => simp [next] at h
    | cons u us =>
      simp only [next, Prod.mk.injEq] at h
      simp [← h.2]

end Queue
end ZeroOne
