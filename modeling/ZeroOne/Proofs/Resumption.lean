import ZeroOne.Proofs.Calls
import ZeroOne.Proofs.Encoding

/-! Whatever the calls before, each call on a lexer goes on at its position as it would at the start of
the text from there. -/
namespace ZeroOne

def Outcome.map (g : Int → Int) : Outcome → Outcome
  | .token t => .token (t.map g)
  | .tokens ts => .tokens (ts.map (Token.map g))
  | .tree t => .tree t

def LexError.shift (n : Nat) : LexError → LexError
  | .unknownWord p b more => .unknownWord (n + p) b more
  | .unexpectedByte p b => .unexpectedByte (n + p) b

theorem Traced.change_change {ε ε' ε'' α α' α'' : Type} (x : Traced ε α) (m m' : Event → Event)
    (f : α → α') (f' : α' → α'') (g : ε → ε') (g' : ε' → ε'') :
    (x.change m f g).change m' f' g' = x.change (m' ∘ m) (f' ∘ f) (g' ∘ g) := by
  obtain ⟨es, r⟩ := x
  cases r <;> simp [change, mapBoth]

namespace Lexer

/-- A lexer of the same bytes that starts further on. -/
def shift (n : Nat) (s : Lexer) : Lexer := ⟨s.rest, n + s.position⟩

/-- The answer to a call with all positions moved on, those of the records included. -/
def shiftAnswer (n : Nat) (x : Traced SyntaxError Outcome) : Traced SyntaxError Outcome :=
  x.change (Event.map id (n + ·)) (Outcome.map (n + ·))
    (SyntaxError.map id (n + ·) (LexError.shift n))

section

variable (n : Nat) (s : Lexer)

theorem skip_shift (p : UInt8 → Bool) : (s.shift n).skip p = (s.skip p).shift n := by
  simp [skip, shift, Nat.add_assoc]

theorem scanHere_shift :
    (s.shift n).scanHere =
      (mapBoth (Token.map (n + ·)) (LexError.shift n) s.scanHere.1, s.scanHere.2.shift n) := by
  have hskip := skip_shift n s isWordByte
  obtain ⟨bytes, p⟩ := s
  cases bytes with
  | nil => simp [scanHere, shift, mapBoth, Token.map]
  | cons b more =>
    simp only [shift] at hskip
    simp only [scanHere, shift]
    cases Terminal.ofMark? b with
    | some t => simp [mapBoth, Token.map, Nat.add_assoc]
    | none =>
      by_cases hw : isWordByte b
      · simp only [hw, if_true]
        cases Terminal.ofWord? (b :: more.takeWhile isWordByte) <;>
          simp [hskip, mapBoth, Token.map, LexError.shift]
      · simp [hw, mapBoth, LexError.shift]

theorem next_shift :
    (s.shift n).next =
      (s.next.1.change (Event.map id (n + ·)) (Token.map (n + ·)) (LexError.shift n),
        s.next.2.shift n) := by
  have hscan : (s.shift n).scan =
      (mapBoth (Token.map (n + ·)) (LexError.shift n) s.scan.1, s.scan.2.shift n) := by
    unfold scan
    rw [skip_shift, scanHere_shift]
  unfold next
  rw [hscan]
  rcases s.scan with ⟨e | ⟨t | _, p⟩, s'⟩ <;>
    simp [record, Traced.change, mapBoth, Token.map, Event.map]

theorem follows_shift :
    Follows id (n + ·) (LexError.shift n) (fun s s' : Lexer => s' = s.shift n) where
  next h := by
    subst h
    have hnext := next_shift n
    exact ⟨congrArg Prod.fst (hnext _), congrArg Prod.snd (hnext _)⟩
  position h := by
    subst h
    exact Int.natCast_add n _

theorem tokens_shift :
    (s.shift n).tokens =
      (s.tokens.1.change (Event.map id (n + ·)) (List.map (Token.map (n + ·))) (LexError.shift n),
        s.tokens.2.shift n) := by
  induction hlength : s.rest.length using Nat.strongRecOn generalizing s with
  | ind m ih =>
    have hnext := next_shift n s
    rcases hs : s.next with ⟨⟨es, e | ⟨t | _, p⟩⟩, s'⟩
    all_goals
      rw [hs] at hnext
      rw [tokens_eq s hs, tokens_eq (s.shift n) hnext]
    · rfl
    · have hrest := ih _ (hlength ▸ TokenSource.remaining_next hs) s' rfl
      simp only [Traced.change, mapBoth, Token.map]
      rw [hrest]
      rcases s'.tokens with ⟨⟨fs, e | ts⟩, last⟩ <;>
        simp [Traced.change, mapBoth, Except.map, Token.map]
    · rfl

theorem take_shift (count : Nat) :
    take count (s.shift n) =
      ((take count s).1.change (Event.map id (n + ·)) (List.map (Token.map (n + ·)))
        (LexError.shift n), (take count s).2.shift n) := by
  induction count generalizing s with
  | zero => rfl
  | succ count ih =>
    have hnext := next_shift n s
    unfold take
    rw [hnext]
    rcases s.next with ⟨⟨es, e | ⟨t | _, p⟩⟩, s'⟩
    · rfl
    · simp only [Traced.change, mapBoth, Token.map]
      rw [ih]
      rcases take count s' with ⟨⟨fs, e | ts⟩, last⟩ <;>
        simp [Traced.change, mapBoth, Except.map, Token.map]
    · rfl

/-- A call of a lexer that starts further on does the same, further on. -/
theorem call_shift (c : Call) :
    (s.shift n).call c = (shiftAnswer n (s.call c).1, (s.call c).2.shift n) := by
  unfold shiftAnswer
  cases c with
  | next =>
    simp only [call, next_shift, Traced.change_change]
    rfl
  | take count =>
    simp only [call, take_shift, Traced.change_change]
    rfl
  | rest =>
    simp only [call, tokens_shift, Traced.change_change]
    rfl
  | parse order =>
    have hparse := parseFrom_follows (carries_id order) (follows_shift n) (rfl : s.shift n = _)
    simp only [call, hparse.1, hparse.2, Traced.change_change]
    rfl

end

/-- A lexer that has moved on from the start of a text is that of the rest of the text, further on. -/
theorem Advances.eq_shift {text : Text} {s : Lexer} {ts : List Token}
    (h : Advances (ofText text) ts s) :
    text.encode.drop s.position = Text.encode (text.drop s.position) ∧
      s = (ofText (text.drop s.position)).shift s.position := by
  obtain ⟨u, hu, hrest, hposition⟩ := h.moved
  have hlength : s.position = u.length := by
    rw [hposition]
    exact Nat.zero_add _
  have hrest : text.encode = u ++ s.rest := hrest
  have hdrop : s.rest = Text.encode (text.drop s.position) := by
    rw [hlength]
    exact Text.encode_drop hrest hu
  constructor
  · rw [← hdrop, hrest, hlength, List.drop_left]
  · unfold ofText shift
    rw [← hdrop]
    rfl

/-- The tokens that calls have read are the first ones of a text that can be read to its end. -/
theorem calls_isPrefix {text : Text} {tokens : List Token} (h : (tokenize text).result = .ok tokens)
    (cs : List Call) : ((ofText text).calls cs).1 <+: tokens := by
  obtain ⟨ts, last, hy, ⟨es, p, behind, hn⟩ | ⟨es, e, behind, hn⟩⟩ := exists_yields (ofText text)
  · have htokens : (tokenize text).result = .ok (toTokens ts ++ [⟨.eof, p⟩]) := tokens_of_yields hy hn
    obtain rfl := Except.ok.inj (h.symm.trans htokens)
    exact ((reads_calls (ofText text) cs).isPrefix hy hn).trans (List.prefix_append _ _)
  · have herror : (tokenize text).result = .error e := tokens_of_yields_error hy hn
    rw [herror] at h
    cases h

end Lexer

/-- Calls resume: whatever was called before, the next call on a lexer goes on at its position as on the
rest of the text. -/
theorem call_resumes (text : Text) (cs : List Call) :
    ∃ p, ((Lexer.ofText text).calls cs).2.position = p ∧
      text.encode.drop p = Text.encode (text.drop p) ∧
      (∀ c, ((Lexer.ofText text).calls cs).2.call c =
        (Lexer.shiftAnswer p ((Lexer.ofText (text.drop p)).call c).1,
          ((Lexer.ofText (text.drop p)).call c).2.shift p)) ∧
      (∃ k, (Lexer.ofText text).calls (List.replicate k .next) = (Lexer.ofText text).calls cs) ∧
      ((Lexer.ofText text).calls cs).1.Pairwise (·.pos < ·.pos) ∧
      (∀ c o ts, (((Lexer.ofText text).calls cs).2.call c).1.result = .ok o → o.tokens? = some ts →
        (((Lexer.ofText text).calls cs).2.call c).1.tokens = ts) ∧
      ∀ tokens, (tokenize text).result = .ok tokens →
        ((Lexer.ofText text).calls cs).1 <+: tokens := by
  have hreads := Lexer.reads_calls (.ofText text) cs
  have hadvances := hreads.advances
  obtain ⟨hdrop, hshift⟩ := hadvances.eq_shift
  refine ⟨_, rfl, hdrop, fun c => ?_, hreads.exists_calls, hadvances.ordered,
    fun c o ts => Lexer.tokens_call _ c, fun tokens h => Lexer.calls_isPrefix h cs⟩
  have hcall := Lexer.call_shift ((Lexer.ofText text).calls cs).2.position
    (.ofText (text.drop ((Lexer.ofText text).calls cs).2.position)) c
  rwa [← hshift] at hcall

end ZeroOne
