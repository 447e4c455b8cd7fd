import Mathlib.Logic.Function.Iterate
import ZeroOne.Proofs.Calls

/-! Progress. Call after call, behind errors too, a lexer moves on over its bytes, until it stands at their
end or in front of an unexpected byte. There it stays. -/
namespace ZeroOne.Lexer

def after (s : Lexer) (n : Nat) : Lexer := (fun s => s.next.2)^[n] s

def answer (s : Lexer) (n : Nat) : Except LexError Token := (s.after n).next.1.result

inductive Settled : Except LexError Token → Prop
  | eof (p : Int) : Settled (.ok ⟨.eof, p⟩)
  | unexpectedByte (p : Nat) (b : UInt8) : Settled (.error (.unexpectedByte p b))

/-- What a call comes to, and how far: never back, and past all of a terminal or an unknown word. -/
structure Moves (bytes : List UInt8) (s : Lexer) (x : Except LexError Token) (s' : Lexer) : Prop where
  le : s.position ≤ s'.position
  le_length : s'.position ≤ bytes.length
  terminal : ∀ t p, x = .ok ⟨.terminal t, p⟩ →
    s.position < s'.position ∧
      ∃ q : Nat, p = q ∧ t.bytes <+: bytes.drop q ∧ s'.position = q + t.bytes.length
  unknownWord : ∀ p b more, x = .error (.unknownWord p b more) →
    s.position < s'.position ∧ (bytes.drop p).takeWhile isWordByte = b :: more ∧
      s'.position = p + (b :: more).length

section

variable {s s' : Lexer}

theorem after_succ (s : Lexer) (n : Nat) : s.after (n + 1) = (s.after n).next.2 :=
  Function.iterate_succ_apply' _ n s

theorem after_add (s : Lexer) (n m : Nat) : s.after (n + m) = (s.after n).after m := by
  rw [Nat.add_comm]
  exact Function.iterate_add_apply _ m n s

theorem answer_add (s : Lexer) (n m : Nat) : s.answer (n + m) = (s.after n).answer m := by
  unfold answer
  rw [after_add]

theorem next_eq_of_answer {n : Nat} {x : Except LexError Token} (h : s.answer n = x) :
    TokenSource.next (s.after n) = (⟨(s.after n).next.1.events, x⟩, s.after (n + 1)) := by
  rw [after_succ, ← h]
  rfl

theorem reads_after (s : Lexer) (n : Nat) : ∃ ts, Reads s ts (s.after n) := by
  induction n with
  | zero => exact ⟨[], .done s⟩
  | succ n ih =>
    obtain ⟨ts, hread⟩ := ih
    rw [after_succ]
    exact ⟨_, hread.trans (reads_of_next rfl)⟩

theorem moves_of_next {bytes u : List UInt8} {x : Traced LexError Token} (hsplit : bytes = u ++ s.rest)
    (hposition : s.position = u.length) (h : TokenSource.next s = (x, s')) :
    Moves bytes s x.result s' := by
  have hlength : bytes.length = s.position + s.rest.length := by
    rw [hsplit, List.length_append, hposition]
  have hdrop (g rest : List UInt8) (hrest : s.rest = g ++ rest) :
      bytes.drop (s.position + g.length) = rest := by
    rw [hsplit, hrest, ← List.append_assoc, hposition, ← List.length_append, List.drop_left]
  obtain ⟨rest, n⟩ := s
  dsimp only at hlength hdrop
  cases finds rest with
  | blanks hg =>
    rw [next_blank hg] at h
    cases h
    exact ⟨Nat.le_add_right _ _, Nat.le_of_eq hlength.symm, nofun, nofun⟩
  | @terminal g rest t hg hs =>
    rw [next_terminal t hg hs] at h
    cases h
    have hpos : 0 < t.bytes.length := List.length_pos_iff.2 t.bytes_ne_nil
    rw [List.length_append, List.length_append] at hlength
    have hmoved : n < n + g.length + t.bytes.length := by omega
    have hend : n + g.length + t.bytes.length ≤ bytes.length := by omega
    refine ⟨Nat.le_of_lt hmoved, hend, fun t' p hx => ?_, nofun⟩
    cases hx
    refine ⟨hmoved, n + g.length, rfl, ?_, rfl⟩
    rw [hdrop g _ rfl]
    exact List.prefix_append _ _
  | @unknown g rest b more hg hb hu hs =>
    rw [next_unknown hg hb hu hs] at h
    cases h
    rw [List.length_append, List.length_append, List.length_cons] at hlength
    have hmoved : n < n + g.length + (more.length + 1) := by omega
    have hend : n + g.length + (more.length + 1) ≤ bytes.length := by omega
    refine ⟨Nat.le_of_lt hmoved, hend, nofun, fun p c cs hx => ?_⟩
    cases hx
    refine ⟨hmoved, ?_, rfl⟩
    rw [hdrop g _ rfl, List.takeWhile_append_of_pos hb, takeWhile_eq_nil_of_stopsWord hs,
      List.append_nil]
  | @unexpected g rest b hg hb hw hm =>
    rw [next_unexpected hg hb hw hm] at h
    cases h
    rw [List.length_append] at hlength
    have hend : n + g.length ≤ bytes.length := by omega
    exact ⟨Nat.le_add_right _ _, hend, nofun, nofun⟩

theorem next_of_settled {x : Traced LexError Token} (h : TokenSource.next s = (x, s'))
    (hx : Settled x.result) : TokenSource.next s' = (x, s') := by
  obtain ⟨bytes, n⟩ := s
  cases finds bytes with
  | blanks hg =>
    rw [next_blank hg] at h
    cases h
    exact next_blank (g := []) nofun _
  | terminal t hg hs =>
    rw [next_terminal t hg hs] at h
    cases h
    cases hx
  | unknown hg hb hu hs =>
    rw [next_unknown hg hb hu hs] at h
    cases h
    cases hx
  | unexpected hg hb hw hm =>
    rw [next_unexpected hg hb hw hm] at h
    cases h
    exact next_unexpected (g := []) nofun hb hw hm _

/-- What is settled stays as it is. -/
theorem after_of_settled {n m : Nat} (h : Settled (s.answer n)) (hm : n ≤ m) :
    s.answer m = s.answer n ∧ s.after (m + 1) = s.after (n + 1) := by
  have hnext : TokenSource.next (s.after (n + 1)) = ((s.after n).next.1, s.after (n + 1)) := by
    rw [after_succ]
    exact next_of_settled rfl h
  have hfixed (k : Nat) : s.after (n + 1 + k) = s.after (n + 1) := by
    rw [after_add]
    exact Function.iterate_fixed (congrArg Prod.snd hnext) k
  obtain ⟨k, rfl⟩ := Nat.exists_eq_add_of_le hm
  refine ⟨?_, ?_⟩
  · cases k with
    | zero => rfl
    | succ k =>
      unfold answer
      rw [Nat.add_comm k, ← Nat.add_assoc, hfixed]
      exact congrArg (fun y => y.1.result) hnext
  · rw [Nat.add_right_comm]
    exact hfixed k

theorem settled_or_lt {x : Traced LexError Token} (h : TokenSource.next s = (x, s')) :
    Settled x.result ∨ s'.rest.length < s.rest.length := by
  cases step_of_next h with
  | blanks hg => exact .inl (.eof _)
  | unexpected hg => exact .inl (.unexpectedByte _ _)
  | terminal t hg hs => exact .inr (TokenSource.remaining_next h)
  | unknown hg hb =>
    refine .inr ?_
    simp only [List.length_append, List.length_cons]
    omega

theorem exists_settled (s : Lexer) : ∃ n ≤ s.rest.length, Settled (s.answer n) := by
  induction hlength : s.rest.length using Nat.strongRecOn generalizing s with
  | ind m ih =>
    -- A call that settles nothing takes a byte at least.
    rcases settled_or_lt (s := s) rfl with h | h
    · exact ⟨0, Nat.zero_le m, h⟩
    · obtain ⟨n, hn, hsettled⟩ := ih _ (hlength ▸ h) _ rfl
      refine ⟨1 + n, by omega, ?_⟩
      rw [answer_add]
      exact hsettled

/-- Terminals are handed out by one call each, and take at least a byte. -/
theorem eq_after_of_yields {ts : List (Terminal × Int)} (h : Yields s ts s') :
    s' = s.after ts.length ∧ s'.rest.length + ts.length ≤ s.rest.length := by
  induction h with
  | done s => exact ⟨rfl, Nat.le_refl _⟩
  | @token s next last es t p ts hn _ ih =>
    obtain ⟨hlast, hlength⟩ := ih
    have hlt : next.rest.length < s.rest.length := TokenSource.remaining_next hn
    have hnext : next = s.after 1 := congrArg Prod.snd hn.symm
    refine ⟨?_, ?_⟩
    · rw [hlast, hnext, ← after_add, Nat.add_comm, List.length_cons]
    · rw [List.length_cons]
      omega

theorem left_of_yields {ts : List (Terminal × Int)} (h : Yields s ts s') :
    s.tokens.2 = s'.tokens.2 := by
  induction h with
  | done s => rfl
  | token hn _ ih =>
    rw [tokens_eq _ hn]
    exact ih

/-- All tokens that are left are read by single calls, which come to an end. -/
theorem iteration_ends (s : Lexer) :
    ∃ ts, ts.length ≤ s.rest.length ∧ Yields s ts (s.after ts.length) ∧
      s.tokens.2 = s.after (ts.length + 1) ∧
      ((∃ p, s.answer ts.length = .ok ⟨.eof, p⟩ ∧
          s.tokens.1.result = .ok (toTokens ts ++ [⟨.eof, p⟩])) ∨
        ∃ e, s.answer ts.length = .error e ∧ s.tokens.1.result = .error e) := by
  obtain ⟨ts, last, hy, hend⟩ := exists_yields s
  obtain ⟨rfl, hlength⟩ := eq_after_of_yields hy
  refine ⟨ts, by omega, hy, ?_, ?_⟩
  · rw [left_of_yields hy, after_succ]
    rcases hend with ⟨es, p, final, hn⟩ | ⟨es, e, final, hn⟩
    all_goals
      rw [tokens_eq _ hn]
      exact (congrArg Prod.snd hn).symm
  · rcases hend with ⟨es, p, final, hn⟩ | ⟨es, e, final, hn⟩
    · exact .inl ⟨p, congrArg (fun y => y.1.result) hn, tokens_of_yields hy hn⟩
    · exact .inr ⟨e, congrArg (fun y => y.1.result) hn, tokens_of_yields_error hy hn⟩

end

/-- Every call moves the lexer on to where its token or unknown word ends, or gives its answer for
ever after. -/
theorem next_progress (text : Text) :
    let s := Lexer.ofText text
    (∀ n, Moves text.encode (s.after n) (s.answer n) (s.after (n + 1))) ∧
      (∀ n p, s.answer n = .ok ⟨.eof, p⟩ → ∀ m ≥ n,
        s.answer m = .ok ⟨.eof, text.encode.length⟩ ∧ (s.after (m + 1)).position = text.encode.length) ∧
      (∀ n p b, s.answer n = .error (.unexpectedByte p b) → ∀ m ≥ n,
        s.answer m = .error (.unexpectedByte p b) ∧ (s.after (m + 1)).position = p) ∧
      (∃ n ≤ text.encode.length, Settled (s.answer n)) ∧
      ∀ n, ∃ ts, ts.length ≤ text.encode.length ∧ Yields (s.after n) ts (s.after (n + ts.length)) ∧
        (s.after n).tokens.2 = s.after (n + ts.length + 1) ∧
        ((∃ p, s.answer (n + ts.length) = .ok ⟨.eof, p⟩ ∧
            (s.after n).tokens.1.result = .ok (toTokens ts ++ [⟨.eof, p⟩])) ∨
          ∃ e, s.answer (n + ts.length) = .error e ∧ (s.after n).tokens.1.result = .error e) := by
  intro s
  have hsplit (n : Nat) : ∃ u, text.encode = u ++ (s.after n).rest ∧ (s.after n).position = u.length := by
    obtain ⟨ts, hread⟩ := reads_after s n
    obtain ⟨u, _, hrest, hposition⟩ := hread.advances.moved
    exact ⟨u, hrest, hposition.trans (Nat.zero_add _)⟩
  refine ⟨fun n => ?_, fun n p hn m hm => ?_, fun n p b hn m hm => ?_, exists_settled s, fun n => ?_⟩
  · obtain ⟨u, hu, hposition⟩ := hsplit n
    rw [after_succ]
    exact moves_of_next hu hposition rfl
  · obtain ⟨u, hu, hposition⟩ := hsplit n
    have hnext := next_eq_of_answer hn
    have hsettled : Settled (s.answer n) := hn ▸ Settled.eof p
    obtain ⟨hanswer, hafter⟩ := after_of_settled hsettled hm
    have hend := (blank_of_next_eof hnext).2
    rw [hposition, ← List.length_append, ← hu] at hend
    rw [hanswer, hafter, hn, hend]
    exact ⟨rfl, Int.ofNat.inj ((position_of_next_eof hnext).trans hend)⟩
  · have hsettled : Settled (s.answer n) := hn ▸ Settled.unexpectedByte p b
    obtain ⟨hanswer, hafter⟩ := after_of_settled hsettled hm
    rw [hanswer, hafter]
    exact ⟨hn, position_of_next_unexpectedByte (next_eq_of_answer hn)⟩
  · obtain ⟨u, hu, _⟩ := hsplit n
    obtain ⟨ts, hlength, h⟩ := iteration_ends (s.after n)
    rw [← after_add, ← after_add, ← answer_add] at h
    have hle : (s.after n).rest.length ≤ text.encode.length := by
      rw [hu, List.length_append]
      omega
    exact ⟨ts, hlength.trans hle, h⟩

/-- An unknown word is passed, an unexpected byte is not; the end of the input is met again and again. -/
theorem next_progress_settles :
    let s := Lexer.ofText (Text.ofString "1 maybe &")
    let s' := Lexer.ofText (Text.ofString "1 ")
    ((s.answer 1 = .error (.unknownWord 2 109 [97, 121, 98, 101]) ∧ (s.after 2).position = 7) ∧
        s.answer 2 = .error (.unexpectedByte 8 38) ∧
        ∀ m ≥ 2, s.answer m = .error (.unexpectedByte 8 38) ∧ (s.after (m + 1)).position = 8) ∧
      (s'.answer 0 = .ok ⟨.terminal (.lit .one), 0⟩ ∧ s'.position < (s'.after 1).position) ∧
        s'.answer 1 = .ok ⟨.eof, 2⟩ ∧
        ∀ m ≥ 1, s'.answer m = .ok ⟨.eof, 2⟩ ∧ (s'.after (m + 1)).position = 2 := by
  intro s s'
  have hword : s.answer 1 = .error (.unknownWord 2 109 [97, 121, 98, 101]) := rfl
  have hbyte : s.answer 2 = .error (.unexpectedByte 8 38) := rfl
  have hone : s'.answer 0 = .ok ⟨.terminal (.lit .one), 0⟩ := rfl
  have hend : s'.answer 1 = .ok ⟨.eof, 2⟩ := rfl
  obtain ⟨hmoves, _, hstays, _⟩ := next_progress (Text.ofString "1 maybe &")
  obtain ⟨hmoves', hends, _⟩ := next_progress (Text.ofString "1 ")
  have hpassed := ((hmoves 1).unknownWord 2 109 _ hword).2.2
  have hmoved := ((hmoves' 0).terminal _ 0 hone).1
  exact ⟨⟨⟨hword, hpassed⟩, hbyte, hstays 2 8 38 hbyte⟩, ⟨hone, hmoved⟩, hend, hends 1 2 hend⟩

end ZeroOne.Lexer
