import ZeroOne.Proofs.Blame
import ZeroOne.Proofs.Layout

/-! Reading on demand. A parse that reads token by token comes to what a parse of all tokens comes to,
and meets a lexical error unless it ends before. -/
namespace ZeroOne

section

variable {text : Text} {tokens : List Token} {e : LexError}

theorem exists_yields_of_tokenize (h : (tokenize text).result = .ok tokens) :
    ∃ ts last es final, Yields (Lexer.ofText text) ts last ∧
      TokenSource.next last = (⟨es, .ok ⟨.eof, text.encode.length⟩⟩, final) ∧
      final.position = text.encode.length ∧
      tokens = toTokens ts ++ [⟨.eof, text.encode.length⟩] := by
  obtain ⟨ts, last, hy, ⟨es, p, final, hn⟩ | ⟨es, e, final, hn⟩⟩ := exists_yields (Lexer.ofText text)
  · have hp : p = text.encode.length := by
      obtain ⟨L, _, _, hp⟩ := Layout.exists_of_yields hy hn
      rw [hp]
      exact congrArg Nat.cast (Nat.zero_add _)
    subst hp
    have htokens : (tokenize text).result = _ := Lexer.tokens_of_yields hy hn
    have hposition := Lexer.position_of_next_eof hn
    rw [htokens] at h
    exact ⟨ts, last, es, final, hy, hn, Int.ofNat.inj hposition, (Except.ok.inj h).symm⟩
  · have herror : (tokenize text).result = .error e := Lexer.tokens_of_yields_error hy hn
    rw [herror] at h
    cases h

theorem exists_yields_of_lexError (h : (tokenize text).result = .error e) :
    ∃ ts last es final, Yields (Lexer.ofText text) ts last ∧
      TokenSource.next last = (⟨es, .error e⟩, final) := by
  obtain ⟨ts, last, hy, ⟨es, p, final, hn⟩ | ⟨es, e', final, hn⟩⟩ := exists_yields (Lexer.ofText text)
  · have htokens : (tokenize text).result = _ := Lexer.tokens_of_yields hy hn
    rw [htokens] at h
    cases h
  · have herror : (tokenize text).result = .error e' := Lexer.tokens_of_yields_error hy hn
    rw [herror] at h
    have he : e' = e := Except.error.inj h
    subst he
    exact ⟨ts, last, es, final, hy, hn⟩

end

/-- A text that is read to its end is parsed as its tokens are. -/
theorem result_parse_of_tokenize (order : OperandOrder) {text : Text} {tokens : List Token}
    (h : (tokenize text).result = .ok tokens) :
    (parse order text).result = (parseFrom order (⟨tokens, text.encode.length⟩ : Queue)).1.result := by
  obtain ⟨ts, last, es, final, hy, hn, hposition, rfl⟩ := exists_yields_of_tokenize h
  have hqueue := Queue.yields ts [⟨.eof, text.encode.length⟩] text.encode.length
  have heof : TokenSource.next
      (⟨[⟨.eof, text.encode.length⟩], text.encode.length⟩ : Queue) =
        (⟨[], .ok ⟨.eof, text.encode.length⟩⟩, ⟨[], text.encode.length⟩) := rfl
  have hgiven : (parseFrom order (_ : Queue)).1.result = _ :=
    Stacks.read_of_yields_eof hqueue heof .start
  have hlazy : (parse order text).result = _ := Stacks.read_of_yields_eof hy hn .start
  have hend : TokenSource.position final =
      TokenSource.position (⟨[], text.encode.length⟩ : Queue) :=
    congrArg Nat.cast hposition
  rw [hgiven, hlazy, hend]

open Stacks (start)

/-- A parser that reads on demand agrees with one given all tokens, unless it ends in front of a
lexical error. -/
theorem parse_on_demand (order : OperandOrder) (text : Text) :
    (∀ tokens, (tokenize text).result = .ok tokens →
        (parse order text).result =
          (parseFrom order (⟨tokens, text.encode.length⟩ : Queue)).1.result) ∧
      ∀ e, (tokenize text).result = .error e →
        ∃ ts last, Yields (Lexer.ofText text) ts last ∧ last.next.1.result = .error e ∧
          ((∃ s, (start.placeAll order ts).result = .ok s) ∧
              (parse order text).result = .error (.lexical e) ∨
            ∃ e' t, (start.placeAll order ts).result = .error e' ∧
              (∀ pos, (parseFrom order (⟨toTokens ts, pos⟩ : Queue)).1.result =
                .error (.structural e')) ∧
              (parse order text).result = .error (.structural e') ∧
              e'.token? = some t ∧ t ∈ toTokens ts ∧ t.pos < e.pos) := by
  refine ⟨fun tokens => result_parse_of_tokenize order, fun e h => ?_⟩
  obtain ⟨ts, last, es, final, hy, hn⟩ := exists_yields_of_lexError h
  have hlast : last.next.1.result = .error e :=
    congrArg (fun x : Traced LexError Token × Lexer => x.1.result) hn
  have hread : (parse order text).result = _ := Stacks.read_of_yields hy start
  refine ⟨ts, last, hy, hlast, ?_⟩
  rcases hp : (start.placeAll order ts).result with e' | s
  · right
    rw [hp] at hread
    obtain ⟨t, ht, hnames⟩ := Stacks.names_of_placeAll_start hp
    have hbefore := (Lexer.lt_position_of_yields hy).2 t ht
    have hbehind := Lexer.position_le_of_next_error hn
    refine ⟨e', ⟨.terminal t.1, t.2⟩, rfl, fun pos => ?_, hread, hnames, List.mem_map_of_mem ht, ?_⟩
    · rw [result_parseFrom_toTokens, Traced.result_bind, hp]
      rfl
    · change t.2 < (e.pos : Int)
      omega
  · left
    rw [hp] at hread
    exact ⟨⟨s, rfl⟩, hread.trans (Stacks.read_of_error s hn)⟩

/-- The parenthesis without a partner is met before the unknown word is read, and two trees only at the
end. -/
theorem parse_on_demand_unmatched :
    ((tokenize (.ofString "(1)")).result =
        .ok [⟨.terminal .lparen, 0⟩, ⟨.terminal (.lit .one), 1⟩, ⟨.terminal .rparen, 2⟩, ⟨.eof, 3⟩] ∧
      (parse .written (.ofString "(1)")).result = .ok (.number 1)) ∧
    ((tokenize (.ofString "1 (true)")).result =
        .ok [⟨.terminal (.lit .one), 0⟩, ⟨.terminal .lparen, 2⟩, ⟨.terminal (.lit .yes), 3⟩,
          ⟨.terminal .rparen, 7⟩, ⟨.eof, 8⟩] ∧
      (parse .written (.ofString "1 (true)")).result =
        .error (.structural (.several [.number 1, .bool true] 8))) ∧
      (tokenize (.ofString "1 ) || flase")).result =
        .error (.unknownWord 7 102 [108, 97, 115, 101]) ∧
      ∃ e t, (parse .written (.ofString "1 ) || flase")).result = .error (.structural e) ∧
        e.token? = some t ∧ t.pos < 7 := by
  have hgroup : Yields (Lexer.ofText (.ofString "(1)")) [(.lparen, 0), (.lit .one, 1), (.rparen, 2)]
      ⟨[], 3⟩ := .token rfl (.token rfl (.token rfl (.done _)))
  have hread : Yields (Lexer.ofText (.ofString "1 (true)"))
      [(.lit .one, 0), (.lparen, 2), (.lit .yes, 3), (.rparen, 7)] ⟨[], 8⟩ :=
    .token rfl (.token rfl (.token rfl (.token rfl (.done _))))
  have hstop : Yields (Lexer.ofText (.ofString "1 ) || flase"))
      [(.lit .one, 0), (.rparen, 2), (.op .or, 4)] ⟨[32, 102, 108, 97, 115, 101], 6⟩ :=
    .token rfl (.token rfl (.token rfl (.done _)))
  have hone : (tokenize (.ofString "(1)")).result = _ := Lexer.tokens_of_yields hgroup rfl
  have htokens : (tokenize (.ofString "1 (true)")).result = _ := Lexer.tokens_of_yields hread rfl
  have herror : (tokenize (.ofString "1 ) || flase")).result = _ :=
    Lexer.tokens_of_yields_error hstop rfl
  refine ⟨⟨hone, ?_⟩, ⟨htokens, ?_⟩, herror, ?_⟩
  · rw [(parse_on_demand .written (.ofString "(1)")).1 _ hone]
    exact Stacks.read_of_yields_eof (Queue.yields [(.lparen, 0), (.lit .one, 1), (.rparen, 2)]
      [⟨.eof, 3⟩] 3) rfl .start
  · rw [(parse_on_demand .written (.ofString "1 (true)")).1 _ htokens]
    exact Stacks.read_of_yields_eof (Queue.yields [(.lit .one, 0), (.lparen, 2), (.lit .yes, 3),
      (.rparen, 7)] [⟨.eof, 8⟩] 8) rfl .start
  · have hparse : (parse .written (.ofString "1 ) || flase")).result = _ :=
      Stacks.read_of_yields hstop .start
    obtain ⟨ts, last, _, _, ⟨_, hlexical⟩ | ⟨e, t, _, _, hstructural, ht, _, hlt⟩⟩ :=
      (parse_on_demand .written (.ofString "1 ) || flase")).2 _ herror
    · rw [hparse] at hlexical
      cases hlexical
    · exact ⟨e, t, hstructural, ht, hlt⟩

end ZeroOne
