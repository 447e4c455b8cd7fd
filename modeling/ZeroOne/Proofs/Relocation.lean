import ZeroOne.Proofs.Answer
import ZeroOne.Proofs.OnDemand
import ZeroOne.Proofs.Relabeling

/-! Where the tokens of a text stand does not count: a text is parsed like the queue of the kinds of its
tokens, each at its index. -/
namespace ZeroOne

def ParseError.moved (e : ParseError) (p : Int) : ParseError := e.map id fun _ => p

namespace ParseError

theorem map_id_eq_moved (e : ParseError) (g : Int → Int) : e.map id g = e.moved (g e.pos) := by
  cases e <;> rfl

theorem pos_moved (e : ParseError) (p : Int) : (e.moved p).pos = p := by
  cases e <;> rfl

theorem moved_moved (e : ParseError) (p q : Int) : (e.moved p).moved q = e.moved q := by
  cases e with
  | several ts r =>
    change several ((ts.map id).map id) q = several (ts.map id) q
    rw [List.map_id]
  | missingOperand | unmatched | unclosed | empty => rfl

theorem token?_moved (e : ParseError) (p : Int) :
    (e.moved p).token? = e.token?.map fun t => ⟨t.kind, p⟩ := by
  cases e <;> rfl

theorem pos_of_token? {e : ParseError} {t : Token} (h : e.token? = some t) : e.pos = t.pos := by
  cases e with
  | missingOperand | unmatched | unclosed =>
    obtain rfl := Option.some.inj h
    rfl
  | empty | several => cases h

/-- A message tells the offset in one place, if at all. -/
theorem message_moved (e : ParseError) :
    (∀ p q, (e.moved p).message = (e.moved q).message) ∨
      ∃ front back, ∀ p, (e.moved p).message = front ++ p.repr ++ back := by
  cases e with
  | missingOperand o =>
    exact .inr ⟨"Operator '" ++ o.spelling ++ "' at position ", " is missing an operand", fun _ => rfl⟩
  | unmatched => exact .inr ⟨"Unmatched ')' at position ", "", fun _ => String.append_empty.symm⟩
  | unclosed => exact .inr ⟨"Unclosed '(' at position ", "", fun _ => String.append_empty.symm⟩
  | empty | several => exact .inl fun _ _ => rfl

end ParseError

namespace Queue

/-- A queue of the given kinds, each at its index, that ends at the index of the last one. -/
def numbered (kinds : List Kind) : Queue := ⟨kinds.mapIdx fun i k => ⟨k, i⟩, (kinds.length - 1 : Nat)⟩

theorem tokens_of_yields {q q' : Queue} {ts : List (Terminal × Int)} (h : Yields q ts q') :
    q.tokens = toTokens ts ++ q'.tokens ∧ q'.position = q.position := by
  induction h with
  | done => exact ⟨rfl, rfl⟩
  | @token q next last es t p ts hn _ ih =>
    obtain ⟨_ | ⟨u, us⟩, pos⟩ := q
    · cases hn
    · cases hn
      exact ⟨congrArg _ ih.1, ih.2⟩

theorem position_next (q : Queue) : TokenSource.position (TokenSource.next q).2 = q.position := by
  obtain ⟨_ | ⟨t, ts⟩, p⟩ := q <;> rfl

/-- A parse of a queue fails at one of its tokens, or where it ends. -/
theorem names_of_parseFrom {order : OperandOrder} {q : Queue} {e : SyntaxError}
    (h : (parseFrom order q).1.result = .error e) :
    ∃ e', e = .structural e' ∧
      ((∃ t ∈ q.tokens, e'.token? = some t) ∨ e'.token? = none ∧ e'.pos = q.position) := by
  have hhalts : Stacks.Halts order .start q (parseFrom order q).1.result (parseFrom order q).2 :=
    Stacks.halts_read order .start q
  have hmem : ∀ {ts : List (Terminal × Int)} {q' : Queue} {e' : ParseError}, Yields q ts q' →
      (∃ t ∈ ts, e'.Names t) → ∃ t ∈ q.tokens, e'.token? = some t := by
    rintro ts q' e' hy ⟨t, ht, hn⟩
    rw [(tokens_of_yields hy).1]
    exact ⟨_, List.mem_append_left _ (List.mem_map_of_mem ht), hn⟩
  rw [h] at hhalts
  generalize hx : (.error e : Except SyntaxError Tree) = x at hhalts
  cases hhalts with
  | misplaced hy hp =>
    exact ⟨_, Except.error.inj hx, .inl (hmem hy (Stacks.names_of_placeAll_start hp))⟩
  | @finished ts q' _ s _ _ hy hp hn =>
    have hend : TokenSource.position (parseFrom order q).2 = q.position := by
      have hlast := position_next q'
      rw [hn] at hlast
      exact hlast.trans (tokens_of_yields hy).2
    rw [hend] at hx
    rcases hf : (s.finish order q.position).result with e' | t
    · rw [hf] at hx
      refine ⟨e', Except.error.inj hx, ?_⟩
      exact (Stacks.names_of_finish_start hp hf).imp_left (hmem hy)
    · rw [hf] at hx
      cases hx
  | interrupted _ _ hn => cases hn

end Queue

def offset (tokens : List Token) (i : Int) : Int := (tokens[i.toNat]?.map Token.pos).getD 0

section

variable {tokens tokens' : List Token} {i n n' : Nat} {t : Token}

theorem offset_of_getElem? (h : tokens[i]? = some t) : offset tokens i = t.pos := by
  have hi : tokens[(i : Int).toNat]? = some t := h
  rw [offset, hi]
  rfl

theorem getElem?_of_getLast? (h : tokens.getLast? = some t) :
    tokens[(tokens.map Token.kind).length - 1]? = some t := by
  rw [List.length_map, ← List.getLast?_eq_getElem?]
  exact h

/-- The queue of the kinds of tokens is the queue of these tokens, up to the offsets. -/
theorem numbered_map_offset (h : tokens.getLast? = some ⟨.eof, n⟩) :
    (Queue.numbered (tokens.map Token.kind)).map (offset tokens) = ⟨tokens, n⟩ := by
  have htokens : (Queue.numbered (tokens.map Token.kind)).tokens.map (Token.map (offset tokens)) =
      tokens := by
    apply List.ext_getElem?
    intro i
    unfold Queue.numbered
    rw [List.getElem?_map, List.getElem?_mapIdx, List.getElem?_map]
    cases hi : tokens[i]? with
    | none => rfl
    | some t =>
      have hpos := offset_of_getElem? hi
      change some (Token.mk t.kind (offset tokens i)) = some t
      rw [hpos]
  have hposition : offset tokens ((tokens.map Token.kind).length - 1 : Nat) = n :=
    offset_of_getElem? (getElem?_of_getLast? h)
  exact congrArg₂ Queue.mk htokens hposition

/-- Errors of one cause, about the tokens of one index or about the end, whose messages differ in
the offset at most. -/
structure ParseError.Corresponds (tokens tokens' : List Token) (e e' : ParseError) : Prop where
  cause : e' = e.moved e'.pos
  place : ∃ (i : Nat) (t t' : Token), tokens[i]? = some t ∧ tokens'[i]? = some t' ∧
    e.pos = t.pos ∧ e'.pos = t'.pos ∧
    (e.token? = some t ∧ e'.token? = some t' ∨
      e.token? = none ∧ e'.token? = none ∧ t.kind = .eof ∧ t'.kind = .eof)
  wording : e.message = e'.message ∨
    ∃ front back, e.message = front ++ e.pos.repr ++ back ∧ e'.message = front ++ e'.pos.repr ++ back

theorem ParseError.corresponds_moved {e : ParseError} {t t' : Token} (hi : tokens[i]? = some t)
    (hi' : tokens'[i]? = some t')
    (h : (∃ p, e.token? = some ⟨t.kind, p⟩) ∧ t'.kind = t.kind ∨
      e.token? = none ∧ t.kind = .eof ∧ t'.kind = .eof) :
    Corresponds tokens tokens' (e.moved t.pos) (e.moved t'.pos) := by
  constructor
  · rw [pos_moved, moved_moved]
  · refine ⟨i, t, t', hi, hi', pos_moved e t.pos, pos_moved e t'.pos, ?_⟩
    rw [token?_moved, token?_moved]
    rcases h with ⟨⟨p, hp⟩, hkind⟩ | ⟨hnone, hend⟩
    · left
      rw [hp]
      change some (Token.mk t.kind t.pos) = some t ∧ some (Token.mk t.kind t'.pos) = some t'
      rw [← hkind]
      exact ⟨hkind ▸ rfl, rfl⟩
    · right
      rw [hnone]
      exact ⟨rfl, rfl, hend⟩
  · rw [pos_moved, pos_moved]
    rcases message_moved e with hsame | ⟨front, back, hwording⟩
    · exact .inl (hsame _ _)
    · exact .inr ⟨front, back, hwording _, hwording _⟩

/-- An error about a queue of kinds becomes corresponding errors about tokens of these kinds. -/
theorem ParseError.corresponds_map_offset {e : ParseError}
    (hkinds : tokens.map Token.kind = tokens'.map Token.kind)
    (h : tokens.getLast? = some ⟨.eof, n⟩) (h' : tokens'.getLast? = some ⟨.eof, n'⟩)
    (he : (∃ t ∈ (Queue.numbered (tokens.map Token.kind)).tokens, e.token? = some t) ∨
      e.token? = none ∧ e.pos = (Queue.numbered (tokens.map Token.kind)).position) :
    Corresponds tokens tokens' (e.map id (offset tokens)) (e.map id (offset tokens')) := by
  rw [map_id_eq_moved, map_id_eq_moved]
  rcases he with ⟨t, ht, hn⟩ | ⟨hnone, hpos⟩
  · obtain ⟨i, hi⟩ := List.mem_iff_getElem?.1 ht
    unfold Queue.numbered at hi
    rw [List.getElem?_mapIdx, Option.map_eq_some_iff] at hi
    obtain ⟨k, hk, rfl⟩ := hi
    have hk' : (tokens'.map Token.kind)[i]? = some k := hkinds ▸ hk
    rw [List.getElem?_map, Option.map_eq_some_iff] at hk hk'
    obtain ⟨t, hi, rfl⟩ := hk
    obtain ⟨t', hi', hkind⟩ := hk'
    have hpos : e.pos = i := pos_of_token? hn
    rw [hpos, offset_of_getElem? hi, offset_of_getElem? hi']
    exact corresponds_moved hi hi' (.inl ⟨⟨i, hn⟩, hkind⟩)
  · have hlast := getElem?_of_getLast? h
    have hlast' := getElem?_of_getLast? h'
    rw [← hkinds] at hlast'
    have hoffset : offset tokens e.pos = n := by
      rw [hpos]
      exact offset_of_getElem? hlast
    have hoffset' : offset tokens' e.pos = n' := by
      rw [hpos]
      exact offset_of_getElem? hlast'
    rw [hoffset, hoffset']
    exact corresponds_moved hlast hlast' (.inr ⟨hnone, rfl, rfl⟩)

end

section

variable {order : OperandOrder} {text text' : Text} {tokens tokens' : List Token}

theorem getLast?_of_tokenize (h : (tokenize text).result = .ok tokens) :
    tokens.getLast? = some ⟨.eof, text.encode.length⟩ := by
  obtain ⟨ts, _, _, _, _, _, _, rfl⟩ := exists_yields_of_tokenize h
  exact List.getLast?_concat

/-- A text is parsed like the kinds of its tokens. -/
theorem result_parse_eq_numbered (order : OperandOrder) (h : (tokenize text).result = .ok tokens) :
    (parse order text).result = mapBoth id (SyntaxError.map id (offset tokens) id)
      (parseFrom order (Queue.numbered (tokens.map Token.kind))).1.result := by
  have hqueue := (numbered_map_offset (getLast?_of_tokenize h)).symm
  have hfollows := parseFrom_follows (carries_id order) (Queue.follows (offset tokens)) hqueue
  rw [result_parse_of_tokenize order h]
  exact congrArg Traced.result hfollows.1

/-- Texts with tokens of the same kinds have the same tree and the same value, or fail with
corresponding errors. -/
theorem layout_irrelevant (order : OperandOrder) (h : (tokenize text).result = .ok tokens)
    (h' : (tokenize text').result = .ok tokens')
    (hkinds : tokens.map Token.kind = tokens'.map Token.kind) :
    (∃ t, (parse order text).result = .ok t ∧ (parse order text').result = .ok t ∧
        ∀ simplify, ∃ v, (run simplify order text).result = .ok v ∧
          (run simplify order text').result = .ok v) ∨
      ∃ e e', (parse order text).result = .error (.structural e) ∧
        (parse order text').result = .error (.structural e') ∧ ParseError.Corresponds tokens tokens' e e' ∧
        ∀ simplify, (run simplify order text).result = .error (.unreadable (.structural e)) ∧
          (run simplify order text').result = .error (.unreadable (.structural e')) := by
  have hparse := result_parse_eq_numbered order h
  have hparse' := result_parse_eq_numbered order h'
  -- Both texts are now parsed like one queue, which has the offsets of neither.
  rw [← hkinds] at hparse'
  cases hx : (parseFrom order (Queue.numbered (tokens.map Token.kind))).1.result with
  | ok t =>
    rw [hx] at hparse hparse'
    left
    refine ⟨t, hparse, hparse', fun simplify => ?_⟩
    exact ⟨_, result_run_of_parse simplify hparse, result_run_of_parse simplify hparse'⟩
  | error e =>
    obtain ⟨e, rfl, he⟩ := Queue.names_of_parseFrom hx
    rw [hx] at hparse hparse'
    right
    refine ⟨_, _, hparse, hparse', ?_, fun simplify => ⟨?_, ?_⟩⟩
    · exact ParseError.corresponds_map_offset hkinds (getLast?_of_tokenize h)
        (getLast?_of_tokenize h') he
    · exact result_run_of_parse_error simplify hparse
    · exact result_run_of_parse_error simplify hparse'

/-- The sum without a right operand is named at its own offset in each of two layouts. -/
theorem layout_irrelevant_missing_operand :
    ∃ tokens tokens' : List Token,
      ((tokenize (.ofString "(1+)")).result = .ok tokens ∧
        (tokenize (.ofString "( 1 + )\n")).result = .ok tokens' ∧
        tokens.map Token.kind = tokens'.map Token.kind) ∧
      (parse .written (.ofString "(1+)")).result = .error (.structural (.missingOperand .add 2)) ∧
      (parse .written (.ofString "( 1 + )\n")).result =
        .error (.structural (.missingOperand .add 4)) ∧
      ParseError.Corresponds tokens tokens' (.missingOperand .add 2) (.missingOperand .add 4) := by
  have hread : Yields (Lexer.ofText (.ofString "(1+)"))
      [(.lparen, 0), (.lit .one, 1), (.op .add, 2), (.rparen, 3)] ⟨[], 4⟩ :=
    .token rfl (.token rfl (.token rfl (.token rfl (.done _))))
  have hread' : Yields (Lexer.ofText (.ofString "( 1 + )\n"))
      [(.lparen, 0), (.lit .one, 2), (.op .add, 4), (.rparen, 6)] ⟨[10], 7⟩ :=
    .token rfl (.token rfl (.token rfl (.token rfl (.done _))))
  have htokens : (tokenize (.ofString "(1+)")).result = _ := Lexer.tokens_of_yields hread rfl
  have htokens' : (tokenize (.ofString "( 1 + )\n")).result = _ := Lexer.tokens_of_yields hread' rfl
  have hparse : (parse .written (.ofString "(1+)")).result = _ := Stacks.read_of_yields hread .start
  have hparse' : (parse .written (.ofString "( 1 + )\n")).result = _ :=
    Stacks.read_of_yields hread' .start
  refine ⟨_, _, ⟨htokens, htokens', rfl⟩, hparse, hparse', ?_⟩
  obtain ⟨t, hok, _⟩ | ⟨e, e', he, he', hcorresponds, _⟩ :=
    layout_irrelevant .written htokens htokens' rfl
  · rw [hparse] at hok
    cases hok
  · rw [hparse] at he
    rw [hparse'] at he'
    cases he
    cases he'
    exact hcorresponds

end

end ZeroOne
