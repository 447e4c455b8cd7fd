import ZeroOne.Parser

/-! Parsing from a source: the terminals that it hands out are placed in turn, and what comes behind
them decides how the parse ends. -/
namespace ZeroOne

def Stacks.placeAll (order : OperandOrder) (s : Stacks) (ts : List (Terminal × Int)) :
    Traced ParseError Stacks :=
  ts.foldlM (fun s t => s.place order t.1 t.2) s

/-- A source hands out terminals in turn, and a source is left behind them. -/
inductive Yields {σ : Type} [TokenSource σ] : σ → List (Terminal × Int) → σ → Prop
  | done (source : σ) : Yields source [] source
  | token {source source' last : σ} {es : List Event} {t : Terminal} {p : Int}
      {ts : List (Terminal × Int)} :
    TokenSource.next source = (⟨es, .ok ⟨.terminal t, p⟩⟩, source') → Yields source' ts last →
      Yields source ((t, p) :: ts) last

section

variable {σ : Type} [TokenSource σ] {source source' last : σ} {es : List Event}
  {ts us : List (Terminal × Int)}

theorem Yields.trans (h : Yields source ts source') (h' : Yields source' us last) :
    Yields source (ts ++ us) last := by
  induction h with
  | done => exact h'
  | token hn _ ih => exact .token hn (ih h')

theorem exists_yields (source : σ) :
    ∃ ts source', Yields source ts source' ∧
      ((∃ es p last, TokenSource.next source' = (⟨es, .ok ⟨.eof, p⟩⟩, last)) ∨
        ∃ es e last, TokenSource.next source' = (⟨es, .error e⟩, last)) := by
  induction hn : TokenSource.remaining source using Nat.strongRecOn generalizing source with
  | ind n ih =>
    rcases hs : TokenSource.next source with ⟨⟨es, e | ⟨t | _, p⟩⟩, next⟩
    · exact ⟨[], source, .done source, .inr ⟨es, e, next, hs⟩⟩
    · obtain ⟨ts, source', hy, hend⟩ := ih _ (hn ▸ TokenSource.remaining_next hs) next rfl
      exact ⟨(t, p) :: ts, source', .token hs hy, hend⟩
    · exact ⟨[], source, .done source, .inl ⟨es, p, next, hs⟩⟩

namespace Stacks

variable {order : OperandOrder} {s s' : Stacks}

theorem reduce_eq_ok {o : Operator} {p : Int} {operands operands' : List Tree}
    (h : (reduce order o p operands).result = .ok operands') :
    ∃ l r below, operands = r :: l :: below ∧ operands' = order.combine o l r :: below := by
  cases operands with
  | nil => cases h
  | cons r operands =>
    cases operands with
    | nil => cases h
    | cons l below =>
      cases h
      exact ⟨l, r, below, rfl, rfl⟩

theorem reduce_eq_error {e : ParseError} {o : Operator} {p : Int} {operands : List Tree}
    (h : (reduce order o p operands).result = .error e) : e = .missingOperand o p := by
  rcases operands with _ | ⟨r, _ | ⟨l, below⟩⟩
  · exact (Except.error.inj h).symm
  · exact (Except.error.inj h).symm
  · cases h

/-- Reductions that go on as long as operators wait end at a missing operand, at the bottom of the stack, or
at a group. -/
theorem reduceAll_cases (order : OperandOrder) (pending : List Pending) (operands : List Tree) :
    (∃ o q, .operator o q ∈ pending ∧
        (reduceWhile order (fun _ => true) pending operands).result = .error (.missingOperand o q)) ∨
      (∃ trees, (reduceWhile order (fun _ => true) pending operands).result = .ok ⟨[], trees⟩) ∨
      ∃ q rest trees,
        (reduceWhile order (fun _ => true) pending operands).result = .ok ⟨.group q :: rest, trees⟩ := by
  induction pending generalizing operands with
  | nil => exact .inr (.inl ⟨operands, rfl⟩)
  | cons q pending ih =>
    cases q with
    | group p => exact .inr (.inr ⟨p, pending, operands, rfl⟩)
    | operator o p =>
      rw [reduceWhile, if_pos rfl, Traced.result_bind]
      rcases hr : (reduce order o p operands).result with e | operands'
      · obtain rfl := reduce_eq_error hr
        exact .inl ⟨o, p, List.mem_cons_self, rfl⟩
      · rcases ih operands' with ⟨o', q, hq, h⟩ | h
        · exact .inl ⟨o', q, List.mem_cons_of_mem _ hq, h⟩
        · exact .inr h

/-- At the end of the input an operand is missing, or a group is open, or some trees are left. -/
theorem finish_cases (order : OperandOrder) (s : Stacks) (p : Int) :
    (∃ o q, .operator o q ∈ s.pending ∧ (s.finish order p).result = .error (.missingOperand o q)) ∨
      (∃ trees, (reduceWhile order (fun _ => true) s.pending s.operands).result = .ok ⟨[], trees⟩) ∨
      ∃ q rest trees,
        (reduceWhile order (fun _ => true) s.pending s.operands).result = .ok ⟨.group q :: rest, trees⟩ ∧
          (s.finish order p).result = .error (.unclosed q) := by
  unfold finish
  rw [Traced.result_bind]
  rcases reduceAll_cases order s.pending s.operands with ⟨o, q, hq, h⟩ | h | ⟨q, rest, trees, h⟩
  · rw [h]
    exact .inl ⟨o, q, hq, rfl⟩
  · exact .inr (.inl h)
  · rw [h]
    exact .inr (.inr ⟨q, rest, trees, rfl, rfl⟩)

theorem place_op_eq_ok {o : Operator} {p : Int} (h : (s.place order (.op o) p).result = .ok s') :
    ∃ r, (reduceWhile order (fun top => o.precedence ≤ top.precedence) s.pending s.operands).result =
      .ok r ∧ s' = ⟨.operator o p :: r.pending, r.operands⟩ := by
  rw [place, Traced.result_bind_eq_ok_iff] at h
  obtain ⟨r, hr, h⟩ := h
  cases h
  exact ⟨r, hr, rfl⟩

theorem place_rparen_eq_ok {p : Int} (h : (s.place order .rparen p).result = .ok s') :
    ∃ q, (reduceWhile order (fun _ => true) s.pending s.operands).result =
      .ok ⟨.group q :: s'.pending, s'.operands⟩ := by
  rw [place, Traced.result_bind_eq_ok_iff] at h
  obtain ⟨⟨pending, operands⟩, hr, h⟩ := h
  cases pending with
  | nil => cases h
  | cons q pending =>
    cases q with
    | operator o p => cases h
    | group q =>
      cases h
      exact ⟨q, hr⟩

theorem placeAll_cons (s : Stacks) (t : Terminal × Int) (ts : List (Terminal × Int)) :
    s.placeAll order (t :: ts) = s.place order t.1 t.2 >>= fun s' => s'.placeAll order ts := rfl

theorem placeAll_append (s : Stacks) (ts us : List (Terminal × Int)) :
    s.placeAll order (ts ++ us) = s.placeAll order ts >>= fun s' => s'.placeAll order us := by
  unfold placeAll
  exact List.foldlM_append

/-- What holds of the stacks and of the terminals that led to them, and is kept by one more, is kept by all. -/
theorem placeAll_keeps {P : List (Terminal × Int) → Stacks → Prop}
    (hP : ∀ {us r t p r'}, P us r → (r.place order t p).result = .ok r' → P (us ++ [(t, p)]) r')
    (hs : P us s) (h : (s.placeAll order ts).result = .ok s') : P (us ++ ts) s' := by
  induction ts generalizing s us with
  | nil =>
    cases h
    rw [List.append_nil]
    exact hs
  | cons t ts ih =>
    rw [placeAll_cons, Traced.result_bind_eq_ok_iff] at h
    obtain ⟨r, hr, h⟩ := h
    rw [List.append_cons]
    exact ih (hP hs hr) h

/-- An error on the way is that of one terminal, behind others that are placed. -/
theorem exists_place_eq_error {e : ParseError} (h : (s.placeAll order ts).result = .error e) :
    ∃ us t vs r, ts = us ++ t :: vs ∧ (s.placeAll order us).result = .ok r ∧
      (r.place order t.1 t.2).result = .error e := by
  induction ts generalizing s with
  | nil => cases h
  | cons t ts ih =>
    rw [placeAll_cons, Traced.result_bind_eq_error_iff] at h
    rcases h with hp | ⟨r, hr, h⟩
    · exact ⟨[], t, ts, s, rfl, rfl, hp⟩
    · obtain ⟨us, u, vs, r', rfl, hus, hu⟩ := ih h
      refine ⟨t :: us, u, vs, r', rfl, ?_, hu⟩
      rw [placeAll_cons, Traced.result_bind, hr]
      exact hus

theorem read_eq_of_error (s : Stacks) {e : LexError}
    (h : TokenSource.next source = (⟨es, .error e⟩, source')) :
    s.read order source = (⟨es, .error (.lexical e)⟩, source') := by
  rw [read]
  split <;> simp_all

theorem read_eq_of_eof (s : Stacks) {p : Int}
    (h : TokenSource.next source = (⟨es, .ok ⟨.eof, p⟩⟩, source')) :
    s.read order source =
      (((s.finish order (TokenSource.position source')).mapError .structural).after es, source') := by
  rw [read]
  split <;> simp_all

theorem read_eq_of_terminal (s : Stacks) {t : Terminal} {p : Int}
    (h : TokenSource.next source = (⟨es, .ok ⟨.terminal t, p⟩⟩, source')) :
    s.read order source =
      match s.place order t p with
      | ⟨fs, .error e⟩ => (⟨es ++ fs, .error (.structural e)⟩, source')
      | ⟨fs, .ok s'⟩ =>
        ((s'.read order source').1.after (es ++ fs), (s'.read order source').2) := by
  rw [read]
  split
  · simp_all
  · simp_all
  · rename_i hn
    obtain ⟨⟨rfl, rfl, rfl⟩, rfl⟩ := by simpa using hn.symm.trans h
    rfl

theorem read_of_error (s : Stacks) {e : LexError}
    (h : TokenSource.next source = (⟨es, .error e⟩, source')) :
    (s.read order source).1.result = .error (.lexical e) := by
  rw [read_eq_of_error s h]

theorem read_of_eof (s : Stacks) {p : Int}
    (h : TokenSource.next source = (⟨es, .ok ⟨.eof, p⟩⟩, source')) :
    (s.read order source).1.result =
      (s.finish order (TokenSource.position source')).result.mapError .structural := by
  rw [read_eq_of_eof s h]
  rfl

theorem read_of_terminal (s : Stacks) {t : Terminal} {p : Int}
    (h : TokenSource.next source = (⟨es, .ok ⟨.terminal t, p⟩⟩, source')) :
    (s.read order source).1.result =
      match (s.place order t p).result with
      | .ok s' => (s'.read order source').1.result
      | .error e => .error (.structural e) := by
  rw [read_eq_of_terminal s h]
  rcases s.place order t p with ⟨fs, e | s'⟩ <;> rfl

/-- The terminals that a source hands out are placed one by one; an error of one of them is final. -/
theorem read_of_yields (h : Yields source ts source') (s : Stacks) :
    (s.read order source).1.result =
      match (s.placeAll order ts).result with
      | .ok s' => (s'.read order source').1.result
      | .error e => .error (.structural e) := by
  induction h generalizing s with
  | done => rfl
  | @token source next last es t p ts hn _ ih =>
    rw [read_of_terminal s hn, placeAll_cons, Traced.result_bind]
    rcases (s.place order t p).result with e | s'
    · rfl
    · exact ih s'

/-- Behind terminals that can all be placed a parse goes on from the stacks that they leave, and their
reductions are on its record. -/
theorem exists_read_eq_after (hy : Yields source ts source') (h : s.placeAll order ts = ⟨es, .ok s'⟩) :
    ∃ fs, es.Sublist fs ∧
      s.read order source = ((s'.read order source').1.after fs, (s'.read order source').2) := by
  induction hy generalizing s es with
  | done source =>
    cases h
    exact ⟨[], .slnil, rfl⟩
  | @token source next last gs t p ts hn _ ih =>
    rw [placeAll_cons] at h
    rcases hp : s.place order t p with ⟨hs, e | r⟩
    · rw [hp] at h
      cases h
    · rcases hrest : r.placeAll order ts with ⟨ks, x⟩
      rw [hp, Traced.mk_ok_bind, hrest] at h
      obtain ⟨rfl, rfl⟩ : hs ++ ks = es ∧ x = .ok s' := Traced.mk.inj h
      obtain ⟨fs, hfs, hread⟩ := ih hrest
      refine ⟨gs ++ hs ++ fs, (List.sublist_append_right gs hs).append hfs, ?_⟩
      rw [read_eq_of_terminal s hn, hp]
      simp only [hread, Traced.after_after]

theorem left_of_yields (h : Yields source ts source') (hp : (s.placeAll order ts).result = .ok s') :
    (s.read order source).2 = (s'.read order source').2 := by
  rcases hplace : s.placeAll order ts with ⟨es, x⟩
  rw [hplace] at hp
  obtain rfl : x = .ok s' := hp
  obtain ⟨_, _, hread⟩ := exists_read_eq_after h hplace
  rw [hread]

/-- A source that is read to its end is parsed as its terminals are. -/
theorem read_of_yields_eof {p : Int} (h : Yields source ts source')
    (hn : TokenSource.next source' = (⟨es, .ok ⟨.eof, p⟩⟩, last)) (s : Stacks) :
    (s.read order source).1.result =
      (s.placeAll order ts >>= fun s' => s'.finish order (TokenSource.position last)).result.mapError
        .structural := by
  rw [read_of_yields h, Traced.result_bind]
  rcases (s.placeAll order ts).result with e | s'
  · rfl
  · exact read_of_eof s' hn

/-- A parse stops at a terminal that cannot be placed, or behind all terminals, at the end of the
input or a lexical error. -/
inductive Halts (order : OperandOrder) (s : Stacks) (source : σ) : Except SyntaxError Tree → σ → Prop
  | misplaced {ts : List (Terminal × Int)} {source' : σ} {e : ParseError} :
    Yields source ts source' → (s.placeAll order ts).result = .error e →
      Halts order s source (.error (.structural e)) source'
  | finished {ts : List (Terminal × Int)} {source' last : σ} {s' : Stacks} {es : List Event} {p : Int} :
    Yields source ts source' → (s.placeAll order ts).result = .ok s' →
      TokenSource.next source' = (⟨es, .ok ⟨.eof, p⟩⟩, last) →
      Halts order s source
        ((s'.finish order (TokenSource.position last)).result.mapError .structural) last
  | interrupted {ts : List (Terminal × Int)} {source' last : σ} {s' : Stacks} {es : List Event}
      {e : LexError} :
    Yields source ts source' → (s.placeAll order ts).result = .ok s' →
      TokenSource.next source' = (⟨es, .error e⟩, last) →
      Halts order s source (.error (.lexical e)) last

theorem Halts.token {x : Except SyntaxError Tree} {t : Terminal} {p : Int}
    (hn : TokenSource.next source = (⟨es, .ok ⟨.terminal t, p⟩⟩, source'))
    (hp : (s.place order t p).result = .ok s') (h : Halts order s' source' x last) :
    Halts order s source x last := by
  have hall : ∀ ts, (s.placeAll order ((t, p) :: ts)).result = (s'.placeAll order ts).result := by
    intro ts
    rw [placeAll_cons, Traced.result_bind, hp]
    rfl
  cases h with
  | misplaced hy he => exact .misplaced (.token hn hy) ((hall _).trans he)
  | finished hy hs hend => exact .finished (.token hn hy) ((hall _).trans hs) hend
  | interrupted hy hs hend => exact .interrupted (.token hn hy) ((hall _).trans hs) hend

theorem halts_read (order : OperandOrder) (s : Stacks) (source : σ) :
    Halts order s source (s.read order source).1.result (s.read order source).2 := by
  induction hm : TokenSource.remaining source using Nat.strongRecOn generalizing source s with
  | ind n ih =>
    rcases hn : TokenSource.next source with ⟨⟨es, e | ⟨t | _, p⟩⟩, next⟩
    · rw [read_eq_of_error s hn]
      exact .interrupted (.done source) rfl hn
    · rw [read_eq_of_terminal s hn]
      rcases hp : s.place order t p with ⟨fs, e | s'⟩
      · have hall : (s.placeAll order [(t, p)]).result = .error e := by
          rw [placeAll_cons, hp]
          rfl
        exact .misplaced (.token hn (.done next)) hall
      · have hrest := ih _ (hm ▸ TokenSource.remaining_next hn) s' next rfl
        exact .token hn (congrArg Traced.result hp) hrest
    · rw [read_eq_of_eof s hn]
      exact .finished (.done source) rfl hn

/-- A parse succeeds only behind the last token of the source. -/
theorem read_eq_ok_iff {s : Stacks} {t : Tree} :
    (s.read order source).1.result = .ok t ↔
      ∃ ts source' es p last s', Yields source ts source' ∧
        TokenSource.next source' = (⟨es, .ok ⟨.eof, p⟩⟩, last) ∧
        (s.placeAll order ts).result = .ok s' ∧
        (s'.finish order (TokenSource.position last)).result = .ok t := by
  constructor
  · intro h
    obtain ⟨ts, source', hy, hend⟩ := exists_yields source
    rw [read_of_yields hy] at h
    rcases hp : (s.placeAll order ts).result with e | s'
    · simp [hp] at h
    · have hr : (s'.read order source').1.result = .ok t := by simpa only [hp] using h
      obtain ⟨es, p, last, hn⟩ | ⟨es, e, last, hn⟩ := hend
      · rw [read_of_eof s' hn] at hr
        rcases hf : (s'.finish order (TokenSource.position last)).result with e | u
        · rw [hf] at hr
          cases hr
        · rw [hf] at hr
          obtain rfl : u = t := Except.ok.inj hr
          exact ⟨ts, source', es, p, last, s', hy, hn, hp, hf⟩
      · simp [read_of_error s' hn] at hr
  · rintro ⟨ts, source', es, p, last, s', hy, hn, hp, hf⟩
    rw [read_of_yields hy, hp]
    change (s'.read order source').1.result = .ok t
    rw [read_of_eof s' hn, hf]
    rfl

end Stacks

end

def toTokens (ts : List (Terminal × Int)) : List Token := ts.map fun t => ⟨.terminal t.1, t.2⟩

theorem Queue.yields (ts : List (Terminal × Int)) (us : List Token) (p : Int) :
    Yields (⟨toTokens ts ++ us, p⟩ : Queue) ts ⟨us, p⟩ := by
  induction ts with
  | nil => exact .done _
  | cons t ts ih => exact .token rfl ih

/-- Tokens that stand ready are parsed as their terminals are placed. -/
theorem result_parseFrom_toTokens (order : OperandOrder) (ts : List (Terminal × Int)) (pos : Int) :
    (parseFrom order (⟨toTokens ts, pos⟩ : Queue)).1.result =
      (Stacks.start.placeAll order ts >>= fun s => s.finish order pos).result.mapError
        .structural := by
  have hy : Yields (⟨toTokens ts, pos⟩ : Queue) ts ⟨[], pos⟩ := by
    have hqueue := Queue.yields ts [] pos
    rwa [List.append_nil] at hqueue
  have hn : TokenSource.next (⟨[], pos⟩ : Queue) = (⟨[], .ok ⟨.eof, pos⟩⟩, ⟨[], pos⟩) := rfl
  exact Stacks.read_of_yields_eof hy hn .start

def Token.terminal? : Token → Option Terminal
  | ⟨.terminal t, _⟩ => some t
  | ⟨.eof, _⟩ => none

def terminals (tokens : List Token) : List Terminal := tokens.filterMap Token.terminal?

theorem terminals_append_eof (ts : List (Terminal × Int)) (p : Int) :
    terminals (ts.map (fun t => ⟨.terminal t.1, t.2⟩) ++ [⟨.eof, p⟩]) = ts.map (·.1) := by
  induction ts with
  | nil => rfl
  | cons t ts ih => exact congrArg (t.1 :: ·) ih

theorem Lexer.tokens_eq (s : Lexer) {s' : Lexer} {x : Traced LexError Token} : s.next = (x, s') →
    s.tokens =
      match x with
      | ⟨es, .error e⟩ => (⟨es, .error e⟩, s')
      | ⟨es, .ok ⟨.eof, p⟩⟩ => (⟨es, .ok [⟨.eof, p⟩]⟩, s')
      | ⟨es, .ok ⟨.terminal t, p⟩⟩ =>
        (⟨es ++ s'.tokens.1.events, s'.tokens.1.result.map (⟨.terminal t, p⟩ :: ·)⟩, s'.tokens.2) := by
  intro h
  rw [tokens]
  split
  all_goals
    rename_i hn
    obtain ⟨rfl, rfl⟩ := Prod.mk.inj (hn.symm.trans h)
    rfl

theorem Lexer.tokens_of_yields {s last behind : Lexer} {ts : List (Terminal × Int)} {es : List Event}
    {p : Int} (hy : Yields s ts last) (hn : TokenSource.next last = (⟨es, .ok ⟨.eof, p⟩⟩, behind)) :
    s.tokens.1.result = .ok (ts.map (fun t => ⟨.terminal t.1, t.2⟩) ++ [⟨.eof, p⟩]) := by
  induction hy with
  | done s =>
    rw [tokens_eq s hn]
    rfl
  | token hs _ ih =>
    rw [tokens_eq _ hs]
    exact congrArg (Except.map _) (ih hn)

theorem Lexer.tokens_of_yields_error {s last behind : Lexer} {ts : List (Terminal × Int)}
    {es : List Event} {e : LexError} (hy : Yields s ts last)
    (hn : TokenSource.next last = (⟨es, .error e⟩, behind)) : s.tokens.1.result = .error e := by
  induction hy with
  | done s => rw [tokens_eq s hn]
  | token hs _ ih =>
    rw [tokens_eq _ hs]
    exact congrArg (Except.map _) (ih hn)

end ZeroOne
