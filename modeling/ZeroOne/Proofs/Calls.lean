import ZeroOne.Proofs.Scan
import ZeroOne.Proofs.Relabeling

/-! Calls one after another on the same lexer, from readers and parsers that share it. Together they
come to the tokens that single reads would, and these stand one behind the other. -/
namespace ZeroOne

/-- Reads a token, some tokens in turn, or all that are left, or lets a parser read an expression.
-/
inductive Call
  | next
  | take (count : Nat)
  | rest
  | parse (order : OperandOrder)
  deriving DecidableEq, Repr

inductive Outcome
  | token (t : Token)
  | tokens (ts : List Token)
  | tree (t : Tree)
  deriving DecidableEq, Repr

/-- The tokens that an outcome hands out, but for the end of the input. A tree hands out none. -/
def Outcome.tokens? : Outcome → Option (List Token)
  | .token t => some ([t].filter (·.kind ≠ .eof))
  | .tokens ts => some (ts.filter (·.kind ≠ .eof))
  | .tree _ => none

def Event.token? : Event → Option Token
  | .token t => some t
  | _ => none

def Traced.tokens {ε α : Type} (x : Traced ε α) : List Token := x.events.filterMap Event.token?

namespace Lexer

/-- Carries out a call. A failure leaves the lexer wherever it has come to. -/
def call (s : Lexer) : Call → Traced SyntaxError Outcome × Lexer
  | .next => (s.next.1.change id .token .lexical, s.next.2)
  | .take n => ((take n s).1.change id .tokens .lexical, (take n s).2)
  | .rest => (s.tokens.1.change id .tokens .lexical, s.tokens.2)
  | .parse order => ((parseFrom order s).1.change id .tree id, (parseFrom order s).2)

/-- Carries out calls in turn; the tokens that they have read, and the lexer that is left. -/
def calls (s : Lexer) : List Call → List Token × Lexer
  | [] => ([], s)
  | c :: cs => ((s.call c).1.tokens ++ ((s.call c).2.calls cs).1, ((s.call c).2.calls cs).2)

theorem calls_append (s : Lexer) (cs cs' : List Call) :
    s.calls (cs ++ cs') =
      ((s.calls cs).1 ++ ((s.calls cs).2.calls cs').1, ((s.calls cs).2.calls cs').2) := by
  induction cs generalizing s with
  | nil => rfl
  | cons c cs ih =>
    rw [List.cons_append, calls, calls, ih, List.append_assoc]

end Lexer

section

variable {ε ε' α β : Type}

theorem Traced.tokens_after (es : List Event) (x : Traced ε α) :
    (x.after es).tokens = es.filterMap Event.token? ++ x.tokens :=
  List.filterMap_append

theorem Traced.tokens_change_id (x : Traced ε α) (f : α → β) (g : ε → ε') :
    (x.change id f g).tokens = x.tokens := by
  rw [tokens, tokens, change, List.map_id]

theorem Traced.exists_of_change_eq_ok {x : Traced ε α} {m : Event → Event} {f : α → β} {g : ε → ε'}
    {b : β} (h : (x.change m f g).result = .ok b) : ∃ a, x.result = .ok a ∧ b = f a := by
  obtain ⟨es, e | a⟩ := x
  · cases h
  · exact ⟨a, rfl, (Except.ok.inj h).symm⟩

inductive Event.IsReduction : Event → Prop
  | composite (o : Operator) (l r : Tree) : IsReduction (.reduce o (.binary (.op o) l r))

def Traced.Reduces (x : Traced ε α) : Prop := ∀ e ∈ x.events, e.IsReduction

theorem Traced.reduces_of_nil {x : Traced ε α} (h : x.events = []) : x.Reduces := by
  unfold Reduces
  rw [h]
  exact fun e he => absurd he List.not_mem_nil

theorem Traced.Reduces.bind {x : Traced ε α} {f : α → Traced ε β} (hx : x.Reduces)
    (hf : ∀ a, (f a).Reduces) : (x >>= f).Reduces := by
  obtain ⟨es, e | a⟩ := x
  · exact hx
  · intro e he
    rcases List.mem_append.1 he with he | he
    · exact hx e he
    · exact hf a e he

theorem Traced.Reduces.tokens_eq_nil {x : Traced ε α} (h : x.Reduces) : x.tokens = [] := by
  apply List.filterMap_eq_nil_iff.2
  intro e he
  cases h e he
  rfl

end

namespace Stacks

variable {order : OperandOrder}

theorem reduces_reduce (o : Operator) (p : Int) (operands : List Tree) :
    (reduce order o p operands).Reduces := by
  rcases operands with _ | ⟨r, _ | ⟨l, below⟩⟩
  · exact Traced.reduces_of_nil rfl
  · exact Traced.reduces_of_nil rfl
  · intro e he
    obtain rfl := List.mem_singleton.1 he
    cases order <;> cases o <;> exact .composite _ _ _

theorem reduces_reduceWhile (due : Operator → Bool) (pending : List Pending) (operands : List Tree) :
    (reduceWhile order due pending operands).Reduces := by
  induction pending generalizing operands with
  | nil => exact Traced.reduces_of_nil rfl
  | cons q pending ih =>
    cases q with
    | group p => exact Traced.reduces_of_nil rfl
    | operator o p =>
      unfold reduceWhile
      split
      · exact (reduces_reduce o p operands).bind ih
      · exact Traced.reduces_of_nil rfl

/-- The parser records what it builds, but no tokens. -/
theorem reduces_place (s : Stacks) (t : Terminal) (p : Int) : (s.place order t p).Reduces := by
  cases t with
  | lit l => exact Traced.reduces_of_nil rfl
  | lparen => exact Traced.reduces_of_nil rfl
  | op o => exact (reduces_reduceWhile _ _ _).bind fun _ => Traced.reduces_of_nil rfl
  | rparen =>
    refine (reduces_reduceWhile _ _ _).bind fun s => Traced.reduces_of_nil ?_
    split <;> rfl

theorem reduces_finish (s : Stacks) (p : Int) : (s.finish order p).Reduces := by
  refine (reduces_reduceWhile _ _ _).bind fun s => Traced.reduces_of_nil ?_
  split <;> rfl

end Stacks

namespace Lexer

/-- Single reads one after another, the tokens that they come to, and the lexer that is left. -/
inductive Reads : Lexer → List Token → Lexer → Prop
  | done (s : Lexer) : Reads s [] s
  | next {s s' last : Lexer} {x : Traced LexError Token} {ts : List Token} :
    s.next = (x, s') → Reads s' ts last → Reads s (x.tokens ++ ts) last

section

variable {s s' last : Lexer} {ts us : List Token}

theorem Reads.trans (h : Reads s ts s') (h' : Reads s' us last) : Reads s (ts ++ us) last := by
  induction h with
  | done => exact h'
  | next hn _ ih =>
    rw [List.append_assoc]
    exact .next hn (ih h')

theorem reads_of_next {x : Traced LexError Token} (h : s.next = (x, s')) : Reads s x.tokens s' := by
  have hread := Reads.next h (.done s')
  rwa [List.append_nil] at hread

theorem reads_take (count : Nat) (s : Lexer) :
    Reads s (take count s).1.tokens (take count s).2 := by
  induction count generalizing s with
  | zero => exact .done s
  | succ count ih =>
    unfold take
    rcases hs : s.next with ⟨⟨es, e | ⟨t | _, p⟩⟩, s'⟩
    · exact reads_of_next hs
    · have hrest := Reads.next hs (ih s')
      rwa [Traced.tokens, Traced.tokens, ← List.filterMap_append] at hrest
    · exact reads_of_next hs

theorem reads_tokens (s : Lexer) : Reads s s.tokens.1.tokens s.tokens.2 := by
  induction hlength : s.rest.length using Nat.strongRecOn generalizing s with
  | ind m ih =>
    rcases hs : s.next with ⟨⟨es, e | ⟨t | _, p⟩⟩, s'⟩
    all_goals rw [tokens_eq s hs]
    · exact reads_of_next hs
    · have hrest := Reads.next hs (ih _ (hlength ▸ TokenSource.remaining_next hs) s' rfl)
      rwa [Traced.tokens, Traced.tokens, ← List.filterMap_append] at hrest
    · exact reads_of_next hs

theorem reads_read (order : OperandOrder) (held : Stacks) (s : Lexer) :
    Reads s (held.read order s).1.tokens (held.read order s).2 := by
  induction hlength : s.rest.length using Nat.strongRecOn generalizing s held with
  | ind m ih =>
    rcases hs : s.next with ⟨⟨es, e | ⟨t | _, p⟩⟩, s'⟩
    · rw [held.read_eq_of_error hs]
      exact reads_of_next hs
    · have hplace : (held.place order t p).tokens = [] := (held.reduces_place t p).tokens_eq_nil
      rw [held.read_eq_of_terminal hs]
      rcases hp : held.place order t p with ⟨fs, e | held'⟩
      all_goals
        rw [hp] at hplace
        have hfs : fs.filterMap Event.token? = [] := hplace
      · have hread := reads_of_next hs
        simp only [Traced.tokens, List.filterMap_append, hfs, List.append_nil]
        exact hread
      · have hrest := Reads.next hs
          (ih _ (hlength ▸ TokenSource.remaining_next hs) held' s' rfl)
        simp only [Traced.tokens_after, List.filterMap_append, hfs, List.append_nil]
        exact hrest
    · have hfinish : ((held.finish order (TokenSource.position s')).mapError
          SyntaxError.structural).tokens = [] := (held.reduces_finish _).tokens_eq_nil
      rw [held.read_eq_of_eof hs, Traced.tokens_after, hfinish, List.append_nil]
      exact reads_of_next hs

/-- A call is a number of single reads. -/
theorem reads_call (s : Lexer) (c : Call) : Reads s (s.call c).1.tokens (s.call c).2 := by
  cases c with
  | next =>
    unfold call
    rw [Traced.tokens_change_id]
    exact reads_of_next rfl
  | take count =>
    unfold call
    rw [Traced.tokens_change_id]
    exact reads_take count s
  | rest =>
    unfold call
    rw [Traced.tokens_change_id]
    exact reads_tokens s
  | parse order =>
    unfold call
    rw [Traced.tokens_change_id]
    exact reads_read order .start s

theorem reads_calls (s : Lexer) (cs : List Call) : Reads s (s.calls cs).1 (s.calls cs).2 := by
  induction cs generalizing s with
  | nil => exact .done s
  | cons c cs ih => exact (reads_call s c).trans (ih (s.call c).2)

theorem Reads.exists_calls (h : Reads s ts last) :
    ∃ k, s.calls (List.replicate k .next) = (ts, last) := by
  induction h with
  | done s => exact ⟨0, rfl⟩
  | @next s s' last x ts hn _ ih =>
    obtain ⟨k, hk⟩ := ih
    refine ⟨k + 1, ?_⟩
    rw [List.replicate_succ, calls, call, Traced.tokens_change_id, hn, hk]

end

/-- A number of tokens are all terminals, or the input ends behind the terminals, or an error does.
-/
inductive Takes (s : Lexer) : Except LexError (List Token) → Lexer → Prop
  | terminals {ts : List (Terminal × Int)} {s' : Lexer} :
    Yields s ts s' → Takes s (.ok (toTokens ts)) s'
  | finished {ts : List (Terminal × Int)} {s' last : Lexer} {es : List Event} {p : Int} :
    Yields s ts s' → s'.next = (⟨es, .ok ⟨.eof, p⟩⟩, last) →
      Takes s (.ok (toTokens ts ++ [⟨.eof, p⟩])) last
  | interrupted {ts : List (Terminal × Int)} {s' last : Lexer} {es : List Event} {e : LexError} :
    Yields s ts s' → s'.next = (⟨es, .error e⟩, last) → Takes s (.error e) last

section

variable {s s' last : Lexer} {t : Terminal} {p : Int} {es : List Event}

theorem Takes.token {x : Except LexError (List Token)} (hn : s.next = (⟨es, .ok ⟨.terminal t, p⟩⟩, s'))
    (h : Takes s' x last) : Takes s (x.map (⟨.terminal t, p⟩ :: ·)) last := by
  cases h with
  | terminals hy => exact .terminals (.token hn hy)
  | finished hy hend => exact .finished (.token hn hy) hend
  | interrupted hy hend => exact .interrupted (.token hn hy) hend

theorem takes_take (count : Nat) (s : Lexer) :
    Takes s (take count s).1.result (take count s).2 := by
  induction count generalizing s with
  | zero => exact .terminals (.done s)
  | succ count ih =>
    unfold take
    rcases hn : s.next with ⟨⟨es, e | ⟨t | _, p⟩⟩, s'⟩
    · exact .interrupted (.done s) hn
    · exact .token hn (ih s')
    · exact .finished (.done s) hn

theorem takes_tokens (s : Lexer) : Takes s s.tokens.1.result s.tokens.2 := by
  induction hlength : s.rest.length using Nat.strongRecOn generalizing s with
  | ind m ih =>
    rcases hn : s.next with ⟨⟨es, e | ⟨t | _, p⟩⟩, s'⟩
    all_goals rw [tokens_eq s hn]
    · exact .interrupted (.done s) hn
    · exact .token hn (ih _ (hlength ▸ TokenSource.remaining_next hn) s' rfl)
    · exact .finished (.done s) hn

/-- Each terminal that is handed out has a record. -/
theorem reads_of_yields {ts : List (Terminal × Int)} (h : Yields s ts s') :
    Reads s (toTokens ts) s' := by
  induction h with
  | done s => exact .done s
  | token hn _ ih =>
    have hread := Reads.next hn ih
    cases step_of_next hn with
    | terminal t hg hs => exact hread

end

/-- What a reader hands out, but for the end of the input, is what it records. -/
def Recorded (x : Traced LexError (List Token)) : Prop :=
  ∀ ts, x.result = .ok ts → x.tokens = ts.filter (·.kind ≠ .eof)

section

variable {s s' last : Lexer} {es : List Event}

theorem tokens_of_next {t : Token} (hn : s.next = (⟨es, .ok t⟩, s')) :
    es.filterMap Event.token? = [t].filter (·.kind ≠ .eof) := by
  cases step_of_next hn with
  | blanks hg => rfl
  | terminal t hg hs => rfl

theorem recorded_error (es : List Event) (e : LexError) : Recorded ⟨es, .error e⟩ := nofun

theorem recorded_eof {p : Int} (hn : s.next = (⟨es, .ok ⟨.eof, p⟩⟩, s')) :
    Recorded ⟨es, .ok [⟨.eof, p⟩]⟩ := by
  intro ts h
  obtain rfl := Except.ok.inj h
  exact tokens_of_next hn

theorem Recorded.cons {t : Terminal} {p : Int} {x : Traced LexError (List Token)}
    (hn : s.next = (⟨es, .ok ⟨.terminal t, p⟩⟩, s')) (hx : Recorded x) :
    Recorded ⟨es ++ x.events, x.result.map (⟨.terminal t, p⟩ :: ·)⟩ := by
  intro ts h
  have hes := tokens_of_next hn
  obtain ⟨fs, e | us⟩ := x
  · cases h
  · obtain rfl := Except.ok.inj h
    have hfs : fs.filterMap Event.token? = us.filter (·.kind ≠ .eof) := hx us rfl
    rw [Traced.tokens, List.filterMap_append, hes, hfs]
    rfl

theorem recorded_take (count : Nat) (s : Lexer) : Recorded (take count s).1 := by
  induction count generalizing s with
  | zero =>
    intro ts h
    obtain rfl := Except.ok.inj h
    rfl
  | succ count ih =>
    unfold take
    rcases hn : s.next with ⟨⟨es, e | ⟨t | _, p⟩⟩, s'⟩
    · exact recorded_error es e
    · exact .cons hn (ih s')
    · exact recorded_eof hn

theorem recorded_tokens (s : Lexer) : Recorded s.tokens.1 := by
  induction hlength : s.rest.length using Nat.strongRecOn generalizing s with
  | ind m ih =>
    rcases hn : s.next with ⟨⟨es, e | ⟨t | _, p⟩⟩, s'⟩
    all_goals rw [tokens_eq s hn]
    · exact recorded_error es e
    · exact .cons hn (ih _ (hlength ▸ TokenSource.remaining_next hn) s' rfl)
    · exact recorded_eof hn

theorem Recorded.tokens_change {x : Traced LexError (List Token)} (hx : Recorded x) {o : Outcome}
    {ts : List Token} (h : (x.change id Outcome.tokens SyntaxError.lexical).result = .ok o)
    (ho : o.tokens? = some ts) : (x.change id Outcome.tokens SyntaxError.lexical).tokens = ts := by
  obtain ⟨us, hus, rfl⟩ := Traced.exists_of_change_eq_ok h
  obtain rfl := Option.some.inj ho
  rw [Traced.tokens_change_id]
  exact hx us hus

/-- A call records the tokens that it hands out. -/
theorem tokens_call (s : Lexer) (c : Call) {o : Outcome} {ts : List Token}
    (h : (s.call c).1.result = .ok o) (ho : o.tokens? = some ts) : (s.call c).1.tokens = ts := by
  cases c with
  | next =>
    obtain ⟨t, ht, rfl⟩ := Traced.exists_of_change_eq_ok h
    obtain rfl := Option.some.inj ho
    have hn : s.next = (⟨s.next.1.events, .ok t⟩, s.next.2) := by rw [← ht]
    rw [call, Traced.tokens_change_id]
    exact tokens_of_next hn
  | take count => exact (recorded_take count s).tokens_change h ho
  | rest => exact (recorded_tokens s).tokens_change h ho
  | parse order =>
    obtain ⟨t, _, rfl⟩ := Traced.exists_of_change_eq_ok h
    cases ho

theorem Reads.eq_nil {ts : List Token} {p : Int} (h : Reads s ts last)
    (hn : s.next = (⟨es, .ok ⟨.eof, p⟩⟩, s')) : ts = [] := by
  induction h generalizing es p s' with
  | done => rfl
  | next hn' _ ih =>
    rw [hn] at hn'
    cases hn'
    cases step_of_next hn with
    | blanks hg =>
      rw [ih rfl]
      rfl

/-- A source that can be read to its end hands out its terminals in order, however it is read. -/
theorem Reads.isPrefix {us : List (Terminal × Int)} {ts : List Token} {behind : Lexer} {p : Int}
    (h : Reads s ts last) (hy : Yields s us s') (hn : s'.next = (⟨es, .ok ⟨.eof, p⟩⟩, behind)) :
    ts <+: toTokens us := by
  induction h generalizing us with
  | done => exact List.nil_prefix
  | @next s r last x ts hread hrest ih =>
    cases hy with
    | done =>
      have hnil := (Reads.next hread hrest).eq_nil hn
      rw [hnil]
      exact List.nil_prefix
    | @token _ r' _ fs t q us ht hy =>
      have hstep := hread.symm.trans ht
      obtain ⟨rfl, rfl⟩ := Prod.mk.inj hstep
      have htoken : (⟨fs, .ok ⟨.terminal t, q⟩⟩ : Traced LexError Token).tokens =
          [⟨.terminal t, q⟩] := tokens_of_next ht
      rw [htoken]
      exact List.prefix_append_right_inj _ |>.2 (ih hy)

end

/-- The lexer moves on over bytes in ASCII, in which the tokens stand one behind the other. -/
structure Advances (s : Lexer) (ts : List Token) (s' : Lexer) : Prop where
  moved : ∃ u, (∀ b ∈ u, b < 128) ∧ s.rest = u ++ s'.rest ∧ s'.position = s.position + u.length
  within : ∀ t ∈ ts, s.position ≤ t.pos ∧ t.pos < s'.position
  ordered : ts.Pairwise (·.pos < ·.pos)

section

variable {s s' last : Lexer} {ts us : List Token}

theorem Advances.refl (s : Lexer) : Advances s [] s where
  moved := ⟨[], nofun, rfl, rfl⟩
  within := nofun
  ordered := .nil

theorem Advances.le (h : Advances s ts s') : s.position ≤ s'.position := by
  obtain ⟨u, _, _, hposition⟩ := h.moved
  omega

theorem Advances.trans (h : Advances s ts s') (h' : Advances s' us last) :
    Advances s (ts ++ us) last where
  moved := by
    obtain ⟨u, hu, hrest, hposition⟩ := h.moved
    obtain ⟨v, hv, hrest', hposition'⟩ := h'.moved
    refine ⟨u ++ v, fun b hb => (List.mem_append.1 hb).elim (hu b) (hv b), ?_, ?_⟩
    · rw [hrest, hrest', List.append_assoc]
    · rw [hposition', hposition, List.length_append, Nat.add_assoc]
  within t ht := by
    have hle := h.le
    have hle' := h'.le
    rcases List.mem_append.1 ht with ht | ht
    · have hin := h.within t ht
      omega
    · have hin := h'.within t ht
      omega
  ordered := by
    refine List.pairwise_append.2 ⟨h.ordered, h'.ordered, fun t ht u hu => ?_⟩
    have hbefore := (h.within t ht).2
    have hbehind := (h'.within u hu).1
    omega

theorem Step.advances {x : Traced LexError Token} (h : Step s x s') : Advances s x.tokens s' := by
  cases h with
  | @blanks g n hg =>
    exact ⟨⟨g, fun b hb => lt_of_isBlank (hg b hb), (List.append_nil g).symm, rfl⟩, nofun, .nil⟩
  | @terminal g rest n t hg hs =>
    have hlength : 0 < t.bytes.length := List.length_pos_iff.2 t.bytes_ne_nil
    refine ⟨⟨g ++ t.bytes, fun b hb => ?_, ?_, ?_⟩, fun u hu => ?_, List.pairwise_singleton _ _⟩
    · exact (List.mem_append.1 hb).elim (fun h => lt_of_isBlank (hg b h)) (t.lt_of_mem_bytes b)
    · exact (List.append_assoc _ _ _).symm
    · rw [List.length_append, Nat.add_assoc]
    · obtain rfl := List.mem_singleton.1 hu
      dsimp only
      omega
  | @unknown g rest b more n hg hb =>
    refine ⟨⟨g ++ b :: more, fun c hc => ?_, ?_, ?_⟩, nofun, .nil⟩
    · exact (List.mem_append.1 hc).elim (fun h => lt_of_isBlank (hg c h)) fun h =>
        lt_of_isWordByte (hb c h)
    · exact (List.append_assoc _ _ _).symm
    · rw [List.length_append, List.length_cons, Nat.add_assoc]
  | @unexpected g rest b n hg =>
    exact ⟨⟨g, fun c hc => lt_of_isBlank (hg c hc), rfl, rfl⟩, nofun, .nil⟩

theorem Reads.advances (h : Reads s ts last) : Advances s ts last := by
  induction h with
  | done s => exact .refl s
  | next hn _ ih => exact (step_of_next hn).advances.trans ih

end

end Lexer
end ZeroOne
