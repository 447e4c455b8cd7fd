import ZeroOne.Proofs.Blame
import ZeroOne.Proofs.Calls
import ZeroOne.Proofs.Encoding

/-! Offsets. All that calls on a lexer tell of stands behind ASCII only, so each offset among the bytes
of the text is the same offset among its code points. -/
namespace ZeroOne

/-- What stands in front of an offset is in ASCII, so it counts code points as well as bytes. -/
structure Aligned (text : Text) (p : Nat) : Prop where
  le : p ≤ text.length
  ascii : ∀ c ∈ text.take p, c.val < 0x80
  encode_take : Text.encode (text.take p) = text.encode.take p
  encode_drop : Text.encode (text.drop p) = text.encode.drop p

theorem aligned_of_ascii {text : Text} {u bytes : List UInt8} (h : text.encode = u ++ bytes)
    (hu : ∀ b ∈ u, b < 128) {p : Nat} (hp : p ≤ u.length) : Aligned text p := by
  have hsplit : text.encode = u.take p ++ (u.drop p ++ bytes) := by
    rw [h, ← List.append_assoc, List.take_append_drop]
  have htake : (u.take p).length = p := List.length_take_of_le hp
  obtain ⟨front, back, rfl, hlength, hfront, hf, hb⟩ :=
    Text.split_of_ascii hsplit fun b hb => hu b (List.mem_of_mem_take hb)
  rw [htake] at hlength
  constructor
  · rw [List.length_append]
    omega
  · rwa [List.take_left' hlength]
  · rw [List.take_left' hlength, hsplit, List.take_left' htake, hf]
  · rw [List.drop_left' hlength, hsplit, List.drop_left' htake, hb]

def Outcome.positions : Outcome → List Int
  | .token t => [t.pos]
  | .tokens ts => ts.map (·.pos)
  | .tree _ => []

def SyntaxError.positions : SyntaxError → List Int
  | .lexical e => [e.pos]
  | .structural e => e.pos :: (e.token?.map (·.pos)).toList

/-- The offsets that an answer tells of, and those of the records on the way. -/
def Traced.positions (x : Traced SyntaxError Outcome) : List Int :=
  x.tokens.map (·.pos) ++
    match x.result with
    | .ok o => o.positions
    | .error e => e.positions

theorem SyntaxError.eq_pos_of_mem {e : SyntaxError} {p : Int} (h : p ∈ e.positions) : p = e.pos := by
  cases e with
  | lexical e => exact List.mem_singleton.1 h
  | structural e =>
    rcases List.mem_cons.1 h with rfl | h
    · rfl
    · cases e with
      | missingOperand | unmatched | unclosed => exact List.mem_singleton.1 h
      | empty | several => cases h

def LexError.bytes : LexError → List UInt8
  | .unknownWord _ b more => b :: more
  | .unexpectedByte _ b => [b]

theorem LexError.head?_bytes (e : LexError) : e.bytes.head? = some e.byte := by
  cases e <;> rfl

namespace Lexer

/-- An offset that a lexer has passed, or come to, on its way. -/
def Within (s s' : Lexer) (p : Int) : Prop := (s.position : Int) ≤ p ∧ p ≤ s'.position

section

variable {s s' last : Lexer} {es : List Event} {ts : List (Terminal × Int)}

theorem within_of_next_ok {t : Token} (h : s.next = (⟨es, .ok t⟩, s')) : Within s s' t.pos := by
  unfold Within
  cases step_of_next h with
  | blanks hg => dsimp only; omega
  | terminal t hg hs => dsimp only; omega

/-- An error is about bytes that stand behind some blanks, and the lexer stops behind the blanks or
behind the bytes. -/
theorem split_of_next_error {e : LexError} (h : s.next = (⟨es, .error e⟩, s')) :
    ∃ g rest, (∀ b ∈ g, isBlank b) ∧ s.rest = g ++ (e.bytes ++ rest) ∧
      e.pos = s.position + g.length ∧ e.pos ≤ s'.position := by
  cases step_of_next h with
  | unknown hg hb => exact ⟨_, _, hg, rfl, rfl, Nat.le_add_right _ _⟩
  | unexpected hg => exact ⟨_, _, hg, rfl, rfl, le_rfl⟩

theorem within_of_next_error {e : LexError} (h : s.next = (⟨es, .error e⟩, s')) :
    Within s s' e.pos := by
  obtain ⟨g, rest, _, _, hpos, hle⟩ := split_of_next_error h
  unfold Within
  omega

theorem le_of_yields (h : Yields s ts s') : s.position ≤ s'.position := (reads_of_yields h).advances.le

theorem within_of_yields (h : Yields s ts s') {t : Terminal × Int} (ht : t ∈ ts) :
    Within s s' t.2 := by
  have hwithin := (reads_of_yields h).advances.within ⟨.terminal t.1, t.2⟩ (List.mem_map_of_mem ht)
  exact ⟨hwithin.1, Int.le_of_lt hwithin.2⟩

/-- What is passed behind some terminals is passed from the start. -/
theorem Within.behind {p : Int} (h : Within s' last p) (hy : Yields s ts s') : Within s last p := by
  have hle := le_of_yields hy
  unfold Within at h ⊢
  omega

theorem within_of_mem_toTokens (h : Yields s ts s') {t : Token} (ht : t ∈ toTokens ts) :
    Within s s' t.pos := by
  obtain ⟨u, hu, rfl⟩ := List.mem_map.1 ht
  exact within_of_yields h hu

/-- Calls come to outcomes and structural errors with offsets that were passed, or to the lexical
error of a single read. -/
inductive Answers (s : Lexer) : Except SyntaxError Outcome → Lexer → Prop
  | outcome {o : Outcome} {s' : Lexer} :
    (∀ p ∈ o.positions, Within s s' p) → Answers s (.ok o) s'
  | structural {e : ParseError} {s' : Lexer} :
    Within s s' e.pos → Answers s (.error (.structural e)) s'
  | lexical {ts : List (Terminal × Int)} {s' last : Lexer} {es : List Event} {e : LexError} :
    Yields s ts s' → s'.next = (⟨es, .error e⟩, last) → Answers s (.error (.lexical e)) last

theorem answers_of_next {x : Traced LexError Token} (h : s.next = (x, s')) :
    Answers s (mapBoth .token .lexical x.result) s' := by
  rcases x with ⟨es, e | t⟩
  · exact .lexical (.done s) h
  · refine .outcome fun p hp => ?_
    obtain rfl := List.mem_singleton.1 hp
    exact within_of_next_ok h

theorem answers_of_takes {x : Except LexError (List Token)} (h : Takes s x s') :
    Answers s (mapBoth .tokens .lexical x) s' := by
  cases h with
  | terminals hy =>
    refine .outcome fun p hp => ?_
    obtain ⟨t, ht, rfl⟩ := List.mem_map.1 hp
    exact within_of_mem_toTokens hy ht
  | finished hy hn =>
    have hend := within_of_next_ok hn
    refine .outcome fun p hp => ?_
    obtain ⟨t, ht, rfl⟩ := List.mem_map.1 hp
    rcases List.mem_append.1 ht with ht | ht
    · have hfront := within_of_mem_toTokens hy ht
      unfold Within at hfront hend ⊢
      omega
    · rw [List.mem_singleton.1 ht]
      exact hend.behind hy
  | interrupted hy hn => exact .lexical hy hn

theorem answers_of_halts {order : OperandOrder} {x : Except SyntaxError Tree}
    (h : Stacks.Halts order .start s x s') : Answers s (mapBoth .tree id x) s' := by
  cases h with
  | misplaced hy hp =>
    obtain ⟨t, ht, hnames⟩ := Stacks.names_of_placeAll_start hp
    refine .structural ?_
    rw [hnames.pos_eq]
    exact within_of_yields hy ht
  | interrupted hy hp hn => exact .lexical hy hn
  | @finished ts read _ held es p hy hp hn =>
    have hle := le_of_yields hy
    have hend : read.position ≤ s'.position := (reads_of_next hn).advances.le
    rcases hf : (held.finish order (TokenSource.position s')).result with e | t
    · refine .structural ?_
      rcases Stacks.names_of_finish_start hp hf with ⟨t, ht, hnames⟩ | ⟨_, hpos⟩
      · have hwithin := within_of_yields hy ht
        rw [hnames.pos_eq]
        unfold Within at hwithin ⊢
        omega
      · have hpos : e.pos = s'.position := hpos
        unfold Within
        omega
    · exact .outcome nofun

end

theorem answers_call (s : Lexer) (c : Call) : Answers s (s.call c).1.result (s.call c).2 := by
  cases c with
  | next => exact answers_of_next rfl
  | take count => exact answers_of_takes (takes_take count s)
  | rest => exact answers_of_takes (takes_tokens s)
  | parse order => exact answers_of_halts (Stacks.halts_read order .start s)

/-- All offsets in the answer to a call lie on the way of the lexer. -/
theorem within_of_call (s : Lexer) (c : Call) :
    ∀ p ∈ (s.call c).1.positions, Within s (s.call c).2 p := by
  intro p hp
  rcases List.mem_append.1 hp with hp | hp
  · obtain ⟨t, ht, rfl⟩ := List.mem_map.1 hp
    have hwithin := (reads_call s c).advances.within t ht
    exact ⟨hwithin.1, Int.le_of_lt hwithin.2⟩
  · have hanswers := answers_call s c
    rcases hx : (s.call c).1.result with e | o
    all_goals rw [hx] at hp hanswers
    · rw [SyntaxError.eq_pos_of_mem hp]
      cases hanswers with
      | structural hwithin => exact hwithin
      | lexical hy hn => exact (within_of_next_error hn).behind hy
    · cases hanswers with
      | outcome hwithin => exact hwithin p hp

end Lexer

section

variable {text : Text} {s s' : Lexer} {ts : List Token}

theorem Lexer.Advances.aligned (h : Advances (.ofText text) ts s) {p : Nat} (hp : p ≤ s.position) :
    Aligned text p := by
  obtain ⟨u, hu, hrest, hposition⟩ := h.moved
  have hlength : s.position = 0 + u.length := hposition
  exact aligned_of_ascii hrest hu (by omega)

/-- The bytes that a lexical error is about stand at its offset, and the first of them starts a code
point. -/
theorem Lexer.Advances.split_of_next_error {es : List Event} {e : LexError}
    (h : Advances (.ofText text) ts s) (hn : s.next = (⟨es, .error e⟩, s')) :
    e.bytes <+: text.encode.drop e.pos ∧
      ∃ c, text[e.pos]? = some c ∧ c.encode.head? = some e.byte := by
  obtain ⟨u, hu, hrest, hposition⟩ := h.moved
  obtain ⟨g, rest, hg, hgap, hpos, _⟩ := Lexer.split_of_next_error hn
  have hencode : text.encode = (u ++ g) ++ (e.bytes ++ rest) := by
    rw [List.append_assoc, ← hgap]
    exact hrest
  have hlength : (u ++ g).length = e.pos := by
    have hstart : s.position = 0 + u.length := hposition
    rw [List.length_append]
    omega
  have hascii : ∀ b ∈ u ++ g, b < 128 := fun b hb =>
    (List.mem_append.1 hb).elim (hu b) fun hb => lt_of_isBlank (hg b hb)
  obtain ⟨front, back, rfl, hfront, _, _, hback⟩ := Text.split_of_ascii hencode hascii
  constructor
  · rw [hencode, List.drop_left' hlength]
    exact List.prefix_append _ _
  · obtain ⟨more, hbytes⟩ := List.head?_eq_some_iff.1 e.head?_bytes
    rw [hbytes, List.cons_append] at hback
    cases back with
    | nil => cases hback
    | cons c back =>
      refine ⟨c, ?_, ?_⟩
      · rw [List.getElem?_append_right (by omega), show e.pos - front.length = 0 by omega]
        rfl
      · obtain ⟨b, code, hcode⟩ := List.exists_cons_of_ne_nil c.encode_ne_nil
        have hfirst : c.encode ++ Text.encode back = e.byte :: (more ++ rest) := hback
        rw [hcode] at hfirst
        rw [hcode, (List.cons.inj hfirst).1]
        rfl

end

theorem LexError.ascii_of_word? {s s' : Lexer} {es : List Event} {e : LexError}
    (hn : s.next = (⟨es, .error e⟩, s')) {w : String} (hw : e.word? = some w) :
    (Text.ofString w).encode = e.bytes ∧ ∀ c ∈ w.toList, c.toNat < 0x80 := by
  cases Lexer.step_of_next hn with
  | unexpected hg => cases hw
  | @unknown g rest b more n hg hb =>
    have hascii : ∀ c ∈ b :: more, c < 128 := fun c hc => lt_of_isWordByte (hb c hc)
    obtain rfl := Option.some.inj hw
    refine ⟨Text.encode_ofString_of_ascii hascii, fun c hc => ?_⟩
    rw [String.toList_ofList] at hc
    obtain ⟨d, hd, rfl⟩ := List.mem_map.1 hc
    have hlt : d.toNat < 0x80 := hascii d hd
    rwa [toNat_ofNat_of_ascii hlt]

/-- All offsets that calls on a lexer tell of are offsets among code points, and a lexical error
shows what stands there. -/
theorem offsets_aligned (text : Text) (cs : List Call) (c : Call) :
    Aligned text ((Lexer.ofText text).calls cs).2.position ∧
      (∀ p ∈ (((Lexer.ofText text).calls cs).2.call c).1.positions, ∃ n : Nat, p = n ∧ Aligned text n) ∧
      ∀ e, (((Lexer.ofText text).calls cs).2.call c).1.result = .error (.lexical e) →
        (∃ code, text[e.pos]? = some code ∧ code.encode.head? = some e.byte ∧
            isContinuation e.byte = false) ∧
          ∀ w, e.word? = some w → (∀ x ∈ w.toList, x.toNat < 0x80) ∧
            (Text.ofString w).encode <+: text.encode.drop e.pos := by
  have hstart := (Lexer.reads_calls (.ofText text) cs).advances
  have hnext := (Lexer.reads_calls (.ofText text) (cs ++ [c])).advances
  rw [Lexer.calls_append] at hnext
  refine ⟨hstart.aligned le_rfl, fun p hp => ?_, fun e he => ?_⟩
  · obtain ⟨hlow, hhigh⟩ := Lexer.within_of_call _ c p hp
    have hn : p = p.toNat := by omega
    rw [hn] at hhigh
    exact ⟨p.toNat, hn, hnext.aligned (Int.ofNat_le.1 hhigh)⟩
  · have hanswers := Lexer.answers_call ((Lexer.ofText text).calls cs).2 c
    rw [he] at hanswers
    cases hanswers with
    | lexical hy hn =>
      have hread := hstart.trans (Lexer.reads_of_yields hy).advances
      obtain ⟨hbytes, code, hcode, hhead⟩ := hread.split_of_next_error hn
      refine ⟨⟨code, hcode, hhead, CodePoint.isContinuation_head hhead⟩, fun w hw => ?_⟩
      obtain ⟨hencode, hascii⟩ := LexError.ascii_of_word? hn hw
      exact ⟨hascii, hencode ▸ hbytes⟩

/-- Behind an unknown word, which is passed, a lone surrogate is met at its own offset. -/
theorem offsets_aligned_surrogate :
    let text := Text.ofString "1 maybe " ++ [0xD800]
    ((((Lexer.ofText text).calls [.next]).2.call .next).1.result =
        .error (.lexical (.unknownWord 2 109 [97, 121, 98, 101])) ∧
      (Text.ofString "maybe").encode <+: text.encode.drop 2) ∧
      (((Lexer.ofText text).calls [.next, .next]).2.call .next).1.result =
        .error (.lexical (.unexpectedByte 8 0xED)) ∧
      Aligned text 8 ∧ ∃ code, text[8]? = some code ∧ code.encode.head? = some 0xED := by
  intro text
  have hword : (((Lexer.ofText text).calls [.next]).2.call .next).1.result =
      .error (.lexical (.unknownWord 2 109 [97, 121, 98, 101])) := rfl
  have hbyte : (((Lexer.ofText text).calls [.next, .next]).2.call .next).1.result =
      .error (.lexical (.unexpectedByte 8 0xED)) := rfl
  obtain ⟨_, _, hlexical⟩ := offsets_aligned text [.next] .next
  obtain ⟨_, hpositions, hlexical'⟩ := offsets_aligned text [.next, .next] .next
  have hmem : 8 ∈ (((Lexer.ofText text).calls [.next, .next]).2.call .next).1.positions :=
    List.mem_singleton.2 rfl
  obtain ⟨n, hn, haligned⟩ := hpositions 8 hmem
  obtain ⟨⟨code, hcode, hhead, _⟩, _⟩ := hlexical' _ hbyte
  have hspelled := ((hlexical _ hword).2 "maybe" rfl).2
  obtain rfl : n = 8 := by omega
  exact ⟨⟨hword, hspelled⟩, hbyte, haligned, code, hcode, hhead⟩

end ZeroOne
