import ZeroOne.Proofs.Lexing
import ZeroOne.Proofs.Offsets
import ZeroOne.Proofs.OnDemand

/-! Misspelt places. Whether bytes are misspelt at a place is known from the byte and the run of word
bytes there, and the lexer stops at the first such place. -/
namespace ZeroOne

/-- Nothing starts with a stray byte: it is no blank, no word byte and no mark. -/
def IsStray (b : UInt8) : Prop :=
  isBlank b = false ∧ isWordByte b = false ∧ ∀ t ∈ Terminal.marks, t.bytes ≠ [b]

/-- A stray byte, or a run of word bytes that is no word though as long as possible on both sides.
-/
def MisspeltAt (bytes : List UInt8) (i : Nat) : Prop :=
  (∃ b, bytes[i]? = some b ∧ IsStray b) ∨ ∃ run, IsWordRun bytes i run ∧ ¬ IsWord run

/-- An error tells the byte at a place, and what is misspelt there: that byte alone, or a run of word
bytes. -/
def LexError.Tells (e : LexError) (bytes : List UInt8) (i : Nat) : Prop :=
  bytes[i]? = some e.byte ∧
    (e.word? = none ∧ IsStray e.byte ∨
      ∃ w, e.word? = some w ∧ IsWordRun bytes i (Text.ofString w).encode ∧
        ¬ IsWord (Text.ofString w).encode)

theorem LexError.Tells.misspeltAt {e : LexError} {bytes : List UInt8} {i : Nat}
    (h : e.Tells bytes i) : MisspeltAt bytes i := by
  obtain ⟨hb, ⟨_, hstray⟩ | ⟨w, _, hrun, hword⟩⟩ := h
  · exact .inl ⟨e.byte, hb, hstray⟩
  · exact .inr ⟨_, hrun, hword⟩

theorem not_isStray_of_mem_bytes (t : Terminal) : ∀ b ∈ t.bytes, ¬ IsStray b := by
  rintro b hb ⟨_, hword, hmark⟩
  obtain hw | ⟨hm, c, hc, _⟩ := t.mem_words_or
  · rw [isWordByte_of_word hw b hb] at hword
    cases hword
  · rw [hc, List.mem_singleton] at hb
    subst hb
    exact hmark t hm hc

/-- Bytes that add no misspelt place to those behind them. -/
structure WellSpelt (u bytes : List UInt8) : Prop where
  words : AddsWords u bytes
  plain : ∀ b ∈ u, ¬ IsStray b

namespace WellSpelt

variable {u v g bytes : List UInt8} {i j : Nat}

theorem nil (bytes : List UInt8) : WellSpelt [] bytes := ⟨.nil bytes, nofun⟩

theorem append (hu : WellSpelt u (v ++ bytes)) (hv : WellSpelt v bytes) : WellSpelt (u ++ v) bytes where
  words := hu.words.append hv.words
  plain b hb := (List.mem_append.1 hb).elim (hu.plain b) (hv.plain b)

theorem of_blanks (hg : ∀ b ∈ g, isBlank b) (bytes : List UInt8) : WellSpelt g bytes where
  words := .of_forall_false (fun b hb => isWordByte_of_isBlank (hg b hb)) bytes
  plain b hb hstray := by
    have hblank := hg b hb
    rw [hstray.1] at hblank
    cases hblank

theorem of_terminal (t : Terminal) (hs : t ∈ Terminal.words → StopsWord bytes) :
    WellSpelt t.bytes bytes :=
  ⟨.of_terminal t hs, not_isStray_of_mem_bytes t⟩

/-- The misspelt places are those of the bytes behind. -/
theorem misspeltAt_append_iff (h : WellSpelt u bytes) :
    MisspeltAt (u ++ bytes) i ↔ ∃ j, i = u.length + j ∧ MisspeltAt bytes j := by
  constructor
  · rintro (⟨b, hb, hstray⟩ | ⟨run, hrun, hword⟩)
    · rcases Nat.lt_or_ge i u.length with hi | hi
      · rw [List.getElem?_append_left hi] at hb
        exact absurd hstray (h.plain b (List.mem_of_getElem? hb))
      · obtain ⟨j, rfl⟩ := Nat.exists_eq_add_of_le hi
        rw [List.getElem?_append_right hi, Nat.add_sub_cancel_left] at hb
        exact ⟨j, rfl, .inl ⟨b, hb, hstray⟩⟩
    · rcases h.words.run_append i run hrun with hw | ⟨j, rfl, hbehind⟩
      · exact absurd hw hword
      · exact ⟨j, rfl, .inr ⟨run, hbehind, hword⟩⟩
  · rintro ⟨j, rfl, ⟨b, hb, hstray⟩ | ⟨run, hrun, hword⟩⟩
    · refine .inl ⟨b, ?_, hstray⟩
      rwa [List.getElem?_append_right (Nat.le_add_right _ _), Nat.add_sub_cancel_left]
    · exact .inr ⟨run, h.words.append_run j run hrun, hword⟩

theorem tells_append (h : WellSpelt u bytes) {e : LexError} (he : e.Tells bytes j) :
    e.Tells (u ++ bytes) (u.length + j) := by
  refine ⟨?_, he.2.imp_right fun ⟨w, hw, hrun, hword⟩ => ?_⟩
  · rw [List.getElem?_append_right (Nat.le_add_right _ _), Nat.add_sub_cancel_left]
    exact he.1
  · exact ⟨w, hw, h.words.append_run j _ hrun, hword⟩

theorem not_misspeltAt (h : WellSpelt u []) : ¬ MisspeltAt u i := by
  intro hi
  rw [← List.append_nil u, h.misspeltAt_append_iff] at hi
  obtain ⟨j, _, ⟨b, hb, _⟩ | ⟨run, hrun, _⟩⟩ := hi
  · cases hb
  · exact hrun.nonempty (by simpa using hrun.longest)

end WellSpelt

theorem StopsWord.append_blanks {u g bytes : List UInt8} (h : StopsWord (u ++ bytes))
    (hg : ∀ b ∈ g, isBlank b) : StopsWord (u ++ g) := by
  intro b hb
  cases u with
  | nil => exact isWordByte_of_isBlank (hg b (List.mem_of_mem_head? hb))
  | cons c u => exact h b hb

namespace Lexer

variable {s s' : Lexer} {es : List Event} {e : LexError}

/-- The bytes of terminals that are handed out are well spelt, and hand out the same terminals with
only blanks behind them. -/
theorem wellSpelt_of_yields {ts : List (Terminal × Int)} (h : Yields s ts s') :
    ∃ u, s.rest = u ++ s'.rest ∧ s'.position = s.position + u.length ∧ WellSpelt u s'.rest ∧
      ∀ g, (∀ b ∈ g, isBlank b) → Yields (⟨u ++ g, s.position⟩ : Lexer) ts ⟨g, s'.position⟩ := by
  induction h with
  | done s => exact ⟨[], rfl, rfl, .nil _, fun g _ => .done _⟩
  | @token s next last es t p ts hn _ ih =>
    obtain ⟨u, hrest, hposition, hu, hyields⟩ := ih
    obtain ⟨g, hg, hsplit, hstop, rfl, hnext⟩ := split_of_next_terminal hn
    rw [hrest] at hsplit hstop
    have hterminal : WellSpelt t.bytes (u ++ last.rest) := .of_terminal t hstop
    have hblanks : WellSpelt g (t.bytes ++ (u ++ last.rest)) := .of_blanks hg _
    refine ⟨g ++ (t.bytes ++ u), ?_, ?_, ?_, fun k hk => ?_⟩
    · rw [hsplit, List.append_assoc, List.append_assoc]
    · rw [hposition, hnext, List.length_append, List.length_append]
      omega
    · rw [← List.append_assoc] at hblanks
      exact hblanks.append (hterminal.append hu)
    · have hk' := hyields k hk
      rw [hnext] at hk'
      rw [List.append_assoc, List.append_assoc]
      exact .token (next_terminal t hg (fun ht => (hstop ht).append_blanks hk) s.position) hk'

/-- Where a call meets an error, the bytes are misspelt as the error tells. -/
theorem tells_of_next_error (h : TokenSource.next s = (⟨es, .error e⟩, s')) :
    ∃ g rest, (∀ b ∈ g, isBlank b) ∧ s.rest = g ++ rest ∧ e.pos = s.position + g.length ∧
      e.Tells rest 0 := by
  have hspelled : ∀ w, e.word? = some w → (Text.ofString w).encode = e.bytes :=
    fun w hw => (LexError.ascii_of_word? h hw).1
  obtain ⟨bytes, n⟩ := s
  cases finds bytes with
  | blanks hg =>
    rw [next_blank hg] at h
    cases h
  | terminal t hg hs =>
    rw [next_terminal t hg hs] at h
    cases h
  | @unknown g rest b more hg hb hu hs =>
    rw [next_unknown hg hb hu hs] at h
    cases h
    refine ⟨g, _, hg, rfl, rfl, rfl, .inr ⟨_, rfl, ?_⟩⟩
    rw [hspelled _ rfl]
    exact ⟨AddsWords.isWordRun_zero (List.cons_ne_nil b more) hb hs, hu⟩
  | @unexpected g rest b hg hb hw hm =>
    rw [next_unexpected hg hb hw hm] at h
    cases h
    have hmark : ∀ t ∈ Terminal.marks, t.bytes ≠ [b] := fun t ht hbytes =>
      List.find?_eq_none.1 hm t ht (beq_iff_eq.2 hbytes)
    exact ⟨g, _, hg, rfl, rfl, rfl, .inl ⟨rfl, hb, hw, hmark⟩⟩

end Lexer

section

variable {text : Text} {e : LexError}

/-- In front of a lexical error stand well-spelt bytes that can be read, and behind them what the
error tells. -/
theorem split_of_lexError (h : (tokenize text).result = .error e) :
    ∃ u rest, text.encode = u ++ rest ∧ u.length = e.pos ∧ WellSpelt u rest ∧ e.Tells rest 0 ∧
      Aligned text e.pos ∧ ∃ tokens, (⟨u, 0⟩ : Lexer).tokens.1.result = .ok tokens := by
  obtain ⟨ts, last, es, final, hy, hn⟩ := exists_yields_of_lexError h
  obtain ⟨u, hrest, hposition, hu, hyields⟩ := Lexer.wellSpelt_of_yields hy
  obtain ⟨g, rest, hg, hgap, hpos, htells⟩ := Lexer.tells_of_next_error hn
  rw [hgap] at hrest hu
  have hlength : (u ++ g).length = e.pos := by
    have hstart : last.position = 0 + u.length := hposition
    rw [List.length_append]
    omega
  have hsplit : text.encode = (u ++ g) ++ rest := by
    rw [List.append_assoc]
    exact hrest
  have hfront := Lexer.tokens_of_yields (hyields g hg) (Lexer.next_blank hg _)
  have hread := (Lexer.reads_of_yields hy).advances.trans (Lexer.reads_of_next hn).advances
  have haligned := hread.aligned (Int.ofNat_le.1 (Lexer.within_of_next_error hn).2)
  exact ⟨u ++ g, rest, hsplit, hlength, hu.append (.of_blanks hg rest), htells, haligned, _, hfront⟩

theorem not_misspeltAt_of_tokenize {tokens : List Token} (h : (tokenize text).result = .ok tokens)
    (i : Nat) : ¬ MisspeltAt text.encode i := by
  obtain ⟨ts, last, es, final, hy, hn, _⟩ := exists_yields_of_tokenize h
  obtain ⟨u, hrest, _, hu, _⟩ := Lexer.wellSpelt_of_yields hy
  have hblank := (Lexer.blank_of_next_eof hn).1
  have hsplit : text.encode = u ++ last.rest := hrest
  have hlast : WellSpelt last.rest [] := .of_blanks hblank []
  rw [← List.append_nil last.rest] at hu
  rw [hsplit]
  exact (hu.append hlast).not_misspeltAt

end

/-- A lexical error stands at the first misspelt place and tells what is misspelt there. -/
theorem tokenize_error_located (text : Text) :
    (∀ e, (tokenize text).result = .error e →
        e.pos < text.encode.length ∧ text.encode[e.pos]? = some e.byte ∧
          (Text.encode (text.take e.pos) = text.encode.take e.pos ∧
            ∃ tokens, (tokenize (text.take e.pos)).result = .ok tokens) ∧
          (e.word? = none ∧ IsStray e.byte ∨
            ∃ w, e.word? = some w ∧ IsWordRun text.encode e.pos (Text.ofString w).encode ∧
              ¬ IsWord (Text.ofString w).encode)) ∧
      ((∃ i, MisspeltAt text.encode i) →
        ∃ e, (tokenize text).result = .error e ∧ MisspeltAt text.encode e.pos ∧
          ∀ i, MisspeltAt text.encode i → e.pos ≤ i) := by
  refine ⟨fun e he => ?_, fun ⟨i, hi⟩ => ?_⟩
  · obtain ⟨u, rest, hsplit, hlength, hu, htells, haligned, tokens, htokens⟩ := split_of_lexError he
    have hfront : tokenize (text.take e.pos) = (⟨u, 0⟩ : Lexer).tokens.1 := by
      have htake := haligned.encode_take
      rw [hsplit, List.take_left' hlength] at htake
      unfold tokenize Lexer.ofText
      rw [htake]
    have hplace := hu.tells_append htells
    rw [← hsplit, Nat.add_zero, hlength] at hplace
    have hbound := (List.getElem?_eq_some_iff.1 hplace.1).1
    exact ⟨hbound, hplace.1, ⟨haligned.encode_take, tokens, hfront ▸ htokens⟩, hplace.2⟩
  · rcases he : (tokenize text).result with e | tokens
    · obtain ⟨u, rest, hsplit, hlength, hu, htells, _⟩ := split_of_lexError he
      have hplace := hu.tells_append htells
      rw [← hsplit, Nat.add_zero, hlength] at hplace
      refine ⟨e, rfl, hplace.misspeltAt, fun j hj => ?_⟩
      rw [hsplit, hu.misspeltAt_append_iff] at hj
      omega
    · exact absurd hi (not_misspeltAt_of_tokenize he i)

/-- A word that is unknown stands in front of a stray byte, glued to what is around it. -/
theorem tokenize_error_located_glued :
    let text := Text.ofString "1(maybe&"
    ((tokenize text).result = .error (.unknownWord 2 109 [97, 121, 98, 101]) ∧
        IsWordRun text.encode 2 (Text.ofString "maybe").encode ∧
        ¬ IsWord (Text.ofString "maybe").encode) ∧
      MisspeltAt text.encode 7 ∧
        ∃ e, (tokenize text).result = .error e ∧ MisspeltAt text.encode e.pos ∧ e.pos ≤ 7 := by
  intro text
  have herror : (tokenize text).result = .error (.unknownWord 2 109 [97, 121, 98, 101]) :=
    Lexer.tokens_of_yields_error (.token rfl (.token rfl (.done _))) rfl
  have hstray : MisspeltAt text.encode 7 := .inl ⟨38, rfl, rfl, rfl, by decide⟩
  obtain ⟨hlocated, hfirst⟩ := tokenize_error_located text
  obtain ⟨e, he, hplace, hle⟩ := hfirst ⟨7, hstray⟩
  obtain ⟨_, _, _, ⟨hnone, _⟩ | ⟨w, hw, hrun, hword⟩⟩ := hlocated _ herror
  · cases hnone
  · obtain rfl : "maybe" = w := Option.some.inj hw
    exact ⟨⟨herror, hrun, hword⟩, hstray, e, he, hplace, hle 7 hstray⟩

end ZeroOne
