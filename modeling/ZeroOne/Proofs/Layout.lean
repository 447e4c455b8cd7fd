import Mathlib.Data.List.Chain
import ZeroOne.Proofs.Scan

/-! Layouts. The lexer reads to the end of some bytes if and only if they are terminals with blanks
between them, where two words do not touch, and there is at most one way to see them so. -/
namespace ZeroOne

/-- Blanks, and terminals with the blanks behind each of them. Between two words there is a blank. -/
structure Layout where
  lead : List UInt8
  pieces : List (Terminal × List UInt8)
  blank_lead : ∀ b ∈ lead, isBlank b
  blank_pieces : ∀ q ∈ pieces, ∀ b ∈ q.2, isBlank b
  separated : pieces.IsChain fun q r => q.1 ∈ Terminal.words → r.1 ∈ Terminal.words → q.2 ≠ []

namespace Layout

def bytes (L : Layout) : List UInt8 := L.lead ++ L.pieces.flatMap fun q => q.1.bytes ++ q.2

def placesFrom (n : Nat) : List (Terminal × List UInt8) → List (Terminal × Int)
  | [] => []
  | (t, g) :: pieces => (t, n) :: placesFrom (n + t.bytes.length + g.length) pieces

/-- The terminals with their offsets, where the layout starts at a given offset. -/
def places (L : Layout) (n : Nat) : List (Terminal × Int) := placesFrom (n + L.lead.length) L.pieces

/-- The tokens of a layout: its terminals, and the end of the input behind its last byte. -/
def tokens (L : Layout) : List Token :=
  (L.places 0).map (fun t => ⟨.terminal t.1, t.2⟩) ++ [⟨.eof, L.bytes.length⟩]

def ofBlanks (g : List UInt8) (hg : ∀ b ∈ g, isBlank b) : Layout :=
  ⟨g, [], hg, by simp, .nil⟩

/-- A word can end where a layout starts, unless the layout starts with a word itself. -/
theorem stopsWord_bytes_iff {L : Layout} :
    StopsWord L.bytes ↔ ∀ q, L.pieces.head? = some q → q.1 ∈ Terminal.words → L.lead ≠ [] := by
  obtain ⟨lead, pieces, hl, hp, hs⟩ := L
  cases lead with
  | cons b lead =>
    have hb : isWordByte b = false := isWordByte_of_isBlank (hl b (by simp))
    simp [StopsWord, bytes, hb]
  | nil =>
    cases pieces with
    | nil => simp [StopsWord, bytes]
    | cons q pieces =>
      obtain ⟨b, more, hb⟩ := List.exists_cons_of_ne_nil q.1.bytes_ne_nil
      have hhead : b ∈ q.1.bytes := by simp [hb]
      have hword : isWordByte b ↔ q.1 ∈ Terminal.words := by
        refine ⟨fun h => ?_, fun h => isWordByte_of_word h b hhead⟩
        obtain hw | ⟨hm, _⟩ := q.1.mem_words_or
        · exact hw
        · rw [isWordByte_of_mark hm b hhead] at h
          cases h
      simp [StopsWord, bytes, hb, ← hword]

def behind (g : List UInt8) (hg : ∀ b ∈ g, isBlank b) (t : Terminal) (L : Layout)
    (h : t ∈ Terminal.words → StopsWord L.bytes) : Layout where
  lead := g
  pieces := (t, L.lead) :: L.pieces
  blank_lead := hg
  blank_pieces q hq := by
    obtain rfl | hq := List.mem_cons.1 hq
    · exact L.blank_lead
    · exact L.blank_pieces q hq
  separated := by
    refine List.isChain_cons.2 ⟨fun q hq ht => ?_, L.separated⟩
    exact stopsWord_bytes_iff.1 (h ht) q hq

@[elab_as_elim]
theorem induction {motive : Layout → Prop} (blanks : ∀ g hg, motive (ofBlanks g hg))
    (behind : ∀ g hg t L h, motive L → motive (behind g hg t L h)) (L : Layout) : motive L := by
  obtain ⟨lead, pieces, hl, hp, hs⟩ := L
  induction pieces generalizing lead with
  | nil => exact blanks lead hl
  | cons q pieces ih =>
    obtain ⟨t, g⟩ := q
    obtain ⟨hq, hs'⟩ := List.isChain_cons.1 hs
    have hg : ∀ b ∈ g, isBlank b := hp (t, g) List.mem_cons_self
    have hrest := ih g hg (fun r hr => hp r (List.mem_cons_of_mem _ hr)) hs'
    refine behind lead hl t _ (fun ht => ?_) hrest
    exact stopsWord_bytes_iff.2 fun r hr => hq r hr ht

section

variable {g : List UInt8} {hg : ∀ b ∈ g, isBlank b} {t : Terminal} {L : Layout}
  {h : t ∈ Terminal.words → StopsWord L.bytes}

@[simp] theorem bytes_ofBlanks : (ofBlanks g hg).bytes = g := by simp [bytes, ofBlanks]

@[simp] theorem bytes_behind : (behind g hg t L h).bytes = g ++ (t.bytes ++ L.bytes) := by
  simp [bytes, behind]

@[simp] theorem places_ofBlanks (n : Nat) : (ofBlanks g hg).places n = [] := rfl

@[simp] theorem places_behind (n : Nat) :
    (behind g hg t L h).places n =
      (t, ((n + g.length : Nat) : Int)) :: L.places (n + g.length + t.bytes.length) := rfl

end

/-- The terminals of a layout are handed out in turn, and then the end of the input. -/
theorem yields (L : Layout) (n : Nat) :
    ∃ last behind, Yields (⟨L.bytes, n⟩ : Lexer) (L.places n) last ∧
      TokenSource.next last = (⟨[], .ok ⟨.eof, ((n + L.bytes.length : Nat) : Int)⟩⟩, behind) := by
  induction L using Layout.induction generalizing n with
  | blanks g hg =>
    rw [bytes_ofBlanks, places_ofBlanks]
    exact ⟨_, _, .done _, Lexer.next_blank hg n⟩
  | behind g hg t L h ih =>
    obtain ⟨last, behind, hy, hn⟩ := ih (n + g.length + t.bytes.length)
    have hlength : n + g.length + t.bytes.length + L.bytes.length =
        n + (g ++ (t.bytes ++ L.bytes)).length := by
      simp only [List.length_append]
      omega
    rw [bytes_behind, places_behind, ← hlength]
    exact ⟨last, behind, .token (Lexer.next_terminal t hg h n) hy, hn⟩

/-- What is read to the end has a layout, in which the terminals stand where they were read. -/
theorem exists_of_yields {s last final : Lexer} {ts : List (Terminal × Int)} {es : List Event}
    {p : Int} (hy : Yields s ts last)
    (hn : TokenSource.next last = (⟨es, .ok ⟨.eof, p⟩⟩, final)) :
    ∃ L : Layout, L.bytes = s.rest ∧ L.places s.position = ts ∧
      p = ((s.position + s.rest.length : Nat) : Int) := by
  induction hy with
  | done s =>
    obtain ⟨hblank, hp⟩ := Lexer.blank_of_next_eof hn
    exact ⟨ofBlanks s.rest hblank, bytes_ofBlanks, places_ofBlanks _, hp⟩
  | @token s s' last es' t q ts hs _ ih =>
    obtain ⟨L, hL, hplaces, hp⟩ := ih hn
    obtain ⟨g, hg, hrest, hstop, hq, hposition⟩ := Lexer.split_of_next_terminal hs
    rw [← hL] at hstop
    refine ⟨behind g hg t L hstop, ?_, ?_, ?_⟩
    · rw [bytes_behind, hL, hrest]
    · rw [places_behind, ← hposition, hplaces, hq]
    · rw [hp, hposition, hrest]
      simp only [List.length_append]
      omega

/-- The lexer can find only one terminal, so each part of a layout is fixed by the bytes. -/
theorem bytes_injective : Function.Injective bytes := by
  intro L
  induction L using Layout.induction with
  | blanks g hg =>
    intro L' h
    have hnext := Lexer.next_blank hg 0
    induction L' using Layout.induction with
    | blanks g' hg' =>
      obtain rfl : g = g' := by simpa using h
      rfl
    | behind g' hg' t' L' hs' _ =>
      rw [bytes_ofBlanks, bytes_behind] at h
      rw [h, Lexer.next_terminal t' hg' hs'] at hnext
      cases hnext
  | behind g hg t L hs ih =>
    intro L' h
    have hnext := Lexer.next_terminal t hg hs 0
    induction L' using Layout.induction with
    | blanks g' hg' =>
      rw [bytes_behind, bytes_ofBlanks] at h
      rw [h, Lexer.next_blank hg'] at hnext
      cases hnext
    | behind g' hg' t' L' hs' _ =>
      rw [bytes_behind, bytes_behind] at h
      rw [h, Lexer.next_terminal t' hg' hs'] at hnext
      simp only [Prod.mk.injEq, Traced.mk.injEq, Except.ok.injEq, Token.mk.injEq, Kind.terminal.injEq,
        Lexer.mk.injEq] at hnext
      obtain ⟨⟨_, rfl, _⟩, hrest, _⟩ := hnext
      obtain rfl := ih hrest.symm
      obtain rfl : g = g' := List.append_cancel_right h
      rfl

end Layout

/-- The lexer reads to the end exactly what has a layout, and reads the tokens of the layout, which is
the only one. -/
theorem tokenize_layout (text : Text) :
    (∀ tokens, (tokenize text).result = .ok tokens ↔
      ∃ L : Layout, L.bytes = text.encode ∧ L.tokens = tokens) ∧
      ∀ L L' : Layout, L.bytes = text.encode → L'.bytes = text.encode → L = L' := by
  refine ⟨fun tokens => ⟨fun h => ?_, ?_⟩, fun L L' h h' => Layout.bytes_injective (h.trans h'.symm)⟩
  · obtain ⟨ts, last, hy, ⟨es, p, final, hn⟩ | ⟨es, e, final, hn⟩⟩ := exists_yields (Lexer.ofText text)
    · obtain ⟨L, hL, rfl, rfl⟩ := Layout.exists_of_yields hy hn
      have htokens : (tokenize text).result = _ := Lexer.tokens_of_yields hy hn
      have hend : (Lexer.ofText text).position + (Lexer.ofText text).rest.length = L.bytes.length := by
        rw [← hL]
        exact Nat.zero_add _
      rw [hend] at htokens
      exact ⟨L, hL, Except.ok.inj (htokens.symm.trans h)⟩
    · have herror : (tokenize text).result = .error e := Lexer.tokens_of_yields_error hy hn
      rw [herror] at h
      cases h
  · rintro ⟨L, hL, rfl⟩
    obtain ⟨last, final, hy, hn⟩ := L.yields 0
    rw [hL, Nat.zero_add] at hn
    rw [hL] at hy
    rw [Layout.tokens, hL]
    exact Lexer.tokens_of_yields hy hn

/-- Words may touch marks, and need a blank only between each other. -/
theorem tokenize_layout_touching :
    (tokenize (.ofString " true*(false ||")).result =
        .ok [⟨.terminal (.lit .yes), 1⟩, ⟨.terminal (.op .mul), 5⟩, ⟨.terminal .lparen, 6⟩,
          ⟨.terminal (.lit .no), 7⟩, ⟨.terminal (.op .or), 13⟩, ⟨.eof, 15⟩] ∧
      ∀ L : Layout, L.bytes = (Text.ofString " true*(false ||").encode →
        L.pieces = [(.lit .yes, []), (.op .mul, []), (.lparen, []), (.lit .no, [32]), (.op .or, [])] := by
  obtain ⟨htokens, hunique⟩ := tokenize_layout (.ofString " true*(false ||")
  let L : Layout :=
    { lead := [32]
      pieces := [(.lit .yes, []), (.op .mul, []), (.lparen, []), (.lit .no, [32]), (.op .or, [])]
      blank_lead := by simp [isBlank]
      blank_pieces := by simp [isBlank]
      separated := by decide }
  have hL : L.bytes = (Text.ofString " true*(false ||").encode := by decide
  refine ⟨(htokens _).2 ⟨L, hL, by decide⟩, fun L' hL' => ?_⟩
  rw [hunique L' L hL' hL]

end ZeroOne
