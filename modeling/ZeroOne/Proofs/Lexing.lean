import ZeroOne.Proofs.Scan
import ZeroOne.Proofs.Spelling

/-! The lexer on texts that spell a word: it hands out the terminals of the word, up to the first run
of word bytes that is no word. -/
namespace ZeroOne

open Grammar (Spelled isGap spell)

namespace Lexer

def Lexes (s : Lexer) (w : List Terminal) : Prop :=
  ∃ ts last es p behind, Yields s ts last ∧ ts.map (·.1) = w ∧
    TokenSource.next last = (⟨es, .ok ⟨.eof, p⟩⟩, behind)

/-- The lexer hands out the first terminals of a word and then meets an error. -/
def LexesUpTo (s : Lexer) (w : List Terminal) (e : LexError) : Prop :=
  ∃ ts last es behind v, Yields s ts last ∧ w = ts.map (·.1) ++ v ∧
    TokenSource.next last = (⟨es, .error e⟩, behind)

variable {s s' : Lexer} {t : Terminal} {p : Int} {w : List Terminal} {e : LexError}

theorem Lexes.cons (h : Yields s [(t, p)] s') (hw : s'.Lexes w) : s.Lexes (t :: w) := by
  obtain ⟨ts, last, es, q, behind, hy, rfl, hn⟩ := hw
  exact ⟨(t, p) :: ts, last, es, q, behind, h.trans hy, rfl, hn⟩

theorem LexesUpTo.cons (h : Yields s [(t, p)] s') (hw : s'.LexesUpTo w e) :
    s.LexesUpTo (t :: w) e := by
  obtain ⟨ts, last, es, behind, v, hy, rfl, hn⟩ := hw
  exact ⟨(t, p) :: ts, last, es, behind, v, h.trans hy, rfl, hn⟩

end Lexer

namespace AddsWords

variable {u bytes : List UInt8}

/-- A terminal, unless it is a word that goes on. -/
theorem of_terminal (t : Terminal) (hs : t ∈ Terminal.words → StopsWord bytes) :
    AddsWords t.bytes bytes := by
  obtain hw | ⟨hm, _⟩ := t.mem_words_or
  · exact .of_isWord ⟨t, hw, rfl⟩ t.bytes_ne_nil (isWordByte_of_word hw) (hs hw)
  · exact .of_forall_false (isWordByte_of_mark hm) _

theorem forall_isWord (h : AddsWords u bytes) (hb : ∀ i r, IsWordRun bytes i r → IsWord r) :
    ∀ i r, IsWordRun (u ++ bytes) i r → IsWord r := by
  intro i r hr
  obtain hw | ⟨j, _, hr⟩ := h.run_append i r hr
  · exact hw
  · exact hb j r hr

theorem forall_isWord_of_nil (h : AddsWords u []) : ∀ i r, IsWordRun u i r → IsWord r := by
  have hnil : ∀ i r, IsWordRun [] i r → IsWord r :=
    fun i r hr => absurd (by simpa using hr.longest) hr.nonempty
  simpa using h.forall_isWord hnil

theorem firstUnknownRun {i : Nat} {run : List UInt8} (h : AddsWords u bytes)
    (hf : FirstUnknownRun bytes i run) : FirstUnknownRun (u ++ bytes) (u.length + i) run where
  isRun := h.append_run i run hf.isRun
  unknown := hf.unknown
  first j hj r hr := by
    obtain hw | ⟨k, rfl, hk⟩ := h.run_append j r hr
    · exact hw
    · exact hf.first k (by omega) r hk

end AddsWords

section

variable {g text : Text} {w : List Terminal}

theorem encode_append (t u : Text) : Text.encode (t ++ u) = t.encode ++ u.encode :=
  List.flatMap_append

theorem encode_spell (t : Terminal) : (spell t).encode = t.bytes := by
  rcases t with (_ | _ | _ | _) | (_ | _ | _) | _ | _ <;> decide

/-- Blanks of the grammar are blanks of the lexer. -/
theorem isBlank_of_isGap (h : ∀ c ∈ g, isGap c) : ∀ b ∈ g.encode, isBlank b := by
  intro b hb
  obtain ⟨c, hc, hb⟩ := List.mem_flatMap.1 hb
  have hgap := h c hc
  simp only [isGap, Bool.or_eq_true, decide_eq_true_eq] at hgap
  rcases hgap with (((rfl | rfl) | rfl) | rfl) | rfl
  all_goals
    obtain rfl := List.mem_singleton.1 hb
    decide

theorem firstUnknownRun_of_glued {t : Terminal} {bytes : List UInt8} (ht : t ∈ Terminal.words)
    (hs : ¬ StopsWord bytes) :
    ∃ b more, t.bytes ++ bytes = b :: more ++ bytes.dropWhile isWordByte ∧
      FirstUnknownRun (t.bytes ++ bytes) 0 (b :: more) ∧ (∀ c ∈ b :: more, isWordByte c) ∧
      StopsWord (bytes.dropWhile isWordByte) := by
  obtain ⟨b, more, hb⟩ := List.exists_cons_of_ne_nil t.bytes_ne_nil
  have hrest : StopsWord (bytes.dropWhile isWordByte) := stopsWord_dropWhile bytes
  have hne : bytes.takeWhile isWordByte ≠ [] := by
    intro h
    rw [← List.takeWhile_append_dropWhile (p := isWordByte) (l := bytes), h] at hs
    exact hs hrest
  have hrun : b :: (more ++ bytes.takeWhile isWordByte) = t.bytes ++ bytes.takeWhile isWordByte := by
    rw [hb, List.cons_append]
  have hbytes : ∀ c ∈ t.bytes ++ bytes.takeWhile isWordByte, isWordByte c := by
    intro c hc
    obtain hc | hc := List.mem_append.1 hc
    · exact isWordByte_of_word ht c hc
    · exact List.mem_takeWhile_imp hc
  have happ : t.bytes ++ bytes =
      t.bytes ++ bytes.takeWhile isWordByte ++ bytes.dropWhile isWordByte := by
    rw [List.append_assoc, List.takeWhile_append_dropWhile]
  refine ⟨b, more ++ bytes.takeWhile isWordByte, ?_, ?_, ?_, hrest⟩
  · rw [hrun, ← happ]
  · rw [hrun, happ]
    exact ⟨AddsWords.isWordRun_zero (by simp [t.bytes_ne_nil]) hbytes hrest,
      not_isWord_append ht hne, fun j hj => absurd hj (Nat.not_lt_zero j)⟩
  · rw [hrun]
    exact hbytes

/-- A text of a word is read to its end, or else up to the first run that is no word. -/
theorem lexes_of_spelled (h : Spelled w text) : ∀ n : Nat,
    ((⟨text.encode, n⟩ : Lexer).Lexes w ∧ ∀ i r, IsWordRun text.encode i r → IsWord r) ∨
      ∃ i b more, FirstUnknownRun text.encode i (b :: more) ∧
        (⟨text.encode, n⟩ : Lexer).LexesUpTo w (.unknownWord (n + i) b more) := by
  induction h with
  | @blank g hg =>
    intro n
    have hb := isBlank_of_isGap hg
    have hadds : AddsWords g.encode [] :=
      .of_forall_false (fun b h => isWordByte_of_isBlank (hb b h)) []
    exact .inl ⟨⟨[], _, _, _, _, .done _, rfl, Lexer.next_blank hb n⟩, hadds.forall_isWord_of_nil⟩
  | @terminal g text w t hg _ ih =>
    intro n
    have hb := isBlank_of_isGap hg
    have hadds : ∀ bytes, AddsWords g.encode bytes :=
      .of_forall_false fun b h => isWordByte_of_isBlank (hb b h)
    rw [encode_append, encode_append, encode_spell, List.append_assoc]
    by_cases hstop : t ∈ Terminal.words → StopsWord text.encode
    · have hy := Lexer.yields_terminal t hb hstop n
      have hall := (hadds (t.bytes ++ text.encode)).append (.of_terminal t hstop)
      rw [← List.append_assoc]
      obtain ⟨hl, hr⟩ | ⟨i, b, more, hf, hl⟩ := ih (n + g.encode.length + t.bytes.length)
      · refine .inl ⟨?_, hall.forall_isWord hr⟩
        rw [List.append_assoc]
        exact .cons hy hl
      · refine .inr ⟨_, b, more, hall.firstUnknownRun hf, ?_⟩
        rw [List.append_assoc, List.length_append, ← Nat.add_assoc, ← Nat.add_assoc]
        exact .cons hy hl
    · -- The word is glued to what follows, and the whole run is unknown.
      obtain ⟨hw, hs⟩ := Classical.not_imp.1 hstop
      obtain ⟨b, more, hrun, hf, hbytes, hrest⟩ := firstUnknownRun_of_glued hw hs
      refine .inr ⟨_, b, more, (hadds _).firstUnknownRun hf, ?_⟩
      have hn := Lexer.next_unknown hb hbytes hf.unknown hrest n
      rw [← hrun] at hn
      exact ⟨[], _, _, _, t :: w, .done _, rfl, hn⟩

end

end ZeroOne
