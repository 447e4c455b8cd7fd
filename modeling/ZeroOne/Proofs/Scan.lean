import ZeroOne.Proofs.Reader
import ZeroOne.Proofs.WordRun

/-! One call of the lexer, for all that bytes can start with: what it hands out and what it leaves. -/
namespace ZeroOne

theorem isWordByte_of_mark {t : Terminal} (h : t ∈ Terminal.marks) :
    ∀ b ∈ t.bytes, isWordByte b = false := by
  have all : ∀ t ∈ Terminal.marks, t.bytes.all fun b => !isWordByte b := by decide
  intro b hb
  simpa using List.all_eq_true.1 (all t h) b hb

theorem isWordByte_of_word {t : Terminal} (h : t ∈ Terminal.words) :
    ∀ b ∈ t.bytes, isWordByte b := by
  have all : ∀ t ∈ Terminal.words, t.bytes.all isWordByte := by decide
  exact List.all_eq_true.1 (all t h)

/-- Every terminal is a word or a mark, and a mark is a single byte. -/
theorem Terminal.mem_words_or (t : Terminal) :
    t ∈ words ∨ t ∈ marks ∧ ∃ b, t.bytes = [b] ∧ ofMark? b = some t ∧ isBlank b = false := by
  rcases t with (_ | _ | _ | _) | (_ | _ | _) | _ | _
  all_goals first
    | exact .inl (by decide)
    | exact .inr ⟨by decide, _, rfl, by decide, by decide⟩

theorem Terminal.not_mem_words {t : Terminal} (h : t ∈ marks) : t ∉ words := by
  have all : ∀ t ∈ marks, t ∉ words := by decide
  exact all t h

theorem Terminal.bytes_ne_nil (t : Terminal) : t.bytes ≠ [] := by
  rcases t with (_ | _ | _ | _) | (_ | _ | _) | _ | _ <;> decide

theorem Terminal.ofMark?_of_isWordByte {b : UInt8} (h : isWordByte b) : ofMark? b = none := by
  rw [ofMark?, List.find?_eq_none]
  intro t ht hb
  have := isWordByte_of_mark ht b (by simp [eq_of_beq hb])
  simp [h] at this

theorem isBlank_of_isWordByte {b : UInt8} (h : isWordByte b) : isBlank b = false := by
  by_contra hb
  simp only [isBlank, Bool.not_eq_false, Bool.or_eq_true, decide_eq_true_eq] at hb
  rcases hb with (((rfl | rfl) | rfl) | rfl) | rfl <;> simp [isWordByte] at h

theorem isWordByte_of_isBlank {b : UInt8} (h : isBlank b) : isWordByte b = false := by
  by_contra hw
  have := isBlank_of_isWordByte (by simpa using hw)
  simp [h] at this

theorem lt_of_isBlank {b : UInt8} (h : isBlank b) : b < 128 := by
  simp only [isBlank, Bool.or_eq_true, decide_eq_true_eq] at h
  rcases h with (((rfl | rfl) | rfl) | rfl) | rfl <;> decide

theorem lt_of_isWordByte {b : UInt8} (h : isWordByte b) : b < 128 := by
  simp only [isWordByte, Bool.or_eq_true, Bool.and_eq_true, decide_eq_true_eq] at h
  obtain ((⟨_, h⟩ | ⟨_, h⟩) | rfl) | rfl := h
  · exact UInt8.lt_of_le_of_lt h (by decide)
  · exact UInt8.lt_of_le_of_lt h (by decide)
  · decide
  · decide

theorem Terminal.lt_of_mem_bytes (t : Terminal) : ∀ b ∈ t.bytes, b < 128 := by
  have all : t.bytes.all (· < 128) := by
    rcases t with (_ | _ | _ | _) | (_ | _ | _) | _ | _ <;> decide
  intro b hb
  simpa using List.all_eq_true.1 all b hb

theorem Terminal.ofWord?_bytes {t : Terminal} (h : t ∈ words) : ofWord? t.bytes = some t := by
  have all : ∀ t ∈ words, ofWord? t.bytes = some t := by decide
  exact all t h

theorem Terminal.ofWord?_eq_none {run : List UInt8} (h : ¬ IsWord run) : ofWord? run = none := by
  rw [ofWord?, List.find?_eq_none]
  intro t ht hb
  exact h ⟨t, ht, eq_of_beq hb⟩

/-- No word goes on to another word. -/
theorem not_isWord_append {t : Terminal} (ht : t ∈ Terminal.words) {more : List UInt8}
    (hm : more ≠ []) : ¬ IsWord (t.bytes ++ more) := by
  rintro ⟨u, hu, he⟩
  have all : ∀ t ∈ Terminal.words, ∀ u ∈ Terminal.words, t.bytes <+: u.bytes → t.bytes = u.bytes := by
    decide
  have hp := all t ht u hu ⟨more, he.symm⟩
  rw [← hp] at he
  exact hm (by simpa using he)

/-- Blanks only, or behind some blanks a terminal, a run that is no word, or a byte that nothing
starts with. -/
inductive Finds : List UInt8 → Prop
  | blanks {g : List UInt8} : (∀ b ∈ g, isBlank b) → Finds g
  | terminal {g rest : List UInt8} (t : Terminal) :
    (∀ b ∈ g, isBlank b) → (t ∈ Terminal.words → StopsWord rest) →
      Finds (g ++ (t.bytes ++ rest))
  | unknown {g rest : List UInt8} {b : UInt8} {more : List UInt8} :
    (∀ b ∈ g, isBlank b) → (∀ c ∈ b :: more, isWordByte c) → ¬ IsWord (b :: more) →
      StopsWord rest → Finds (g ++ (b :: more ++ rest))
  | unexpected {g rest : List UInt8} {b : UInt8} :
    (∀ b ∈ g, isBlank b) → isBlank b = false → isWordByte b = false →
      Terminal.ofMark? b = none → Finds (g ++ b :: rest)

theorem finds (bytes : List UInt8) : Finds bytes := by
  have hblank : ∀ b ∈ bytes.takeWhile isBlank, isBlank b := fun b hb => List.mem_takeWhile_imp hb
  have hbytes : bytes.takeWhile isBlank ++ bytes.dropWhile isBlank = bytes :=
    List.takeWhile_append_dropWhile
  have hhead := List.head?_dropWhile_not isBlank bytes
  rw [← hbytes]
  cases hd : bytes.dropWhile isBlank with
  | nil =>
    rw [List.append_nil]
    exact .blanks hblank
  | cons b rest =>
    have hb : isBlank b = false := by simpa [hd] using hhead
    cases hm : Terminal.ofMark? b with
    | some t =>
      have hmark : t ∈ Terminal.marks := List.mem_of_find?_eq_some hm
      have hspelled : t.bytes = [b] := by simpa using List.find?_some hm
      have h : Finds (bytes.takeWhile isBlank ++ (t.bytes ++ rest)) :=
        .terminal t hblank fun ht => absurd ht (Terminal.not_mem_words hmark)
      rwa [hspelled] at h
    | none =>
      by_cases hw : isWordByte b
      · have hrun : ∀ c ∈ b :: rest.takeWhile isWordByte, isWordByte c := by
          intro c hc
          obtain rfl | hc := List.mem_cons.1 hc
          · exact hw
          · exact List.mem_takeWhile_imp hc
        have hsplit : b :: rest = b :: rest.takeWhile isWordByte ++ rest.dropWhile isWordByte := by
          rw [List.cons_append, List.takeWhile_append_dropWhile]
        rw [hsplit]
        by_cases hword : IsWord (b :: rest.takeWhile isWordByte)
        · obtain ⟨t, ht, he⟩ := hword
          rw [← he]
          exact .terminal t hblank fun _ => stopsWord_dropWhile rest
        · exact .unknown hblank hrun hword (stopsWord_dropWhile rest)
      · exact .unexpected hblank hb (by simpa using hw) hm

namespace Lexer

variable {g rest : List UInt8}

theorem skip_append {p : UInt8 → Bool} (hg : ∀ b ∈ g, p b) (hr : ∀ b, rest.head? = some b → p b = false)
    (n : Nat) : (⟨g ++ rest, n⟩ : Lexer).skip p = ⟨rest, n + g.length⟩ := by
  have ht : rest.takeWhile p = [] := by
    cases rest with
    | nil => rfl
    | cons b bs => simp [hr b rfl]
  have hd : rest.dropWhile p = rest := by
    cases rest with
    | nil => rfl
    | cons b bs => simp [hr b rfl]
  simp only [skip, List.takeWhile_append_of_pos hg, List.dropWhile_append_of_pos hg, ht, hd,
    List.append_nil]

theorem scan_append (hg : ∀ b ∈ g, isBlank b) (hr : ∀ b, rest.head? = some b → isBlank b = false)
    (n : Nat) : (⟨g ++ rest, n⟩ : Lexer).scan = (⟨rest, n + g.length⟩ : Lexer).scanHere := by
  rw [scan, skip_append hg hr]

theorem next_terminal (t : Terminal) (hg : ∀ b ∈ g, isBlank b)
    (hs : t ∈ Terminal.words → StopsWord rest) (n : Nat) :
    TokenSource.next (⟨g ++ (t.bytes ++ rest), n⟩ : Lexer) =
      (⟨[.token ⟨.terminal t, ((n + g.length : Nat) : Int)⟩],
        .ok ⟨.terminal t, ((n + g.length : Nat) : Int)⟩⟩,
        ⟨rest, n + g.length + t.bytes.length⟩) := by
  have hscan : (⟨g ++ (t.bytes ++ rest), n⟩ : Lexer).scan =
      (.ok ⟨.terminal t, ((n + g.length : Nat) : Int)⟩,
        ⟨rest, n + g.length + t.bytes.length⟩) := by
    obtain hw | ⟨hm, b, hb, hof, hblank⟩ := t.mem_words_or
    · have hbytes := isWordByte_of_word hw
      obtain ⟨b, more, hb⟩ := List.exists_cons_of_ne_nil t.bytes_ne_nil
      have hword : isWordByte b := hbytes b (by simp [hb])
      rw [scan_append hg (by simpa [hb] using isBlank_of_isWordByte hword)]
      have hskip := skip_append (p := isWordByte) hbytes (hs hw) (n + g.length)
      have hrun : more ++ rest.takeWhile isWordByte = more := by
        rw [takeWhile_eq_nil_of_stopsWord (hs hw), List.append_nil]
      have htake : (more ++ rest).takeWhile isWordByte = more := by
        rw [List.takeWhile_append_of_pos fun c hc => hbytes c (by simp [hb, hc]), hrun]
      rw [hb] at hskip ⊢
      simp only [List.cons_append] at hskip ⊢
      simp only [scanHere, Terminal.ofMark?_of_isWordByte hword, hword, if_true, htake, hskip]
      rw [← hb, Terminal.ofWord?_bytes hw]
    · rw [hb, scan_append hg (by simpa using hblank)]
      simp [scanHere, hof]
  simp [TokenSource.next, next, hscan, record]

theorem yields_terminal (t : Terminal) (hg : ∀ b ∈ g, isBlank b)
    (hs : t ∈ Terminal.words → StopsWord rest) (n : Nat) :
    Yields (⟨g ++ (t.bytes ++ rest), n⟩ : Lexer) [(t, ((n + g.length : Nat) : Int))]
      ⟨rest, n + g.length + t.bytes.length⟩ :=
  .token (next_terminal t hg hs n) (.done _)

theorem next_blank (hg : ∀ b ∈ g, isBlank b) (n : Nat) :
    TokenSource.next (⟨g, n⟩ : Lexer) =
      (⟨[], .ok ⟨.eof, ((n + g.length : Nat) : Int)⟩⟩, ⟨[], n + g.length⟩) := by
  have hscan : (⟨g ++ [], n⟩ : Lexer).scan = (⟨[], n + g.length⟩ : Lexer).scanHere :=
    scan_append hg (by simp) n
  rw [List.append_nil] at hscan
  simp [TokenSource.next, next, hscan, scanHere, record]

theorem next_unknown {b : UInt8} {more : List UInt8} (hg : ∀ b ∈ g, isBlank b)
    (hb : ∀ c ∈ b :: more, isWordByte c) (hu : ¬ IsWord (b :: more)) (hs : StopsWord rest) (n : Nat) :
    TokenSource.next (⟨g ++ (b :: more ++ rest), n⟩ : Lexer) =
      (⟨[], .error (.unknownWord (n + g.length) b more)⟩,
        ⟨rest, n + g.length + (more.length + 1)⟩) := by
  have hword : isWordByte b := hb b (by simp)
  have hscan : (⟨g ++ (b :: more ++ rest), n⟩ : Lexer).scan =
      (⟨b :: more ++ rest, n + g.length⟩ : Lexer).scanHere :=
    scan_append hg (by simpa using isBlank_of_isWordByte hword) n
  have hskip := skip_append (p := isWordByte) hb hs (n + g.length)
  have htake : (more ++ rest).takeWhile isWordByte = more := by
    rw [List.takeWhile_append_of_pos fun c hc => hb c (by simp [hc]),
      takeWhile_eq_nil_of_stopsWord hs, List.append_nil]
  simp only [List.cons_append] at hscan hskip ⊢
  simp [TokenSource.next, next, hscan, scanHere, Terminal.ofMark?_of_isWordByte hword, hword, htake,
    Terminal.ofWord?_eq_none hu, hskip, record]

theorem next_unexpected {b : UInt8} (hg : ∀ b ∈ g, isBlank b)
    (hb : isBlank b = false) (hw : isWordByte b = false) (hm : Terminal.ofMark? b = none) (n : Nat) :
    TokenSource.next (⟨g ++ b :: rest, n⟩ : Lexer) =
      (⟨[], .error (.unexpectedByte (n + g.length) b)⟩, ⟨b :: rest, n + g.length⟩) := by
  have hscan : (⟨g ++ b :: rest, n⟩ : Lexer).scan = (⟨b :: rest, n + g.length⟩ : Lexer).scanHere :=
    scan_append hg (by simpa using hb) n
  simp [TokenSource.next, next, hscan, scanHere, hm, hw, record]

/-- All that one call of the lexer can come to. -/
inductive Step : Lexer → Traced LexError Token → Lexer → Prop
  | blanks {g : List UInt8} {n : Nat} : (∀ b ∈ g, isBlank b) →
    Step ⟨g, n⟩ ⟨[], .ok ⟨.eof, ((n + g.length : Nat) : Int)⟩⟩ ⟨[], n + g.length⟩
  | terminal {g rest : List UInt8} {n : Nat} (t : Terminal) :
    (∀ b ∈ g, isBlank b) → (t ∈ Terminal.words → StopsWord rest) →
      Step ⟨g ++ (t.bytes ++ rest), n⟩
        ⟨[.token ⟨.terminal t, ((n + g.length : Nat) : Int)⟩],
          .ok ⟨.terminal t, ((n + g.length : Nat) : Int)⟩⟩
        ⟨rest, n + g.length + t.bytes.length⟩
  | unknown {g rest : List UInt8} {b : UInt8} {more : List UInt8} {n : Nat} :
    (∀ b ∈ g, isBlank b) → (∀ c ∈ b :: more, isWordByte c) →
      Step ⟨g ++ (b :: more ++ rest), n⟩ ⟨[], .error (.unknownWord (n + g.length) b more)⟩
        ⟨rest, n + g.length + (more.length + 1)⟩
  | unexpected {g rest : List UInt8} {b : UInt8} {n : Nat} : (∀ b ∈ g, isBlank b) →
    Step ⟨g ++ b :: rest, n⟩ ⟨[], .error (.unexpectedByte (n + g.length) b)⟩
      ⟨b :: rest, n + g.length⟩

section

variable {s s' : Lexer} {es : List Event} {p : Int}

theorem step_of_next {x : Traced LexError Token} (h : TokenSource.next s = (x, s')) :
    Step s x s' := by
  obtain ⟨bytes, n⟩ := s
  cases finds bytes with
  | blanks hg =>
    rw [next_blank hg] at h
    cases h
    exact .blanks hg
  | terminal t hg hs =>
    rw [next_terminal t hg hs] at h
    cases h
    exact .terminal t hg hs
  | unknown hg hb hu hs =>
    rw [next_unknown hg hb hu hs] at h
    cases h
    exact .unknown hg hb
  | unexpected hg hb hw hm =>
    rw [next_unexpected hg hb hw hm] at h
    cases h
    exact .unexpected hg

/-- The end of the input is met behind blanks only, and behind the last byte. -/
theorem blank_of_next_eof (h : TokenSource.next s = (⟨es, .ok ⟨.eof, p⟩⟩, s')) :
    (∀ b ∈ s.rest, isBlank b) ∧ p = ((s.position + s.rest.length : Nat) : Int) := by
  cases step_of_next h with
  | blanks hg => exact ⟨hg, rfl⟩

theorem position_of_next_eof (h : TokenSource.next s = (⟨es, .ok ⟨.eof, p⟩⟩, s')) :
    (s'.position : Int) = p := by
  cases step_of_next h with
  | blanks hg => rfl

/-- An unexpected byte is not passed. -/
theorem position_of_next_unexpectedByte {q : Nat} {b : UInt8}
    (h : TokenSource.next s = (⟨es, .error (.unexpectedByte q b)⟩, s')) : s'.position = q := by
  cases step_of_next h with
  | unexpected hg => rfl

/-- An error is met where the lexer stands, or behind some blanks. -/
theorem position_le_of_next_error {e : LexError} (h : TokenSource.next s = (⟨es, .error e⟩, s')) :
    s.position ≤ e.pos := by
  cases step_of_next h with
  | unknown hg hb => exact Nat.le_add_right _ _
  | unexpected hg => exact Nat.le_add_right _ _

/-- A terminal is met behind blanks, and the lexer goes on behind it. -/
theorem split_of_next_terminal {t : Terminal}
    (h : TokenSource.next s = (⟨es, .ok ⟨.terminal t, p⟩⟩, s')) :
    ∃ g, (∀ b ∈ g, isBlank b) ∧ s.rest = g ++ (t.bytes ++ s'.rest) ∧
      (t ∈ Terminal.words → StopsWord s'.rest) ∧ p = ((s.position + g.length : Nat) : Int) ∧
      s'.position = s.position + g.length + t.bytes.length := by
  cases step_of_next h with
  | terminal t hg hs => exact ⟨_, hg, rfl, hs, rfl, rfl⟩

/-- All tokens that are handed out stand in front of where the lexer is then. -/
theorem lt_position_of_yields {last : Lexer} {ts : List (Terminal × Int)} (h : Yields s ts last) :
    s.position ≤ last.position ∧ ∀ t ∈ ts, t.2 < last.position := by
  induction h with
  | done => exact ⟨le_rfl, nofun⟩
  | @token s s' last es t p ts hn _ ih =>
    obtain ⟨hle, hlt⟩ := ih
    obtain ⟨g, _, _, _, hp, hposition⟩ := split_of_next_terminal hn
    have hbytes : 0 < t.bytes.length := List.length_pos_iff.2 t.bytes_ne_nil
    refine ⟨by omega, fun u hu => ?_⟩
    rcases List.mem_cons.1 hu with rfl | hu
    · change p < _
      omega
    · exact hlt u hu

end

end Lexer
end ZeroOne
