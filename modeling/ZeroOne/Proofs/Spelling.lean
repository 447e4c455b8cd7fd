import ZeroOne.Grammar.Cursor
import Mathlib.Data.List.TakeWhile

/-! The texts of a word. No spelling starts another one, so a text has at most one word, and so has each
first part of it. -/
namespace ZeroOne.Grammar

/-- A text spells a word if the spellings of its terminals follow one another in it, with blanks
anywhere around them. -/
inductive Spelled : List Terminal → Text → Prop
  | blank {g : Text} : (∀ c ∈ g, isGap c) → Spelled [] g
  | terminal {g text : Text} {w : List Terminal} (t : Terminal) :
    (∀ c ∈ g, isGap c) → Spelled w text → Spelled (t :: w) (g ++ spell t ++ text)

theorem Spelled.nil : Spelled [] [] := .blank (by simp)

theorem Spelled.cons {w : List Terminal} {text : Text} (t : Terminal) (h : Spelled w text) :
    Spelled (t :: w) (spell t ++ text) :=
  .terminal (g := []) t (by simp) h

theorem Spelled.blank_append {w : List Terminal} {text g : Text} (hg : ∀ c ∈ g, isGap c)
    (h : Spelled w text) : Spelled w (g ++ text) := by
  have append : ∀ k : Text, (∀ c ∈ k, isGap c) → ∀ c ∈ g ++ k, isGap c := by
    intro k hk c hc
    obtain hc | hc := List.mem_append.1 hc
    · exact hg c hc
    · exact hk c hc
  cases h with
  | blank hk => exact .blank (append _ hk)
  | @terminal k text w t hk hw =>
    have h := Spelled.terminal t (append k hk) hw
    simpa using h

theorem Spelled.append {v w : List Terminal} {front text : Text} (hv : Spelled v front)
    (hw : Spelled w text) : Spelled (v ++ w) (front ++ text) := by
  induction hv with
  | blank hg => exact hw.blank_append hg
  | @terminal g front v t hg _ ih =>
    have h := Spelled.terminal t hg ih
    simpa using h

theorem mem_all (t : Terminal) : t ∈ Terminal.all := by
  rcases t with (_ | _ | _ | _) | (_ | _ | _) | _ | _ <;> simp [Terminal.all]

/-- A spelling starts with a code point that is not blank, and that no other spelling starts with. -/
theorem spell_eq_cons (t : Terminal) : ∃ c cs, spell t = c :: cs ∧ isGap c = false := by
  rcases t with (_ | _ | _ | _) | (_ | _ | _) | _ | _ <;> exact ⟨_, _, rfl, by decide⟩

theorem eq_of_head?_spell {t u : Terminal} (h : (spell t).head? = (spell u).head?) : t = u := by
  have all : ∀ t ∈ Terminal.all, ∀ u ∈ Terminal.all,
      (spell t).head? = (spell u).head? → t = u := by decide
  exact all t (mem_all t) u (mem_all u) h

theorem strip?_spell_of_ne {t u : Terminal} (h : u ≠ t) (text : Text) :
    strip? (spell u) (spell t ++ text) = none := by
  obtain ⟨c, cs, ht, _⟩ := spell_eq_cons t
  obtain ⟨d, ds, hu, _⟩ := spell_eq_cons u
  have hd : d ≠ c := by
    rintro rfl
    exact h (eq_of_head?_spell (by rw [ht, hu]; rfl))
  simp [ht, hu, strip?, hd]

theorem Cursor.rest_skip {c : Cursor} {g text : Text} (t : Terminal) (hg : ∀ x ∈ g, isGap x)
    (h : c.rest = g ++ spell t ++ text) : c.skip.rest = spell t ++ text := by
  obtain ⟨x, xs, ht, hx⟩ := spell_eq_cons t
  change c.rest.dropWhile isGap = _
  rw [h, List.append_assoc, List.dropWhile_append_of_pos hg, ht]
  simp [hx]

theorem Cursor.rest_skip_of_blank {c : Cursor} (h : ∀ x ∈ c.rest, isGap x) : c.skip.rest = [] := by
  change c.rest.dropWhile isGap = []
  rw [List.dropWhile_eq_nil_iff]
  exact h

theorem Cursor.spelled_of_skip {c : Cursor} {w : List Terminal} {t : Terminal} {text : Text}
    (h : c.skip.rest = spell t ++ text) (hw : Spelled w text) : Spelled (t :: w) c.rest := by
  have hc : c.rest = c.rest.takeWhile isGap ++ c.skip.rest :=
    (List.takeWhile_append_dropWhile).symm
  rw [hc, h, ← List.append_assoc]
  exact .terminal t (fun x hx => List.mem_takeWhile_imp hx) hw

theorem Cursor.spelled_of_skip_nil {c : Cursor} (h : c.skip.rest = []) : Spelled [] c.rest :=
  .blank (List.dropWhile_eq_nil_iff.1 h)

theorem Cursor.take?_eq_some {c d : Cursor} {t : Terminal} (h : c.take? t = some d) :
    c.rest = spell t ++ d.rest := by
  rw [take?] at h
  split at h
  · rename_i rest hs
    cases h
    exact strip?_eq_some_iff.1 hs
  · cases h

theorem Cursor.scan?_of_spell {c : Cursor} {t : Terminal} {text : Text} {ts : List Terminal}
    (h : c.rest = spell t ++ text) (ht : t ∈ ts) :
    ∃ d, c.scan? ts = some (t, d) ∧ d.rest = text := by
  induction ts with
  | nil => cases ht
  | cons u us ih =>
    by_cases hu : u = t
    · subst hu
      have hs : strip? (spell u) c.rest = some text := strip?_eq_some_iff.2 h
      refine ⟨⟨text, (spell u).foldl Place.next c.place⟩, ?_, rfl⟩
      simp only [scan?, take?, hs]
    · have hs : c.take? u = none := by
        simp only [take?, h, strip?_spell_of_ne hu]
      obtain ⟨d, hd, hr⟩ := ih (List.mem_of_ne_of_mem (Ne.symm hu) ht)
      exact ⟨d, by rw [scan?, hs]; exact hd, hr⟩

theorem Cursor.scan?_nil {c : Cursor} (h : c.rest = []) (ts : List Terminal) : c.scan? ts = none := by
  induction ts with
  | nil => rfl
  | cons u us ih =>
    obtain ⟨d, ds, hu, _⟩ := spell_eq_cons u
    have hs : c.take? u = none := by simp only [take?, h, hu, strip?]
    rw [scan?, hs]
    exact ih

/-- No spelling starts another one, so a text starts with at most one. -/
theorem spell_append_inj {t u : Terminal} {text rest : Text} (h : spell t ++ text = spell u ++ rest) :
    t = u ∧ text = rest := by
  have hstrip : strip? (spell u) (spell t ++ text) = some rest := strip?_eq_some_iff.2 h
  have hu : u = t := by
    by_contra hne
    rw [strip?_spell_of_ne hne] at hstrip
    cases hstrip
  subst hu
  exact ⟨rfl, List.append_cancel_left h⟩

def Visible (text : Text) : Prop := ∃ c ∈ text.head?, isGap c = false

theorem visible_spell_append (t : Terminal) (text : Text) : Visible (spell t ++ text) := by
  obtain ⟨c, cs, hc, hgap⟩ := spell_eq_cons t
  rw [hc]
  exact ⟨c, rfl, hgap⟩

namespace Spelled

variable {v w : List Terminal} {g front rest text : Text} {t : Terminal}

/-- Blanks in front of a text do not matter to its word. -/
theorem of_blank_append (hg : ∀ c ∈ g, isGap c) (h : Spelled w (g ++ text)) : Spelled w text := by
  have hskip : (Cursor.ofText (g ++ text)).skip.rest = (Cursor.ofText text).skip.rest :=
    List.dropWhile_append_of_pos hg
  generalize hwhole : g ++ text = whole at h hskip
  cases h with
  | blank hk =>
    apply blank
    intro c hc
    apply hk
    rw [← hwhole]
    exact List.mem_append_right g hc
  | @terminal k rest w u hk hw =>
    have hspell : (Cursor.ofText text).skip.rest = spell u ++ rest := by
      rw [← hskip]
      exact Cursor.rest_skip u hk rfl
    exact Cursor.spelled_of_skip hspell hw

/-- The word of a text without blanks in front starts with the terminal that is spelled first. -/
theorem exists_cons (h : Spelled w text) (hv : Visible text) :
    ∃ t v rest, w = t :: v ∧ text = spell t ++ rest ∧ Spelled v rest := by
  obtain ⟨c, hc, hgap⟩ := hv
  have blank : ∀ g rest : Text, text = g ++ rest → (∀ c ∈ g, isGap c) → g = [] := by
    rintro (_ | ⟨d, g⟩) rest rfl hg
    · rfl
    · obtain rfl := Option.some.inj hc
      rw [hg d List.mem_cons_self] at hgap
      cases hgap
  cases h with
  | blank hg =>
    obtain rfl := blank text [] (List.append_nil _).symm hg
    cases hc
  | @terminal g rest v t hg hw =>
    obtain rfl := blank g (spell t ++ rest) (List.append_assoc _ _ _) hg
    exact ⟨t, v, rest, rfl, rfl, hw⟩

/-- A text that starts with the spelling of a terminal has a word that starts with the terminal. -/
theorem of_spell_append (h : Spelled w (spell t ++ text)) : ∃ v, w = t :: v ∧ Spelled v text := by
  obtain ⟨u, v, rest, rfl, hspell, hv⟩ := h.exists_cons (visible_spell_append t text)
  obtain ⟨rfl, rfl⟩ := spell_append_inj hspell
  exact ⟨v, rfl, hv⟩

/-- The word of a text starts with the word of each first part that spells one. -/
theorem of_append (hv : Spelled v front) (hw : Spelled w (front ++ rest)) :
    ∃ u, w = v ++ u ∧ Spelled u rest := by
  induction hv generalizing w with
  | blank hg => exact ⟨w, rfl, hw.of_blank_append hg⟩
  | @terminal g text v t hg _ ih =>
    rw [List.append_assoc, List.append_assoc] at hw
    obtain ⟨w', rfl, hbehind⟩ := (hw.of_blank_append hg).of_spell_append
    obtain ⟨u, rfl, hu⟩ := ih hbehind
    exact ⟨u, rfl, hu⟩

theorem unique (hv : Spelled v text) (hw : Spelled w text) : v = w := by
  rw [← List.append_nil text] at hw
  obtain ⟨u, rfl, hu⟩ := hv.of_append hw
  have hnil : u = [] := by
    generalize hend : ([] : Text) = rest at hu
    cases hu with
    | blank => rfl
    | terminal t =>
      obtain ⟨c, cs, hc, _⟩ := spell_eq_cons t
      simp [hc] at hend
  rw [hnil, List.append_nil]

theorem flatMap_spell (w : List Terminal) : Spelled w (w.flatMap spell) := by
  induction w with
  | nil => exact .nil
  | cons t w ih => exact .cons t ih

theorem append_spell (h : Spelled w text) (t : Terminal) : Spelled (w ++ [t]) (text ++ spell t) := by
  have hspell : Spelled [t] (spell t ++ []) := .cons t .nil
  rw [List.append_nil] at hspell
  exact h.append hspell

end Spelled

end ZeroOne.Grammar
