import ZeroOne.Grammar.Parse
import ZeroOne.Proofs.Documented

/-! What the small engine finds, and where it stops: behind a part of the text that spells a word, along
which places are counted. -/
namespace ZeroOne.Grammar

theorem Reading.mem_acceptable_iff {r : Reading} {t : Terminal} :
    t ∈ r.acceptable ↔ (r.step? t).isSome :=
  List.mem_filter.trans (and_iff_right (mem_all t))

theorem Reading.mem_acceptable {r r' : Reading} {t : Terminal} (h : r.step? t = some r') :
    t ∈ r.acceptable :=
  mem_acceptable_iff.2 (Option.isSome_of_eq_some h)

namespace Progress

theorem run_of_spelled {w : List Terminal} {text : Text} (h : Spelled w text) :
    ∀ (p : Progress) {r : Reading}, p.cursor.rest = text → p.reading.steps? w = some r →
      p.run.reading = r ∧ p.run.cursor.rest = [] := by
  induction h with
  | @blank g hg =>
    intro p r hp hr
    cases hr
    have hs : p.cursor.skip.rest = [] := Cursor.rest_skip_of_blank (hp ▸ hg)
    rw [run, Cursor.scan?_nil hs]
    exact ⟨rfl, hs⟩
  | @terminal g text w t hg _ ih =>
    intro p r hp hr
    rw [Reading.steps?_cons] at hr
    obtain ⟨r', hr', hr⟩ := Option.bind_eq_some_iff.1 hr
    obtain ⟨d, hd, hrest⟩ := Cursor.scan?_of_spell (Cursor.rest_skip t hg hp) (Reading.mem_acceptable hr')
    rw [run]
    split
    · rename_i u behind hu
      obtain ⟨rfl, rfl⟩ : t = u ∧ d = behind := by simpa [hd] using hu
      rw [hr']
      exact ih ⟨r', d, _⟩ hrest hr
    · rename_i hn
      simp [hd] at hn

/-- A run that reaches the end of the text has read a word of it. -/
theorem spelled_of_run (p : Progress) (h : p.run.cursor.rest = []) :
    ∃ w, Spelled w p.cursor.rest ∧ p.reading.steps? w = some p.run.reading := by
  fun_induction run p with
  | case1 p =>
    rename_i t behind hs r hr ih
    obtain ⟨w, hw, hrun⟩ := ih h
    refine ⟨t :: w, ?_, by rw [Reading.steps?_cons, hr]; exact hrun⟩
    exact Cursor.spelled_of_skip (Cursor.take?_eq_some (Cursor.take?_of_scan? hs).2) hw
  | case2 p => exact ⟨[], Cursor.spelled_of_skip_nil h, rfl⟩
  | case3 p => exact ⟨[], Cursor.spelled_of_skip_nil h, rfl⟩

theorem result?_eq_some_iff {p : Progress} {t : Tree} :
    p.run.result? = some t ↔
      ∃ w, Spelled w p.cursor.rest ∧ (p.reading.steps? w).bind Reading.result? = some t := by
  constructor
  · intro h
    rw [result?] at h
    split at h
    · rename_i he
      obtain ⟨w, hw, hs⟩ := spelled_of_run p (List.isEmpty_iff.1 he)
      exact ⟨w, hw, by rw [hs]; exact h⟩
    · cases h
  · rintro ⟨w, hw, h⟩
    obtain ⟨r, hr, h⟩ := Option.bind_eq_some_iff.1 h
    obtain ⟨hreading, hrest⟩ := run_of_spelled hw p rfl hr
    rw [result?, hrest, hreading]
    exact h

end Progress

theorem split_of_spelled {w : List Terminal} {text : Text} (h : Spelled w text) :
    ∀ c : Cursor, c.rest = text → split c = .ok w := by
  induction h with
  | @blank g hg =>
    intro c hc
    have hs : c.skip.rest = [] := Cursor.rest_skip_of_blank (hc ▸ hg)
    rw [split, hs]
    rfl
  | @terminal g text w t hg _ ih =>
    intro c hc
    have hs := Cursor.rest_skip t hg hc
    obtain ⟨d, hd, hrest⟩ := Cursor.scan?_of_spell hs (mem_all t)
    obtain ⟨x, xs, hx, _⟩ := spell_eq_cons t
    rw [split, if_neg (by simp [hs, hx])]
    split
    · rename_i u behind hu
      obtain ⟨rfl, rfl⟩ : t = u ∧ d = behind := by simpa [hd] using hu
      rw [ih d hrest]
      rfl
    · rename_i hn
      simp [hd] at hn

theorem spelled_of_split {c : Cursor} {w : List Terminal} (h : split c = .ok w) :
    Spelled w c.rest := by
  fun_induction split c generalizing w with
  | case1 c =>
    rename_i he
    cases h
    exact Cursor.spelled_of_skip_nil (List.isEmpty_iff.1 he)
  | case2 c =>
    rename_i t behind hs ih
    cases hb : split behind with
    | error e => simp [hb, Except.map] at h
    | ok v =>
      obtain rfl : t :: v = w := by simpa [hb, Except.map] using h
      exact Cursor.spelled_of_skip (Cursor.take?_eq_some (Cursor.take?_of_scan? hs).2) (ih hb)
  | case3 c => cases h

/-- All three methods find the tree of a text if and only if the text spells a word with that tree. -/
theorem parse_eq_ok_iff_read? {m : Method} {text : Text} {t : Tree} :
    parse m text = .ok t ↔ ∃ w, Spelled w text ∧ read? w = some t := by
  cases m with
  | earley | lalr =>
    rw [show (∃ w, Spelled w text ∧ read? w = some t) ↔ _ from
      (Progress.result?_eq_some_iff (p := .start text)).symm]
    simp only [parse]
    split <;> simp_all
  | cyk =>
    simp only [parse]
    constructor
    · intro h
      split at h
      · cases h
      · rename_i w hw
        split at h
        · rename_i u hu
          cases h
          exact ⟨w, spelled_of_split hw, hu⟩
        · cases h
    · rintro ⟨w, hw, hr⟩
      rw [split_of_spelled hw (.ofText text) rfl]
      simp only [hr]

theorem parse_eq_ok_iff {m : Method} {text : Text} {t : Tree} :
    parse m text = .ok t ↔ ∃ w, Spelled w text ∧ Derives 0 w t := by
  simp only [parse_eq_ok_iff_read?, read?_eq_some_iff]

section

variable {text front : Text} {w : List Terminal}

namespace Cursor

/-- A cursor in a text, behind a part that spells a word. -/
structure Past (c : Cursor) (text : Text) (w : List Terminal) (front : Text) : Prop where
  text_eq : text = front ++ c.rest
  place_eq : c.place = .behind front
  spelled : Spelled w front

variable {c d : Cursor}

theorem past_ofText (text : Text) : (ofText text).Past text [] [] where
  text_eq := rfl
  place_eq := rfl
  spelled := .nil

theorem Past.prefix (h : c.Past text w front) : front <+: text := ⟨c.rest, h.text_eq.symm⟩

theorem Past.skip (h : c.Past text w front) :
    c.skip.Past text w (front ++ c.rest.takeWhile isGap) where
  text_eq := by
    have hrest : c.rest = c.rest.takeWhile isGap ++ c.skip.rest :=
      (List.takeWhile_append_dropWhile).symm
    rw [List.append_assoc, ← hrest]
    exact h.text_eq
  place_eq := by
    change (c.rest.takeWhile isGap).foldl Place.next c.place = _
    rw [h.place_eq, Place.behind, Place.behind, List.foldl_append]
  spelled := by
    have hgap : Spelled [] (c.rest.takeWhile isGap) := .blank fun _ hx => List.mem_takeWhile_imp hx
    simpa using h.spelled.append hgap

theorem Past.take {t : Terminal} (h : c.Past text w front) (ht : c.take? t = some d) :
    d.Past text (w ++ [t]) (front ++ spell t) where
  text_eq := by
    rw [List.append_assoc, ← take?_eq_some ht]
    exact h.text_eq
  place_eq := by
    rw [take?] at ht
    split at ht
    · cases ht
      change (spell t).foldl Place.next c.place = _
      rw [h.place_eq, Place.behind, Place.behind, List.foldl_append]
    · cases ht
  spelled := by
    have hspell : Spelled [t] (spell t ++ []) := .cons t .nil
    simpa using h.spelled.append hspell

theorem scan?_eq_none_iff {ts : List Terminal} :
    c.scan? ts = none ↔ ∀ t ∈ ts, ¬ spell t <+: c.rest := by
  constructor
  · rintro h t ht ⟨rest, hrest⟩
    obtain ⟨d, hd, _⟩ := scan?_of_spell hrest.symm ht
    rw [hd] at h
    cases h
  · intro h
    cases hs : c.scan? ts with
    | none => rfl
    | some found =>
      obtain ⟨t, d⟩ := found
      obtain ⟨ht, htake⟩ := take?_of_scan? hs
      exact absurd ⟨d.rest, (take?_eq_some htake).symm⟩ (h t ht)

theorem visible_skip (h : c.skip.rest ≠ []) : Visible c.skip.rest := by
  obtain ⟨x, xs, hx⟩ := List.exists_cons_of_ne_nil h
  have hhead := List.head?_dropWhile_not isGap c.rest
  rw [show c.rest.dropWhile isGap = c.skip.rest from rfl, hx] at hhead
  rw [hx]
  exact ⟨x, rfl, by simpa using hhead⟩

end Cursor

namespace Progress

variable {p : Progress}

structure Reached (p : Progress) (text : Text) (w : List Terminal) (front : Text) : Prop where
  past : p.cursor.Past text w front
  reading : Reading.start.steps? w = some p.reading
  last : ∃ before, before <+: front ∧ p.last = .behind before

theorem reached_start (text : Text) : (start text).Reached text [] [] where
  past := Cursor.past_ofText text
  reading := rfl
  last := ⟨[], List.prefix_rfl, rfl⟩

theorem Reached.skip (h : p.Reached text w front) :
    (⟨p.reading, p.cursor.skip, p.last⟩ : Progress).Reached text w
      (front ++ p.cursor.rest.takeWhile isGap) where
  past := h.past.skip
  reading := h.reading
  last := by
    obtain ⟨before, hb, hl⟩ := h.last
    exact ⟨before, hb.trans (List.prefix_append _ _), hl⟩

theorem Reached.step {t : Terminal} {r : Reading} {behind : Cursor} (h : p.Reached text w front)
    (ht : p.cursor.skip.take? t = some behind) (hr : p.reading.step? t = some r) :
    (⟨r, behind, p.cursor.skip.place⟩ : Progress).Reached text (w ++ [t])
      (front ++ p.cursor.rest.takeWhile isGap ++ spell t) where
  past := h.past.skip.take ht
  reading := by rw [Reading.steps?_snoc h.reading, hr]
  last := ⟨_, List.prefix_append _ _, h.past.skip.place_eq⟩

theorem Reached.run (h : p.Reached text w front) : ∃ w' front', p.run.Reached text w' front' := by
  fun_induction Progress.run p generalizing w front with
  | case1 p =>
    rename_i t behind hs r hr ih
    exact ih (h.step (Cursor.take?_of_scan? hs).2 hr)
  | case2 p => exact ⟨w, _, h.skip⟩
  | case3 p => exact ⟨w, _, h.skip⟩

/-- A run stops behind blanks, where none of the terminals is spelled that can come next. -/
theorem stops_run (p : Progress) :
    (∃ c : Cursor, p.run.cursor = c.skip) ∧ p.run.cursor.scan? p.run.reading.acceptable = none := by
  fun_induction Progress.run p with
  | case1 p =>
    rename_i ih
    exact ih
  | case2 p =>
    -- What is found can come next, so the reading does go on with it.
    rename_i t behind hs hr
    have ht := Reading.mem_acceptable_iff.1 (Cursor.take?_of_scan? hs).1
    rw [hr] at ht
    cases ht
  | case3 p =>
    rename_i hs
    exact ⟨⟨p.cursor, rfl⟩, hs⟩

theorem visible_run (hne : p.run.cursor.rest ≠ []) : Visible p.run.cursor.rest := by
  obtain ⟨⟨d, hd⟩, _⟩ := stops_run p
  rw [hd] at hne ⊢
  exact Cursor.visible_skip hne

/-- The terminals that can come next are those that the chart awaits. -/
theorem Reached.mem_acceptable (h : p.Reached text w front) (t : Terminal) :
    t ∈ p.reading.acceptable ↔ Awaits w t := by
  rw [Reading.mem_acceptable_iff, ← viable_append_iff h.reading, awaits_iff]

theorem Reached.viable (h : p.Reached text w front) : Viable w := viable_iff.2 ⟨_, h.reading⟩

theorem Reached.spelled_of_nil (h : p.Reached text w front) (hrest : p.cursor.rest = []) :
    Spelled w text := by
  have htext := h.past.text_eq
  rw [hrest, List.append_nil] at htext
  exact htext ▸ h.past.spelled

/-- A run that goes no further is reported by what the chart awaits there. -/
theorem Reached.report_expecting (h : p.run.Reached text w front) :
    Report .earley text p.run.failExpecting := by
  have hcharted : Charted w := charted_iff.2 h.viable
  by_cases hrest : p.run.cursor.rest = []
  · have hend : p.run.failExpecting = .endOfText p.run.reading.acceptable := by
      rw [failExpecting, hrest]
      rfl
    rw [hend]
    exact .earleyEnd (h.spelled_of_nil hrest) hcharted h.mem_acceptable
  · have hplace : p.run.failExpecting =
        .characters (.behind front) (some p.run.reading.acceptable) := by
      rw [failExpecting, if_neg (by simpa using hrest), h.past.place_eq]
    have hdead : ∀ t, Awaits w t → ¬ spell t <+: p.run.cursor.rest := fun t ht =>
      Cursor.scan?_eq_none_iff.1 (stops_run p).2 t ((h.mem_acceptable t).2 ht)
    rw [hplace, h.past.text_eq]
    exact .earleyCharacters h.past.spelled hcharted h.mem_acceptable (visible_run hrest) hdead

/-- It is also reported by the terminal that came, if one did. -/
theorem Reached.report_finding (h : p.run.Reached text w front) :
    Report .lalr text p.run.failFinding := by
  by_cases hrest : p.run.cursor.rest = []
  · obtain ⟨before, hbefore, hlast⟩ := h.last
    have hend : p.run.failFinding = .token (.behind before) none := by
      rw [failFinding, hrest, hlast]
      rfl
    rw [hend]
    exact .lalrEnd (h.spelled_of_nil hrest) h.viable (hbefore.trans h.past.prefix)
  · rw [failFinding, if_neg (by simpa using hrest), h.past.place_eq, h.past.text_eq]
    cases hs : p.run.cursor.scan? Terminal.all with
    | none =>
      have hnone : ∀ t, ¬ spell t <+: p.run.cursor.rest := fun t =>
        Cursor.scan?_eq_none_iff.1 hs t (mem_all t)
      exact .lalrCharacters h.past.spelled h.viable (visible_run hrest) hnone
    | some found =>
      obtain ⟨t, d⟩ := found
      have hspell : spell t <+: p.run.cursor.rest :=
        ⟨d.rest, (Cursor.take?_eq_some (Cursor.take?_of_scan? hs).2).symm⟩
      have hdead : ¬ Viable (w ++ [t]) := fun hv =>
        Cursor.scan?_eq_none_iff.1 (stops_run p).2 t
          ((h.mem_acceptable t).2 (awaits_iff.2 hv)) hspell
      exact .lalrToken h.past.spelled h.viable hspell hdead

end Progress

/-- A text that cannot be split into terminals is left where none is spelled. -/
theorem report_of_split {c : Cursor} {e : Failure} (hc : c.Past text w front)
    (h : split c = .error e) : Report .cyk text e := by
  fun_induction split c generalizing w front with
  | case1 c => cases h
  | case2 c =>
    rename_i t behind hs ih
    cases hb : split behind with
    | ok v => simp [hb, Except.map] at h
    | error e' =>
      obtain rfl : e' = e := by simpa [hb, Except.map] using h
      exact ih (hc.skip.take (Cursor.take?_of_scan? hs).2) hb
  | case3 c =>
    rename_i hrest hs
    obtain rfl := Except.error.inj h
    have hnone : ∀ t, ¬ spell t <+: c.skip.rest := fun t =>
      Cursor.scan?_eq_none_iff.1 hs t (mem_all t)
    rw [hc.skip.place_eq, hc.skip.text_eq]
    exact .cykCharacters hc.skip.spelled (Cursor.visible_skip (by simpa using hrest)) hnone

theorem report_of_parse {m : Method} {e : Failure} (h : parse m text = .error e) :
    Report m text e := by
  obtain ⟨w, front, hreached⟩ := (Progress.reached_start text).run
  cases m with
  | earley =>
    simp only [parse] at h
    split at h
    · cases h
    · obtain rfl := Except.error.inj h
      exact hreached.report_expecting
  | lalr =>
    simp only [parse] at h
    split at h
    · cases h
    · obtain rfl := Except.error.inj h
      exact hreached.report_finding
  | cyk =>
    simp only [parse] at h
    split at h
    · rename_i hs
      obtain rfl := Except.error.inj h
      exact report_of_split (Cursor.past_ofText text) hs
    · rename_i w hs
      split at h
      · cases h
      · obtain rfl := Except.error.inj h
        exact .cykUngrammatical (spelled_of_split hs)

end

theorem ParseTree.expression_of_ofTree? {t : Tree} :
    ∀ {q : ParseTree}, ofTree? t = some q → q.expression = t := by
  fun_induction ofTree? t with
  | case1 | case2 | case3 | case4 =>
    rintro _ ⟨⟩
    rfl
  | case5 o l r ihl ihr =>
    intro q h
    obtain ⟨a, ha, h⟩ := Option.bind_eq_some_iff.1 h
    obtain ⟨b, hb, h⟩ := Option.bind_eq_some_iff.1 h
    obtain rfl := Option.some.inj h
    rw [expression, ihl ha, ihr hb]
  | case6 => nofun

theorem Derives.exists_parseTree {p : Nat} {w : List Terminal} {t : Tree} (h : Derives p w t) :
    ∃ q, ParseTree.ofTree? t = some q := by
  induction h using Derives.induction with
  | literal l => cases l <;> exact ⟨_, rfl⟩
  | group _ _ _ ih => exact ih
  | operation o _ _ l r _ _ ihl ihr =>
    obtain ⟨a, ha⟩ := ihl
    obtain ⟨b, hb⟩ := ihr
    exact ⟨.operation o a b, by rw [ParseTree.ofTree?, ha, hb]; rfl⟩
  | looser _ _ _ _ ih => exact ih

theorem reader_parse_cases (m : Method) (text : Text) :
    (∃ t q, parse m text = .ok t ∧ reader.parse m text = .ok q ∧ q.expression = t) ∨
      ∃ e, parse m text = .error e ∧ reader.parse m text = .error (.failed e) := by
  simp only [reader]
  rcases hp : parse m text with e | t
  · exact .inr ⟨e, rfl, rfl⟩
  · obtain ⟨w, _, ht⟩ := parse_eq_ok_iff.1 hp
    obtain ⟨q, hq⟩ := ht.exists_parseTree
    exact .inl ⟨t, q, rfl, by simp only [hq], ParseTree.expression_of_ofTree? hq⟩

theorem parse_of_reader_parse {m : Method} {text : Text} {e : Failure}
    (h : reader.parse m text = .error (.failed e)) : parse m text = .error e := by
  rcases reader_parse_cases m text with ⟨t, q, _, hq, _⟩ | ⟨e', hp, he⟩
  · rw [h] at hq
    cases hq
  · rw [h] at he
    cases he
    exact hp

/-- The small engine is one that can be relied on. -/
theorem reader_documented : reader.Documented where
  sound {m text q} h := by
    rcases reader_parse_cases m text with ⟨t, q', hp, hq, ht⟩ | ⟨e, _, he⟩
    · rw [h] at hq
      obtain rfl := Except.ok.inj hq
      rw [ht]
      exact parse_eq_ok_iff.1 hp
    · rw [h] at he
      cases he
  complete {m text e} h := by
    rintro ⟨w, hw, t, ht⟩
    have hok : parse m text = .ok t := parse_eq_ok_iff.2 ⟨w, hw, ht⟩
    rw [parse_of_reader_parse h] at hok
    cases hok
  report h := report_of_parse (parse_of_reader_parse h)
  transform h q := .inl rfl

end ZeroOne.Grammar
