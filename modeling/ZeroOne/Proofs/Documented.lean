import ZeroOne.Grammar.Engine
import ZeroOne.Proofs.Chart
import ZeroOne.Proofs.Spelling

/-! What an engine is relied on for: it finds the derivations of the grammar, applies handlers to them,
and fails where and as its method does. -/
namespace ZeroOne.Grammar

/-- The failures of the methods. In front of the place of each the text spells a word. -/
inductive Report : Method → Text → Failure → Prop
  /-- The chart has items behind the word, but what they await is not spelled there. -/
  | earleyCharacters {w : List Terminal} {front rest : Text} {expected : List Terminal} :
    Spelled w front → Charted w → (∀ t, t ∈ expected ↔ Awaits w t) → Visible rest →
      (∀ t, Awaits w t → ¬ spell t <+: rest) →
      Report .earley (front ++ rest) (.characters (.behind front) (some expected))
  /-- The text ends, and the items behind its word await more. -/
  | earleyEnd {w : List Terminal} {text : Text} {expected : List Terminal} :
    Spelled w text → Charted w → (∀ t, t ∈ expected ↔ Awaits w t) →
      Report .earley text (.endOfText expected)
  /-- The terminals that are shifted stay viable, so the first one that does not is out of place. -/
  | lalrToken {w : List Terminal} {front rest : Text} {t : Terminal} :
    Spelled w front → Viable w → spell t <+: rest → ¬ Viable (w ++ [t]) →
      Report .lalr (front ++ rest) (.token (.behind front) (some t))
  /-- The end of the text is out of place; it is reported at a place in the text. -/
  | lalrEnd {w : List Terminal} {before text : Text} :
    Spelled w text → Viable w → before <+: text → Report .lalr text (.token (.behind before) none)
  | lalrCharacters {w : List Terminal} {front rest : Text} :
    Spelled w front → Viable w → Visible rest → (∀ t, ¬ spell t <+: rest) →
      Report .lalr (front ++ rest) (.characters (.behind front) none)
  | cykCharacters {w : List Terminal} {front rest : Text} :
    Spelled w front → Visible rest → (∀ t, ¬ spell t <+: rest) →
      Report .cyk (front ++ rest) (.characters (.behind front) none)
  | cykUngrammatical {w : List Terminal} {text : Text} :
    Spelled w text → Report .cyk text .ungrammatical

def Accepted (text : Text) : Prop := ∃ w, Spelled w text ∧ Grammatical w

def Unfinished (text : Text) : Prop := ∃ w, Spelled w text ∧ Viable w

namespace Engine

/-- What is documented of an engine. Any parse and any transformation may run out of stack. -/
structure Documented (E : Engine) : Prop where
  sound {m : Method} {text : Text} {q : ParseTree} :
    E.parse m text = .ok q → ∃ w, Spelled w text ∧ Derives 0 w q.expression
  complete {m : Method} {text : Text} {e : Failure} :
    E.parse m text = .error (.failed e) → ¬ Accepted text
  report {m : Method} {text : Text} {e : Failure} :
    E.parse m text = .error (.failed e) → Report m text e
  transform (h : Handlers) (q : ParseTree) :
    E.transform h q = .ok (q.fold h) ∨ E.transform h q = .error .exhausted

/-- The stack of an engine is large enough for a text. -/
def HasRoom (E : Engine) (m : Method) (text : Text) : Prop :=
  E.read m text ≠ .error (.escaped .exhausted)

variable {E : Engine} {m : Method} {text : Text}

theorem Documented.read_eq_ok (hE : E.Documented) {t : Tree} (h : E.read m text = .ok t) :
    ∃ w, Spelled w text ∧ Derives 0 w t := by
  rw [read] at h
  rcases hp : E.parse m text with e | q
  · rw [hp] at h
    cases h
  · rw [hp] at h
    rcases hE.transform handlers q with ht | ht
    · simp only [ht, Except.mapError] at h
      obtain rfl := Except.ok.inj h
      rw [ParseTree.fold_handlers]
      exact hE.sound hp
    · simp only [ht, Except.mapError] at h
      cases h

/-- An engine that does not run out of stack stops with a failure that it reports. -/
theorem Documented.read_eq_error (hE : E.Documented) {e : Error} (h : E.read m text = .error e)
    (hroom : e ≠ .escaped .exhausted) :
    ∃ f, e = .ofEngine (.failed f) ∧ Report m text f ∧ ¬ Accepted text := by
  rw [read] at h
  rcases hp : E.parse m text with f | q
  · rw [hp] at h
    obtain rfl := Except.error.inj h
    cases f with
    | failed f => exact ⟨f, rfl, hE.report hp, hE.complete hp⟩
    | exhausted => exact absurd rfl hroom
  · rw [hp] at h
    rcases hE.transform handlers q with ht | ht
    · simp only [ht, Except.mapError] at h
      cases h
    · simp only [ht, Except.mapError] at h
      exact absurd (Except.error.inj h).symm hroom

/-- With room, the trees that an engine finds are those of the grammar. -/
theorem Documented.read_eq_ok_iff (hE : E.Documented) (hroom : E.HasRoom m text) {t : Tree} :
    E.read m text = .ok t ↔ ∃ w, Spelled w text ∧ Derives 0 w t := by
  refine ⟨hE.read_eq_ok, fun ⟨w, hw, ht⟩ => ?_⟩
  rcases h : E.read m text with e | u
  · obtain ⟨_, _, _, hnot⟩ := hE.read_eq_error h fun he => hroom (he ▸ h)
    exact absurd ⟨w, hw, t, ht⟩ hnot
  · obtain ⟨w', hw', hu⟩ := hE.read_eq_ok h
    obtain rfl := hw.unique hw'
    rw [ht.unique hu]

end Engine

/-- A text whose first part spells a viable word that no terminal at the start of the other part can
follow. -/
structure Stuck (text : Text) (w : List Terminal) (front rest : Text) : Prop where
  text_eq : text = front ++ rest
  spelled : Spelled w front
  viable : Viable w
  visible : Visible rest
  dead : ∀ t, spell t <+: rest → ¬ Viable (w ++ [t])

section

variable {text front front' rest rest' : Text} {w w' : List Terminal}

/-- No viable word is spelled any further than to where a text is stuck. -/
theorem Stuck.not_viable (h : Stuck text w front rest) {x y : Text} {u : List Terminal}
    (hrest : rest = x ++ y) (hx : x ≠ []) (hu : Spelled u x) : ¬ Viable (w ++ u) := by
  have hvisible : Visible x := by
    obtain ⟨c, hc, hgap⟩ := h.visible
    obtain ⟨d, x, rfl⟩ := List.exists_cons_of_ne_nil hx
    rw [hrest] at hc
    exact ⟨c, hc, hgap⟩
  obtain ⟨t, v, z, rfl, rfl, _⟩ := hu.exists_cons hvisible
  have hspell : spell t <+: rest := ⟨z ++ y, by rw [hrest, List.append_assoc]⟩
  intro hv
  have hprefix : Viable (w ++ [t] ++ v) := by simpa using hv
  exact h.dead t hspell hprefix.of_append

theorem Stuck.eq_of_prefix (h : Stuck text w front rest) (h' : Stuck text w' front' rest')
    (hf : front <+: front') : front = front' := by
  obtain ⟨x, rfl⟩ := hf
  by_contra hne
  have hx : x ≠ [] := by
    rintro rfl
    exact hne (List.append_nil _).symm
  have hrest : rest = x ++ rest' := by
    have htext := h.text_eq.symm.trans h'.text_eq
    rw [List.append_assoc] at htext
    exact List.append_cancel_left htext
  obtain ⟨u, rfl, hu⟩ := h.spelled.of_append h'.spelled
  exact h.not_viable hrest hx hu h'.viable

/-- A text is stuck at one place only. -/
theorem Stuck.unique (h : Stuck text w front rest) (h' : Stuck text w' front' rest') :
    front = front' := by
  have hf : front <+: text := ⟨rest, h.text_eq.symm⟩
  have hf' : front' <+: text := ⟨rest', h'.text_eq.symm⟩
  rcases List.prefix_or_prefix_of_prefix hf hf' with hp | hp
  · exact h.eq_of_prefix h' hp
  · exact (h'.eq_of_prefix h hp).symm

theorem Stuck.not_unfinished (h : Stuck text w front rest) : ¬ Unfinished text := by
  rintro ⟨v, hv, hviable⟩
  have hne : rest ≠ [] := by
    rintro rfl
    obtain ⟨c, hc, _⟩ := h.visible
    cases hc
  rw [h.text_eq] at hv
  obtain ⟨u, rfl, hu⟩ := h.spelled.of_append hv
  exact h.not_viable (List.append_nil rest).symm hne hu hviable

/-- A text with a place where no terminal is spelled cannot be split into terminals. -/
theorem not_spelled_of_visible (hw : Spelled w front) (hv : Visible rest)
    (hnone : ∀ t, ¬ spell t <+: rest) (u : List Terminal) : ¬ Spelled u (front ++ rest) := by
  intro hu
  obtain ⟨v, rfl, hrest⟩ := hw.of_append hu
  obtain ⟨t, _, z, _, hspell, _⟩ := hrest.exists_cons hv
  exact hnone t ⟨z, hspell.symm⟩

end

namespace Report

variable {text : Text} {f : Failure}

/-- What `earley` reports of a text that is stuck, or unfinished. -/
theorem earley (h : Report .earley text f) :
    ∃ w front expected, Spelled w front ∧ Viable w ∧ (∀ t, t ∈ expected ↔ Viable (w ++ [t])) ∧
      ((∃ rest, Stuck text w front rest ∧ f = .characters (.behind front) (some expected)) ∨
        front = text ∧ f = .endOfText expected) := by
  cases h with
  | @earleyCharacters w front rest expected hw hc he hv hdead =>
    have hviable : Viable w := charted_iff.1 hc
    refine ⟨w, front, expected, hw, hviable, fun t => (he t).trans awaits_iff, .inl ⟨rest, ?_, rfl⟩⟩
    exact ⟨rfl, hw, hviable, hv, fun t ht hvt => hdead t (awaits_iff.2 hvt) ht⟩
  | @earleyEnd w _ expected hw hc he =>
    exact ⟨w, text, expected, hw, charted_iff.1 hc, fun t => (he t).trans awaits_iff, .inr ⟨rfl, rfl⟩⟩

/-- What `lalr` reports of a text that is stuck, or unfinished. -/
theorem lalr (h : Report .lalr text f) :
    (∃ w front rest, Stuck text w front rest ∧
        ((∃ t, f = .token (.behind front) (some t)) ∨ f = .characters (.behind front) none)) ∨
      Unfinished text ∧ ∃ before, before <+: text ∧ f = .token (.behind before) none := by
  cases h with
  | @lalrToken w front rest t hw hviable ht hdead =>
    obtain ⟨z, rfl⟩ := ht
    refine .inl ⟨w, front, spell t ++ z, ⟨rfl, hw, hviable, visible_spell_append t z, ?_⟩,
      .inl ⟨t, rfl⟩⟩
    rintro u ⟨z', hu⟩
    obtain ⟨rfl, _⟩ := spell_append_inj hu
    exact hdead
  | lalrEnd hw hviable hbefore => exact .inr ⟨⟨_, hw, hviable⟩, _, hbefore, rfl⟩
  | @lalrCharacters w front rest hw hviable hv hnone =>
    exact .inl ⟨w, front, rest, ⟨rfl, hw, hviable, hv, fun t ht => absurd ht (hnone t)⟩, .inr rfl⟩

/-- What `cyk` reports of a text that cannot be split into terminals, or that can. -/
theorem cyk (h : Report .cyk text f) :
    ((∀ w, ¬ Spelled w text) ∧ ∃ before, before <+: text ∧ f = .characters (.behind before) none) ∨
      (∃ w, Spelled w text) ∧ f = .ungrammatical := by
  cases h with
  | @cykCharacters w front rest hw hv hnone =>
    exact .inl ⟨not_spelled_of_visible hw hv hnone, front, List.prefix_append _ _, rfl⟩
  | cykUngrammatical hw => exact .inr ⟨⟨_, hw⟩, rfl⟩

end Report

end ZeroOne.Grammar
