import ZeroOne.Proofs.Stops

/-! The methods of an engine against each other. They find the same trees. What they make of a text without
a tree depends on whether it is stuck at a place or only unfinished. -/
namespace ZeroOne.Grammar

section

variable {E : Engine} {m : Method} {text : Text}

end

namespace Error

/-- The error of this library, with an offset in the text. -/
def Located (text : Text) (e : Error) : Prop :=
  ∃ p cause, e = .rejected (some p) cause ∧ 0 ≤ p ∧ p ≤ text.length

variable {text front : Text} {f : Failure}

theorem located_of_prefix (hf : front <+: text) (hplace : f.place? = some (.behind front)) :
    (ofEngine (.failed f)).Located text := by
  have hunexpected : f.isUnexpectedInput = true := by cases f <;> first | rfl | cases hplace
  have hlength := hf.length_le
  have hpos := Place.pos_behind front
  refine ⟨(Place.behind front).pos, f, ?_, by omega, by omega⟩
  rw [ofEngine, if_pos hunexpected, hplace]
  rfl

theorem not_located_negative (cause : Failure) : ¬ (rejected (some (-1)) cause).Located text := by
  rintro ⟨p, _, hp, hpos, _⟩
  cases hp
  omega

theorem not_located_escaped (e : EngineError) : ¬ (escaped e).Located text := by
  rintro ⟨_, _, h, _⟩
  cases h

end Error

/-- All failures have an offset in the text, but for a text that `earley` finds unfinished and the
causes of `cyk`. -/
theorem located_iff {E : Engine} (hE : E.Documented) {m : Method} {text : Text} {e : Error}
    (h : E.read m text = .error e) (hroom : e ≠ .escaped .exhausted) :
    (e.Located text ↔
        ¬ (m = .earley ∧ Unfinished text) ∧ ¬ (m = .cyk ∧ ∃ w, Spelled w text)) ∧
      (m = .earley → Unfinished text → ∃ cause, e = .rejected (some (-1)) cause) ∧
      (m = .cyk → (∃ w, Spelled w text) → e = .escaped (.failed .ungrammatical)) := by
  obtain ⟨f, rfl, hreport, _⟩ := hE.read_eq_error h hroom
  cases m with
  | earley =>
    obtain ⟨w, front, expected, hw, hviable, _, ⟨rest, hs, rfl⟩ | ⟨rfl, rfl⟩⟩ := hreport.earley
    · have hlocated : (Error.ofEngine (.failed (.characters (.behind front) (some expected)))).Located
          text := Error.located_of_prefix ⟨rest, hs.text_eq.symm⟩ rfl
      simp [hlocated, hs.not_unfinished]
    · have hu : Unfinished front := ⟨w, hw, hviable⟩
      have herror : Error.ofEngine (.failed (.endOfText expected)) =
          .rejected (some (-1)) (.endOfText expected) := rfl
      simp [herror, hu, Error.not_located_negative]
  | lalr =>
    have hlocated : (Error.ofEngine (.failed f)).Located text := by
      rcases hreport.lalr with ⟨_, front, rest, hs, ⟨t, rfl⟩ | rfl⟩ | ⟨_, before, hbefore, rfl⟩
      · exact Error.located_of_prefix ⟨rest, hs.text_eq.symm⟩ rfl
      · exact Error.located_of_prefix ⟨rest, hs.text_eq.symm⟩ rfl
      · exact Error.located_of_prefix hbefore rfl
    simp [hlocated]
  | cyk =>
    rcases hreport.cyk with ⟨hnone, before, hbefore, rfl⟩ | ⟨hsplit, rfl⟩
    · have hlocated : (Error.ofEngine (.failed (.characters (.behind before) none))).Located text :=
        Error.located_of_prefix hbefore rfl
      simp [hlocated, hnone]
    · have herror : Error.ofEngine (.failed .ungrammatical) = .escaped (.failed .ungrammatical) := rfl
      simp [herror, hsplit, Error.not_located_escaped]

/-- At the end of an unfinished text the last terminal gives the place, here in the second line. -/
theorem located_iff_last :
    reader.Documented ∧ reader.read .lalr (.ofString "(1\n+ ") =
        .error (.rejected (some 3) (.token ⟨3, 2, 1⟩ none)) ∧
      Error.Located (.ofString "(1\n+ ") (.rejected (some 3) (.token ⟨3, 2, 1⟩ none)) := by
  have h : reader.read .lalr (.ofString "(1\n+ ") =
      .error (.rejected (some 3) (.token ⟨3, 2, 1⟩ none)) := by cbv
  exact ⟨reader_documented, h, (located_iff reader_documented h (by simp)).1.2 ⟨by simp, by simp⟩⟩

/-- An open group has no place, and for two literals side by side an error of the engine escapes. -/
theorem failures_without_place :
    (∃ e, reader.read .earley (.ofString "(1") = .error e ∧ ¬ e.Located (.ofString "(1")) ∧
      ∃ e, reader.read .cyk (.ofString "1 1") = .error (.escaped e) ∧
        ¬ (Error.escaped e).Located (.ofString "1 1") := by
  have hearley : reader.read .earley (.ofString "(1") =
      .error (.rejected (some (-1)) (.endOfText [.rparen, .op .mul, .op .add, .op .or])) := by cbv
  have hcyk : reader.read .cyk (.ofString "1 1") = .error (.escaped (.failed .ungrammatical)) := by cbv
  exact ⟨⟨_, hearley, Error.not_located_negative _⟩, _, hcyk, Error.not_located_escaped _⟩

end ZeroOne.Grammar
