import ZeroOne.Proofs.Stops

/-! What a failure says could have come. A text can go on to one with a tree exactly if its word can. -/
namespace ZeroOne.Grammar

def Continuable (text : Text) : Prop := ∃ rest, Accepted (text ++ rest)

/-- A text can go on to one with a tree, and it can go on with these terminals and no others. -/
structure Expects (text : Text) (expected : List Terminal) : Prop where
  continuable : Continuable text
  mem_iff : ∀ t, t ∈ expected ↔ Continuable (text ++ spell t)

section

variable {text : Text} {w : List Terminal} {expected : List Terminal}

/-- A text of a word can go on if and only if the word can. -/
theorem continuable_iff (h : Spelled w text) : Continuable text ↔ Viable w := by
  constructor
  · rintro ⟨rest, w', hw', t, ht⟩
    obtain ⟨u, rfl, _⟩ := h.of_append hw'
    exact ⟨u, t, ht⟩
  · rintro ⟨v, t, ht⟩
    have hspelled : Spelled (w ++ v) (text ++ v.flatMap spell) := h.append (.flatMap_spell v)
    exact ⟨v.flatMap spell, w ++ v, hspelled, t, ht⟩

theorem expects_of_spelled (hw : Spelled w text) (hviable : Viable w)
    (he : ∀ t, t ∈ expected ↔ Viable (w ++ [t])) : Expects text expected where
  continuable := (continuable_iff hw).2 hviable
  mem_iff t := by rw [he, continuable_iff (hw.append_spell t)]

end

/-- The terminals that `earley` expects are exactly those that the text in front of its failure can
go on with. -/
theorem expected_exact {E : Engine} (hE : E.Documented) {text : Text} {e : Error}
    (h : E.read .earley text = .error e) (hroom : e ≠ .escaped .exhausted) :
    (∃ (n : Nat) (p : Place) (expected : List Terminal),
        e = .rejected (some n) (.characters p (some expected)) ∧ p.pos = n ∧ n < text.length ∧
          Expects (text.take n) expected ∧ ∀ t ∈ expected, ¬ spell t <+: text.drop n) ∨
      ∃ expected, e = .rejected (some (-1)) (.endOfText expected) ∧ ¬ Accepted text ∧
        (∀ m t, E.read m text ≠ .ok t) ∧ Expects text expected := by
  obtain ⟨f, rfl, hreport, hnot⟩ := hE.read_eq_error h hroom
  obtain ⟨w, front, expected, hw, hviable, he, ⟨rest, hs, rfl⟩ | ⟨rfl, rfl⟩⟩ := hreport.earley
  · left
    have hexpects : Expects front expected := expects_of_spelled hw hviable he
    have htake : text.take front.length = front := by rw [hs.text_eq, List.take_left]
    have hdrop : text.drop front.length = rest := by rw [hs.text_eq, List.drop_left]
    have hlt : front.length < text.length := by
      obtain ⟨c, hc, _⟩ := hs.visible
      have hpositive : 0 < rest.length := List.length_pos_iff.2 (by rintro rfl; cases hc)
      rw [hs.text_eq, List.length_append]
      omega
    have hpos := Place.pos_behind front
    refine ⟨front.length, .behind front, expected, ?_, hpos, hlt, ?_, ?_⟩
    · rw [← hpos]
      rfl
    · rwa [htake]
    · rw [hdrop]
      exact fun t ht hspell => hs.dead t hspell ((he t).1 ht)
  · right
    refine ⟨expected, rfl, hnot, fun m t hok => ?_, expects_of_spelled hw hviable he⟩
    obtain ⟨v, hv, ht⟩ := hE.read_eq_ok hok
    exact hnot ⟨v, hv, t, ht⟩

/-- Behind `||` an operand is due, which the letters `tr` are none of; behind a literal an open
group can be closed. -/
theorem expected_exact_letters :
    reader.Documented ∧ reader.read .earley (.ofString "(1 || tr") = .error (.rejected (some 6)
        (.characters ⟨6, 1, 7⟩ (some [.lparen, .lit .zero, .lit .one, .lit .no, .lit .yes]))) ∧
      Continuable (.ofString "(1 || ") ∧ ¬ Continuable (.ofString "(1 || )") ∧
      reader.read .earley (.ofString "(1 ") =
        .error (.rejected (some (-1)) (.endOfText [.rparen, .op .mul, .op .add, .op .or])) ∧
      Continuable (.ofString "(1 )") := by
  have hplace : reader.read .earley (.ofString "(1 || tr") = .error (.rejected (some 6)
      (.characters ⟨6, 1, 7⟩ (some [.lparen, .lit .zero, .lit .one, .lit .no, .lit .yes]))) := by cbv
  have hend : reader.read .earley (.ofString "(1 ") =
      .error (.rejected (some (-1)) (.endOfText [.rparen, .op .mul, .op .add, .op .or])) := by cbv
  have hoperand : Expects (.ofString "(1 || ") [.lparen, .lit .zero, .lit .one, .lit .no, .lit .yes] := by
    rcases expected_exact reader_documented hplace (by simp) with
      ⟨_, _, _, he, _, _, hexpects, _⟩ | ⟨_, he, _⟩
    · cases he
      exact hexpects
    · cases he
  have hopen : Expects (.ofString "(1 ") [.rparen, .op .mul, .op .add, .op .or] := by
    rcases expected_exact reader_documented hend (by simp) with ⟨_, _, _, he, _⟩ | ⟨_, he, _, _, hexpects⟩
    · cases he
    · cases he
      exact hexpects
  have hclose : ¬ Continuable (.ofString "(1 || )") := mt (hoperand.mem_iff .rparen).2 (by decide)
  exact ⟨reader_documented, hplace, hoperand.continuable, hclose, hend,
    (hopen.mem_iff .rparen).1 (by decide)⟩

end ZeroOne.Grammar
