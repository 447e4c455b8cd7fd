import ZeroOne.Proofs.Lexing
import ZeroOne.Proofs.Stacks
import ZeroOne.Proofs.Stops

/-! Texts of the grammar in the hands of the parser: the same tree, unless words are glued together. -/
namespace ZeroOne

open Grammar (Spelled Derives read? Method Engine reader reader_documented)

/-- A text of a grammatical word is parsed to its tree, but for a first run that is no word. -/
theorem parse_of_spelled {w : List Terminal} {text : Text} {t : Tree} (order : OperandOrder)
    (hs : Spelled w text) (ht : read? w = some t) :
    ((∀ i r, IsWordRun text.encode i r → IsWord r) →
        (parse order text).result = .ok (order.arrange t)) ∧
      ((¬ ∀ i r, IsWordRun text.encode i r → IsWord r) →
        ∃ i b more, FirstUnknownRun text.encode i (b :: more) ∧
          (parse order text).result = .error (.lexical (.unknownWord i b more))) := by
  obtain ⟨⟨ts, last, es, p, behind, hy, rfl, hn⟩, hall⟩ |
    ⟨i, b, more, hf, ts, last, es, behind, v, hy, hw, hn⟩ := lexes_of_spelled hs 0
  · exact ⟨fun _ => parseFrom_of_yields hy hn ht, fun h => absurd hall h⟩
  · refine ⟨fun h => absurd (h i _ hf.isRun) hf.unknown, fun _ => ⟨i, b, more, hf, ?_⟩⟩
    rw [Nat.zero_add] at hn
    have hv : (read? (ts.map (·.1) ++ v)).isSome := by
      rw [← hw, ht]
      rfl
    exact parseFrom_of_error hy hn hv

/-- The parser agrees with any engine on a text that the engine has a tree for, but for runs that
are no words. -/
theorem parse_of_grammar_parse {E : Engine} (hE : E.Documented) {m : Method} {text : Text} {t : Tree}
    (h : E.read m text = .ok t) :
    (∃ w, Spelled w text ∧ Derives 0 w t) ∧
      ((∀ i r, IsWordRun text.encode i r → IsWord r) → (parse .written text).result = .ok t) ∧
      ((¬ ∀ i r, IsWordRun text.encode i r → IsWord r) →
        ∃ i b more, FirstUnknownRun text.encode i (b :: more) ∧
          (parse .written text).result = .error (.lexical (.unknownWord i b more))) := by
  obtain ⟨w, hs, ht⟩ := hE.read_eq_ok h
  exact ⟨⟨w, hs, ht⟩, parse_of_spelled .written hs (Grammar.read?_of_derives ht)⟩

theorem parse_of_grammar_parse_glued :
    reader.Documented ∧ reader.read .earley (.ofString "(0+1)*1 || true||false") =
        .ok (.or (.or (.mul (.add (.number 0) (.number 1)) (.number 1)) (.bool true)) (.bool false)) ∧
      ∃ i b more, FirstUnknownRun (Text.ofString "(0+1)*1 || true||false").encode i (b :: more) ∧
        (parse .written (.ofString "(0+1)*1 || true||false")).result =
          .error (.lexical (.unknownWord i b more)) := by
  have h : reader.read .earley (.ofString "(0+1)*1 || true||false") =
      .ok (.or (.or (.mul (.add (.number 0) (.number 1)) (.number 1)) (.bool true)) (.bool false)) := by
    cbv
  refine ⟨reader_documented, h, (parse_of_grammar_parse reader_documented h).2.2 fun hall => ?_⟩
  have hbefore : ((Text.ofString "(0+1)*1 || true||false").encode.take 11).getLast? = some 32 := by
    decide
  have hrun : IsWordRun (Text.ofString "(0+1)*1 || true||false").encode 11
      ((Text.ofString "true||false").encode) := by
    refine ⟨by decide, by decide, fun b hb => ?_⟩
    obtain rfl : 32 = b := Option.some.inj (hbefore.symm.trans hb)
    decide
  obtain ⟨t, ht, he⟩ := hall 11 _ hrun
  revert he
  have all : ∀ t ∈ Terminal.words, t.bytes ≠ (Text.ofString "true||false").encode := by decide
  exact all t ht

end ZeroOne
