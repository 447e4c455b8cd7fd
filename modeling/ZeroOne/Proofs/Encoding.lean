import ZeroOne.Text
import Mathlib.Tactic.SplitIfs

/-! The bytes of texts. What starts with bytes in ASCII starts with as many code points in ASCII, and
each code point starts with a byte that no code point goes on with. -/
namespace ZeroOne

/-- Only the second and later bytes of a code point lie in this range. -/
def isContinuation (b : UInt8) : Bool := 0x80 ≤ b && b < 0xC0

theorem isContinuation_eq_false_iff {b : UInt8} :
    isContinuation b = false ↔ b.toNat < 0x80 ∨ 0xC0 ≤ b.toNat := by
  have hlow : (0x80 : UInt8).toNat = 0x80 := rfl
  have hhigh : (0xC0 : UInt8).toNat = 0xC0 := rfl
  unfold isContinuation
  rw [Bool.and_eq_false_iff, decide_eq_false_iff_not, decide_eq_false_iff_not,
    UInt8.le_iff_toNat_le, UInt8.lt_iff_toNat_lt, hlow, hhigh]
  omega

namespace CodePoint

theorem encode_ne_nil (c : CodePoint) : c.encode ≠ [] := by
  unfold encode
  dsimp only
  split_ifs <;> simp

/-- A code point that starts with a byte in ASCII is that byte. -/
theorem encode_of_ascii {c : CodePoint} {b : UInt8} {code bytes : List UInt8}
    (h : c.encode ++ code = b :: bytes) (hb : b < 128) : c.val < 0x80 ∧ c.encode = [b] := by
  have hlt : b.toNat < 128 := hb
  unfold encode at h ⊢
  dsimp only at h ⊢
  split_ifs at h ⊢ with hone
  · exact ⟨hone, congrArg (· :: []) (List.cons.inj h).1⟩
  all_goals
    -- A longer code starts with a byte beyond ASCII.
    have hval := congrArg UInt8.toNat (List.cons.inj h).1
    simp only [UInt8.toNat_ofNat'] at hval
    omega

theorem isContinuation_head {c : CodePoint} {b : UInt8} (h : c.encode.head? = some b) :
    isContinuation b = false := by
  have hc := c.isLt
  unfold encode at h
  dsimp only at h
  split_ifs at h
  all_goals
    obtain rfl := Option.some.inj h
    rw [isContinuation_eq_false_iff, UInt8.toNat_ofNat']
    omega

end CodePoint

theorem toNat_ofNat_of_ascii {n : Nat} (h : n < 0x80) : (Char.ofNat n).toNat = n := by
  have hvalid : n.isValidChar := .inl (by omega)
  unfold Char.ofNat
  rw [dif_pos hvalid]
  rfl

namespace Text

/-- The bytes in ASCII that a text starts with are code points, one each. -/
theorem split_of_ascii {text : Text} {u bytes : List UInt8} (h : text.encode = u ++ bytes)
    (hu : ∀ b ∈ u, b < 128) :
    ∃ front back, text = front ++ back ∧ front.length = u.length ∧ (∀ c ∈ front, c.val < 0x80) ∧
      encode front = u ∧ encode back = bytes := by
  induction u generalizing text with
  | nil => exact ⟨[], text, rfl, rfl, nofun, rfl, h⟩
  | cons b u ih =>
    cases text with
    | nil => cases h
    | cons c text =>
      have hcode : c.encode ++ encode text = b :: (u ++ bytes) := h
      obtain ⟨hc, hone⟩ := CodePoint.encode_of_ascii hcode (hu b List.mem_cons_self)
      rw [hone] at hcode
      obtain ⟨front, back, rfl, hlength, hfront, rfl, rfl⟩ :=
        ih (List.cons.inj hcode).2 fun b' hb' => hu b' (List.mem_cons_of_mem _ hb')
      refine ⟨c :: front, back, rfl, congrArg (· + 1) hlength, fun c' hc' => ?_, ?_, rfl⟩
      · rcases List.mem_cons.1 hc' with rfl | hc'
        · exact hc
        · exact hfront c' hc'
      · change c.encode ++ encode front = _
        rw [hone]
        rfl

theorem encode_drop {text : Text} {u bytes : List UInt8} (h : text.encode = u ++ bytes)
    (hu : ∀ b ∈ u, b < 128) : bytes = Text.encode (text.drop u.length) := by
  obtain ⟨front, back, rfl, hlength, _, _, rfl⟩ := split_of_ascii h hu
  rw [← hlength, List.drop_left]

/-- Bytes in ASCII are the bytes of the text that they spell. -/
theorem encode_ofString_of_ascii {bytes : List UInt8} (h : ∀ b ∈ bytes, b < 128) :
    (ofString (.ofList (bytes.map fun b => .ofNat b.toNat))).encode = bytes := by
  unfold ofString
  rw [String.toList_ofList, List.map_map]
  induction bytes with
  | nil => rfl
  | cons b bytes ih =>
    have hb : b.toNat < 128 := h b List.mem_cons_self
    have hchar : (Char.ofNat b.toNat).toNat = b.toNat := toNat_ofNat_of_ascii hb
    have hcode : (CodePoint.ofChar (.ofNat b.toNat)).encode = [b] := by
      unfold CodePoint.encode CodePoint.ofChar
      simp [hchar, hb]
    have hrest := ih fun b' hb' => h b' (List.mem_cons_of_mem _ hb')
    rw [List.map_cons]
    change (CodePoint.ofChar (.ofNat b.toNat)).encode ++ encode _ = _
    rw [hcode, hrest]
    rfl

end Text
end ZeroOne
