/-! Source text as code points, and the bytes that encode it. -/
namespace ZeroOne

/-- A code point; the surrogates, which are the number of no character, are among them. -/
abbrev CodePoint := Fin 0x110000

abbrev Text := List CodePoint

namespace CodePoint

def ofChar (c : Char) : CodePoint :=
  ⟨c.toNat, by
    have h : c.toNat < 0xD800 ∨ 0xDFFF < c.toNat ∧ c.toNat < 0x110000 := c.valid
    omega⟩

/-- The one to four bytes of a code point; a surrogate takes three, like its neighbours. -/
def encode (c : CodePoint) : List UInt8 :=
  let n := c.val
  if n < 0x80 then [.ofNat n]
  else if n < 0x800 then [.ofNat (0xC0 + n / 0x40), .ofNat (0x80 + n % 0x40)]
  else if n < 0x10000 then
    [.ofNat (0xE0 + n / 0x1000), .ofNat (0x80 + n / 0x40 % 0x40), .ofNat (0x80 + n % 0x40)]
  else
    [.ofNat (0xF0 + n / 0x40000), .ofNat (0x80 + n / 0x1000 % 0x40),
      .ofNat (0x80 + n / 0x40 % 0x40), .ofNat (0x80 + n % 0x40)]

end CodePoint

namespace Text

def ofString (s : String) : Text := s.toList.map CodePoint.ofChar

/-- The bytes of a text, each code point encoded by itself. -/
def encode (t : Text) : List UInt8 := t.flatMap CodePoint.encode

end Text
end ZeroOne
