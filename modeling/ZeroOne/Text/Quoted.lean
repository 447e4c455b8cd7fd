import ZeroOne.Text.Printable

/-! Quoted texts and bytes: quotation marks, escapes and hexadecimal numbers. -/
namespace ZeroOne.Text

def hex (width n : Nat) : List Char := (Nat.toDigits 16 n).leftpad width '0'

/-- A character that is not plain is escaped by its number, in the least of three widths. -/
def numbered (c : Char) : List Char :=
  if c.toNat < 0x100 then '\\' :: 'x' :: hex 2 c.toNat
  else if c.toNat < 0x10000 then '\\' :: 'u' :: hex 4 c.toNat
  else '\\' :: 'U' :: hex 8 c.toNat

def escape (plain : Char → Bool) (mark c : Char) : List Char :=
  if c = mark ∨ c = '\\' then ['\\', c]
  else if c = '\n' then ['\\', 'n']
  else if c = '\r' then ['\\', 'r']
  else if c = '\t' then ['\\', 't']
  else if plain c then [c]
  else numbered c

/-- The mark is single, unless the text holds single marks and no double one. -/
def markFor (cs : List Char) : Char :=
  if cs.contains '\'' && !cs.contains '"' then '"' else '\''

/-- A text between marks, with the characters escaped that are not plain. -/
def quoteWith (plain : Char → Bool) (cs : List Char) : List Char :=
  let mark := markFor cs
  mark :: cs.flatMap (escape plain mark) ++ [mark]

def quoted (s : String) : String := .ofList (quoteWith isPrintable s.toList)

def quotedByte (b : UInt8) : String :=
  .ofList ('b' :: quoteWith (fun c => 0x20 ≤ c.toNat && c.toNat < 0x7F) [Char.ofNat b.toNat])

end ZeroOne.Text
