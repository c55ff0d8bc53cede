import ArkLang.Number.Shortest

/-!
# C literals

Integers are written with their width, floats with the fewest digits that read back, and strings
byte by byte: printable ASCII as it is, everything else as a three-digit octal escape.
-/

namespace ArkLang

namespace C

/-- An integer of 64 bits. The least one has no literal of its own. -/
def intLiteral (value : Int) : String :=
  if value = -(Nat.pow 2 63 : Nat) then "(-INT64_C(9223372036854775807) - 1)"
  else "INT64_C(" ++ toString value ++ ")"

/-- The three octal digits of a byte. -/
def octal (byte : Nat) : List Char :=
  [byte / 64, byte / 8 % 8, byte % 8].map fun d => Char.ofNat ('0'.toNat + d)

/-- A byte as it stands in a string literal. -/
def stringByte (byte : UInt8) : List Char :=
  let n := byte.toNat
  if n = '\\'.toNat then ['\\', '\\']
  else if n = '"'.toNat then ['\\', '"']
  else if n = '\n'.toNat then ['\\', 'n']
  else if n = '\t'.toNat then ['\\', 't']
  else if n = '\r'.toNat then ['\\', 'r']
  else if 0x20 ≤ n ∧ n ≤ 0x7e then [Char.ofNat n]
  else '\\' :: octal n

def stringLiteral (text : String) : String :=
  String.ofList ('"' :: text.toUTF8.toList.flatMap stringByte ++ ['"'])

end C

end ArkLang
