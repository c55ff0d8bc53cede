import ArkLang.Text.Span

/-!
# Lines and columns

Diagnostics show a place as a line and a column, both counted from one, the column in bytes.
A `LineIndex` holds the offsets at which the lines of a text start; the line of an offset is the
last one that starts at or before it. An offset beyond the end of the text belongs to the last
line. Lines and columns are counted with thirty-two bits: behind the largest number comes zero.
-/

namespace ArkLang

/-- A line and a column, counted from one; the column counts bytes. -/
structure Position where
  line : Nat
  column : Nat
  deriving DecidableEq, Repr, Inhabited

/-- The number, counted from one, of what comes behind `before` others. Counting takes thirty-two
bits and starts again at zero. -/
def ordinal (before : Nat) : Nat :=
  (before + 1) % 0x100000000

/-- The byte offsets, in increasing order, at which the lines of a text start. -/
structure LineIndex where
  starts : List Nat
  deriving DecidableEq, Repr, Inhabited

namespace LineIndex

/-- The offsets just after the line feeds of `cs`, whose first character is at `offset`. -/
def startsAfter (offset : Nat) : List Char → List Nat
  | [] => []
  | c :: cs =>
    let next := offset + c.utf8Size
    if c = '\n' then next :: startsAfter next cs else startsAfter next cs

/-- The line starts of a text: its beginning, and every offset just after a line feed. -/
def ofText (text : String) : LineIndex :=
  ⟨0 :: startsAfter 0 text.toList⟩

/-- The line and column of a byte offset. -/
def position (index : LineIndex) (offset : Nat) : Position :=
  let reached := index.starts.takeWhile (· ≤ offset)
  ⟨ordinal (reached.length - 1), ordinal (offset - reached.getLastD 0)⟩

end LineIndex

end ArkLang
