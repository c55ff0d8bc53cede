/-!
# Spans of source text

A span names a stretch of a text by the byte offset where it starts and its length in bytes.
Offsets count bytes of the UTF-8 encoding, so that they agree with what an editor or a C compiler
would report for the same file.
-/

namespace ArkLang

/-- A stretch of source text: `length` bytes from byte `offset` on. -/
structure Span where
  offset : Nat
  length : Nat
  deriving DecidableEq, Repr, Inhabited

namespace Span

/-- The offset just after the span. -/
def stop (s : Span) : Nat :=
  s.offset + s.length

/-- The span between two offsets. -/
def between (start stop : Nat) : Span :=
  ⟨start, stop - start⟩

/-- The least span that covers two spans. -/
def join (a b : Span) : Span :=
  between (min a.offset b.offset) (max a.stop b.stop)

def emptyAt (offset : Nat) : Span :=
  ⟨offset, 0⟩

end Span

/-- A value together with the span it was read from. -/
structure Located (α : Type) where
  value : α
  span : Span
  deriving DecidableEq, Repr, Inhabited

/-- A name as it is written in the source. -/
abbrev Ident := Located String

/-- The number of bytes that a list of characters takes in UTF-8. -/
def byteSize : List Char → Nat
  | [] => 0
  | c :: cs => c.utf8Size + byteSize cs

@[simp] theorem byteSize_nil : byteSize [] = 0 := rfl

@[simp] theorem byteSize_cons (c : Char) (cs : List Char) :
    byteSize (c :: cs) = c.utf8Size + byteSize cs := rfl

@[simp] theorem byteSize_append (cs ds : List Char) :
    byteSize (cs ++ ds) = byteSize cs + byteSize ds := by
  induction cs with
  | nil => simp
  | cons c cs ih => simp [ih, Nat.add_assoc]

end ArkLang
