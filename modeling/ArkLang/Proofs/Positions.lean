import Mathlib.Data.List.DropRight
import ArkLang.Text.Position

/-!
# Lines and columns of offsets

The line of an offset counts the line feeds in front of it, and its column counts the bytes behind
the last of them, both in thirty-two bits. So no two places in a text of less than four gigabytes
have the same line and column, and all of them have lines and columns in the order of their offsets,
but for the end of the longest such text, where one of the numbers may have started again at zero.
-/

namespace ArkLang

def utf8Bytes (text : String) : List UInt8 :=
  text.toByteArray.data.toList

/-- The position behind some bytes, by counting their line feeds and what follows the last one. -/
def Position.behind (bytes : List UInt8) : Position :=
  ⟨1 + bytes.count 0x0A, 1 + (bytes.rtakeWhile (· != 0x0A)).length⟩

/-- What thirty-two bits hold of a position. -/
def Position.wrapped (p : Position) : Position :=
  ⟨p.line % 0x100000000, p.column % 0x100000000⟩

theorem utf8Bytes_eq (text : String) :
    utf8Bytes text = text.toList.flatMap String.utf8EncodeChar := by
  rw [utf8Bytes, ← String.utf8Encode_toList, List.utf8Encode, List.data_toByteArray]

theorem length_utf8Bytes (text : String) : (utf8Bytes text).length = text.utf8ByteSize := rfl

theorem length_take_utf8Bytes {text : String} {offset : Nat} (le : offset ≤ text.utf8ByteSize) :
    ((utf8Bytes text).take offset).length = offset := by
  rw [List.length_take, length_utf8Bytes]
  omega

/-- Only the line feed itself is written with the byte of a line feed. -/
theorem lineFeed_notMem_utf8EncodeChar {c : Char} (h : c ≠ '\n') :
    0x0A ∉ String.utf8EncodeChar c := by
  have ne : c.val.toNat ≠ 10 := fun same => h (Char.ext (UInt32.toNat_inj.mp same))
  have differs {n : Nat} (low : n ≠ 10) (high : n < 256) : (0x0A : UInt8) ≠ UInt8.ofNat n := by
    intro same
    have := congrArg UInt8.toNat same
    rw [UInt8.toNat_ofNat_of_lt' high] at this
    exact low this.symm
  fun_cases String.utf8EncodeChar c <;>
    simp only [List.mem_cons, List.not_mem_nil, or_false, not_or] <;>
    (repeat' constructor) <;> exact differs (by omega) (by omega)

theorem ordinal_of_lt {n : Nat} (h : n < 0xFFFFFFFF) : ordinal n = n + 1 := by
  rw [ordinal]
  omega

namespace LineIndex

theorem startsAfter_eq (offset : Nat) (cs : List Char) :
    startsAfter offset cs =
      (cs.flatMap String.utf8EncodeChar).idxsOf 0x0A (offset + 1) := by
  induction cs generalizing offset with
  | nil => rfl
  | cons c cs ih =>
    rw [List.flatMap_cons, List.idxsOf_append, String.length_utf8EncodeChar, startsAfter]
    split
    next feed =>
      subst feed
      rw [ih]
      rfl
    next plain =>
      have none : (String.utf8EncodeChar c).idxsOf 0x0A (offset + 1) = [] := by
        rw [List.idxsOf_eq_nil_iff]
        intro b mem
        exact beq_false_of_ne fun same => lineFeed_notMem_utf8EncodeChar plain (same ▸ mem)
      rw [ih, none, List.nil_append, Nat.add_right_comm]

/-- The lines that start up to an offset start behind the line feeds in front of it. -/
theorem reached_eq (text : String) (offset : Nat) :
    (ofText text).starts.takeWhile (· ≤ offset) =
      0 :: ((utf8Bytes text).take offset).idxsOf 0x0A 1 := by
  have split := (List.take_append_drop offset (utf8Bytes text)).symm
  have length := (utf8Bytes text).length_take_le offset
  rw [ofText, startsAfter_eq, ← utf8Bytes_eq, split, List.idxsOf_append, ← split, Nat.zero_add,
    ← List.cons_append, List.takeWhile_append_of_pos]
  · rw [List.append_right_eq_self]
    generalize rest : ((utf8Bytes text).drop offset).idxsOf 0x0A _ = starts
    cases starts with
    | nil => rfl
    | cons start starts =>
      have mem := rest ▸ List.mem_cons_self (a := start) (l := starts)
      have first := List.ge_of_mem_idxsOf start mem
      have last := List.lt_add_of_mem_idxsOf start mem
      rw [List.length_take] at first
      rw [List.length_drop, List.length_take] at last
      rw [List.takeWhile_cons_of_neg (by simp; omega)]
  · intro start mem
    rcases List.mem_cons.mp mem with rfl | mem
    · simp
    · have := List.lt_add_of_mem_idxsOf start mem
      simp
      omega

/-- No more line feeds than bytes stand in front of an offset. -/
theorem length_reached_le (text : String) (offset : Nat) :
    ((ofText text).starts.takeWhile (· ≤ offset)).length ≤ offset + 1 := by
  rw [reached_eq, List.length_cons, List.length_idxsOf, Nat.add_le_add_iff_right]
  exact List.count_le_length.trans (List.length_take_le _ _)

/-- The start of the last line is as far in front of the end as there are bytes behind the last
line feed. -/
theorem getLastD_starts (bytes : List UInt8) :
    (0 :: bytes.idxsOf 0x0A 1).getLastD 0 + (bytes.rtakeWhile (· != 0x0A)).length =
      bytes.length := by
  induction bytes using List.reverseRecOn with
  | nil => rfl
  | append_singleton bytes b ih =>
    rw [List.idxsOf_append, List.rtakeWhile_concat, List.length_append]
    by_cases feed : b = 0x0A
    · subst feed
      have last : [0x0A].idxsOf (0x0A : UInt8) (1 + bytes.length) = [1 + bytes.length] := rfl
      rw [last, ← List.cons_append, List.getLastD_concat]
      simp [Nat.add_comm]
    · rw [if_pos (by simpa using feed)]
      simp [List.idxsOf_cons, feed] at ih ⊢
      omega

/-- Lines and columns are counted, up to the end of a text, in thirty-two bits. -/
theorem position_eq_wrapped (text : String) {offset : Nat} (le : offset ≤ text.utf8ByteSize) :
    (ofText text).position offset = (Position.behind ((utf8Bytes text).take offset)).wrapped := by
  have last := getLastD_starts ((utf8Bytes text).take offset)
  rw [length_take_utf8Bytes le] at last
  simp only [position, Position.behind, Position.wrapped, ordinal, reached_eq, List.length_cons,
    List.length_idxsOf, Nat.add_sub_cancel, Position.mk.injEq]
  omega

end LineIndex

/-! ### The order of positions -/

namespace Position

/-- A position does not stand behind another one. -/
def Le (p q : Position) : Prop :=
  p.line < q.line ∨ p.line = q.line ∧ p.column ≤ q.column

end Position

namespace LineIndex

theorem reached_isPrefix (starts : List Nat) {a b : Nat} (le : a ≤ b) :
    starts.takeWhile (· ≤ a) <+: starts.takeWhile (· ≤ b) := by
  induction starts with
  | nil => exact List.prefix_rfl
  | cons start starts ih =>
    by_cases h : start ≤ a
    · simpa [List.takeWhile_cons, h, h.trans le] using ih
    · simp [List.takeWhile_cons, h]

/-- Offsets that can be counted have lines and columns in the same order. -/
theorem position_le (text : String) {a b : Nat} (le : a ≤ b) (small : b < 0xFFFFFFFF) :
    ((ofText text).position a).Le ((ofText text).position b) := by
  have count := length_reached_le text b
  have start : 0 < ((ofText text).starts.takeWhile (· ≤ a)).length := by simp [ofText]
  obtain ⟨more, split⟩ := reached_isPrefix (ofText text).starts le
  have size := congrArg List.length split
  rw [List.length_append] at size
  simp only [position, Position.Le]
  rw [ordinal_of_lt (by omega), ordinal_of_lt (by omega), ordinal_of_lt (by omega),
    ordinal_of_lt (by omega)]
  cases more with
  | nil =>
    rw [List.append_nil] at split
    rw [split]
    exact .inr ⟨rfl, by omega⟩
  | cons next more =>
    rw [List.length_cons] at size
    exact .inl (by omega)

/-- The end of the longest text in one line that thirty-two bits count has column zero. -/
theorem position_end_of_longest {text : String} (size : text.utf8ByteSize = 0xFFFFFFFF)
    (line : 0x0A ∉ utf8Bytes text) : (ofText text).position 0xFFFFFFFF = ⟨1, 0⟩ := by
  have all : (utf8Bytes text).take 0xFFFFFFFF = utf8Bytes text :=
    List.take_of_length_le (by rw [length_utf8Bytes, size])
  have column : (utf8Bytes text).rtakeWhile (· != 0x0A) = utf8Bytes text :=
    List.rtakeWhile_eq_self_iff.mpr fun b mem => by
      rw [bne_iff_ne]
      rintro rfl
      exact line mem
  rw [position_eq_wrapped text size.ge, all, Position.behind, List.count_eq_zero.mpr line, column,
    length_utf8Bytes, size]
  rfl

end LineIndex

end ArkLang
