import Mathlib.Data.List.Infix
import ArkLang.C.Literal

/-!
# What string literals denote

A C compiler first replaces trigraphs, three characters that stand for one, and then reads a string
literal character by character: an escape sequence denotes one byte, and every other character
denotes itself. A text is written byte by byte with escapes of fixed width, so its literal denotes
the text, unless the text holds a trigraph: question marks are written as they are.
-/

namespace ArkLang

open List

namespace C

/-! ### Trigraphs -/

/-- The character that two question marks and a given character stand for. -/
def trigraph? : Char → Option Char
  | '=' => some '#'
  | '(' => some '['
  | '/' => some '\\'
  | ')' => some ']'
  | '\'' => some '^'
  | '<' => some '\x7b'
  | '!' => some '|'
  | '>' => some '\x7d'
  | '-' => some '~'
  | _ => none

/-- A source text with its trigraphs replaced. -/
def replaceTrigraphs : List Char → List Char
  | '?' :: '?' :: c :: rest =>
    match trigraph? c with
    | some single => single :: replaceTrigraphs rest
    | none => '?' :: replaceTrigraphs ('?' :: c :: rest)
  | c :: rest => c :: replaceTrigraphs rest
  | [] => []

def HasTrigraph (bytes : List UInt8) : Prop :=
  ∃ b ∈ bytes, (trigraph? (Char.ofNat b.toNat)).isSome ∧ [63, 63, b] <:+: bytes

instance : DecidablePred HasTrigraph := fun bytes =>
  inferInstanceAs (Decidable (∃ b ∈ bytes, _))

/-! ### Escape sequences -/

def simpleEscape? : Char → Option UInt8
  | '\\' => some 92
  | '"' => some 34
  | '\'' => some 39
  | '?' => some 63
  | 'a' => some 7
  | 'b' => some 8
  | 'f' => some 12
  | 'n' => some 10
  | 'r' => some 13
  | 't' => some 9
  | 'v' => some 11
  | _ => none

def octalDigit? (c : Char) : Option Nat :=
  if '0' ≤ c ∧ c ≤ '7' then some (c.toNat - '0'.toNat) else none

def hexDigit? (c : Char) : Option Nat :=
  if c.isDigit then some (c.toNat - '0'.toNat)
  else if 'a' ≤ c ∧ c ≤ 'f' then some (c.toNat - 'a'.toNat + 10)
  else if 'A' ≤ c ∧ c ≤ 'F' then some (c.toNat - 'A'.toNat + 10)
  else none

/-- Where the reader of a string literal stands. -/
inductive Reader where
  | plain
  /-- Behind a backslash. -/
  | escape
  /-- In an octal escape, which takes up to three digits: its value so far, and how many digits it
  may still take. -/
  | octal (value left : Nat)
  /-- In a hexadecimal escape, which takes all digits that follow: its value so far, if any. -/
  | hex (value : Option Nat)
  /-- Behind the closing quote. -/
  | closed
  deriving DecidableEq, Repr

namespace Reader

def byte? (value : Nat) : Option UInt8 :=
  if value < 256 then some (UInt8.ofNat value) else none

def readPlain (c : Char) : Option (List UInt8 × Reader) :=
  if c = '"' then some ([], .closed)
  else if c = '\\' then some ([], .escape)
  else if c = '\n' then none
  else some (String.utf8EncodeChar c, .plain)

def readBehind (value : Nat) (c : Char) : Option (List UInt8 × Reader) := do
  let byte ← byte? value
  let (bytes, next) ← readPlain c
  return (byte :: bytes, next)

def readEscape (c : Char) : Option (List UInt8 × Reader) :=
  match simpleEscape? c, octalDigit? c with
  | some byte, _ => some ([byte], .plain)
  | none, some digit => some ([], .octal digit 2)
  | none, none => if c = 'x' then some ([], .hex none) else none

/-- Reads a character: the bytes that are known then, and where the reader stands next. -/
def read : Reader → Char → Option (List UInt8 × Reader)
  | plain, c => readPlain c
  | escape, c => readEscape c
  | octal value left, c =>
    match octalDigit? c, left with
    | some digit, 1 => (byte? (8 * value + digit)).map fun byte => ([byte], plain)
    | some digit, left + 2 => some ([], octal (8 * value + digit) (left + 1))
    | _, _ => readBehind value c
  | hex value, c =>
    match hexDigit? c, value with
    | some digit, _ => some ([], hex (some (16 * value.getD 0 + digit)))
    | none, some value => readBehind value c
    | none, none => none
  | closed, _ => none

def readAll : Reader → List Char → Option (List UInt8)
  | closed, [] => some []
  | _, [] => none
  | r, c :: cs => do
    let (bytes, next) ← r.read c
    return bytes ++ (← readAll next cs)

end Reader

def literalBytes? (text : String) : Option (List UInt8) :=
  match replaceTrigraphs text.toList with
  | '"' :: rest => Reader.plain.readAll rest
  | _ => none

/-! ### Reading back -/

namespace Reader

theorem readAll_cons {r next : Reader} {c : Char} {bytes : List UInt8}
    (h : r.read c = some (bytes, next)) (cs : List Char) :
    r.readAll (c :: cs) = (next.readAll cs).map (bytes ++ ·) := by
  rw [readAll, h, Option.map_eq_bind]
  rfl

theorem readPlain_ofNat {n : Nat} (low : 0x20 ≤ n) (high : n ≤ 0x7e) (quote : n ≠ '"'.toNat)
    (backslash : n ≠ '\\'.toNat) :
    readPlain (Char.ofNat n) = some ([UInt8.ofNat n], .plain) := by
  have all : ∀ n < 127, 0x20 ≤ n ∧ n ≠ '"'.toNat ∧ n ≠ '\\'.toNat →
      readPlain (Char.ofNat n) = some ([UInt8.ofNat n], .plain) := by decide +kernel
  exact all n (by omega) ⟨low, quote, backslash⟩

theorem read_digit {d : Nat} (h : d < 8) :
    escape.read (Char.ofNat ('0'.toNat + d)) = some ([], octal d 2) ∧
      octalDigit? (Char.ofNat ('0'.toNat + d)) = some d := by
  have all : ∀ d < 8, escape.read (Char.ofNat ('0'.toNat + d)) = some ([], octal d 2) ∧
      octalDigit? (Char.ofNat ('0'.toNat + d)) = some d := by decide
  exact all d h

/-- An octal escape of three digits ends, whatever follows. -/
theorem readAll_octal {n : Nat} (h : n < 256) (rest : List Char) :
    plain.readAll ('\\' :: C.octal n ++ rest) = (plain.readAll rest).map (UInt8.ofNat n :: ·) := by
  have first := (read_digit (show n / 64 < 8 by omega)).1
  have second : (octal (n / 64) 2).read (Char.ofNat ('0'.toNat + n / 8 % 8)) =
      some ([], octal (8 * (n / 64) + n / 8 % 8) 1) := by
    simp only [read, (read_digit (show n / 8 % 8 < 8 by omega)).2]
  have third : (octal (8 * (n / 64) + n / 8 % 8) 1).read (Char.ofNat ('0'.toNat + n % 8)) =
      some ([UInt8.ofNat n], plain) := by
    have value : 8 * (8 * (n / 64) + n / 8 % 8) + n % 8 = n := by omega
    simp only [read, (read_digit (show n % 8 < 8 by omega)).2, value, byte?, if_pos h,
      Option.map_some]
  have backslash : plain.read '\\' = some ([], escape) := rfl
  simp only [C.octal, map_cons, map_nil, cons_append, nil_append]
  rw [readAll_cons backslash, readAll_cons first, readAll_cons second, readAll_cons third]
  simp [Function.comp_def]

theorem readAll_simple {c : Char} {b : UInt8} (h : simpleEscape? c = some b) (rest : List Char) :
    plain.readAll ('\\' :: c :: rest) = (plain.readAll rest).map (b :: ·) := by
  have backslash : plain.read '\\' = some ([], escape) := rfl
  have escaped : escape.read c = some ([b], plain) := by simp only [read, readEscape, h]
  rw [readAll_cons backslash, readAll_cons escaped]
  simp [Function.comp_def]

end Reader

/-- The ways in which a byte is written. -/
theorem stringByte_cases (b : UInt8) :
    (∃ c, stringByte b = ['\\', c] ∧ simpleEscape? c = some b) ∨
      (stringByte b = [Char.ofNat b.toNat] ∧
        Reader.readPlain (Char.ofNat b.toNat) = some ([b], .plain)) ∨
      stringByte b = '\\' :: octal b.toNat := by
  have eq {n : Nat} (h : b.toNat = n) : some (UInt8.ofNat n) = some b := by
    rw [← h, UInt8.ofNat_toNat]
  unfold stringByte
  dsimp only
  split_ifs with backslash quote newline tab carriage printable
  · exact .inl ⟨_, rfl, eq backslash⟩
  · exact .inl ⟨_, rfl, eq quote⟩
  · exact .inl ⟨_, rfl, eq newline⟩
  · exact .inl ⟨_, rfl, eq tab⟩
  · exact .inl ⟨_, rfl, eq carriage⟩
  · have plain := Reader.readPlain_ofNat printable.1 printable.2 quote backslash
    exact .inr (.inl ⟨rfl, by rwa [UInt8.ofNat_toNat] at plain⟩)
  · exact .inr (.inr rfl)

theorem readAll_stringByte (b : UInt8) (rest : List Char) :
    Reader.plain.readAll (stringByte b ++ rest) =
      (Reader.plain.readAll rest).map (b :: ·) := by
  rcases stringByte_cases b with ⟨c, eq, escape⟩ | ⟨eq, plain⟩ | eq
  · rw [eq]
    exact Reader.readAll_simple escape rest
  · rw [eq]
    exact Reader.readAll_cons (r := .plain) plain rest
  · rw [eq, Reader.readAll_octal b.toNat_lt, UInt8.ofNat_toNat]

theorem readAll_bytes (bytes : List UInt8) :
    Reader.plain.readAll (bytes.flatMap stringByte ++ ['"']) = some bytes := by
  induction bytes with
  | nil => rfl
  | cons b bytes ih =>
    rw [flatMap_cons, append_assoc, readAll_stringByte, ih]
    rfl

/-! ### Texts without trigraphs -/

theorem replaceTrigraphs_cons {c : Char} {cs : List Char}
    (h : ∀ d rest, c :: cs = '?' :: '?' :: d :: rest → trigraph? d = none) :
    replaceTrigraphs (c :: cs) = c :: replaceTrigraphs cs := by
  by_cases three : ∃ d rest, c :: cs = '?' :: '?' :: d :: rest
  · obtain ⟨d, rest, same⟩ := three
    have other := h d rest same
    cases same
    rw [replaceTrigraphs, other]
  · rw [replaceTrigraphs]
    rintro d rest rfl rfl
    exact three ⟨d, rest, rfl⟩

theorem replaceTrigraphs_append {cs : List Char} (h : '?' ∉ cs) (rest : List Char) :
    replaceTrigraphs (cs ++ rest) = cs ++ replaceTrigraphs rest := by
  induction cs with
  | nil => rfl
  | cons c cs ih =>
    simp only [mem_cons, not_or] at h
    rw [cons_append, replaceTrigraphs_cons, ih h.2, cons_append]
    intro d rest same
    exact absurd (List.cons.inj same).1.symm h.1

theorem exists_of_flatMap_eq_cons {bytes : List UInt8} {d : Char} {rest : List Char}
    (h : bytes.flatMap stringByte ++ ['"'] = d :: rest) (backslash : d ≠ '\\') (quote : d ≠ '"') :
    ∃ b others, bytes = b :: others ∧ Char.ofNat b.toNat = d ∧
      others.flatMap stringByte ++ ['"'] = rest := by
  cases bytes with
  | nil => exact absurd (List.cons.inj h).1.symm quote
  | cons b others =>
    rw [flatMap_cons, append_assoc] at h
    rcases stringByte_cases b with ⟨c, eq, -⟩ | ⟨eq, -⟩ | eq
    · rw [eq] at h
      exact absurd (List.cons.inj h).1.symm backslash
    · rw [eq] at h
      exact ⟨b, others, rfl, (List.cons.inj h).1, (List.cons.inj h).2⟩
    · rw [eq] at h
      exact absurd (List.cons.inj h).1.symm backslash

theorem eq_of_ofNat_eq {b : UInt8} (h : Char.ofNat b.toNat = '?') : b = 63 := by
  have all : ∀ n < 256, Char.ofNat n = '?' → n = 63 := by decide +kernel
  exact UInt8.toNat_inj.mp (all b.toNat b.toNat_lt h)

theorem HasTrigraph.mono {bytes more : List UInt8} (sub : bytes <:+: more)
    (h : HasTrigraph bytes) : HasTrigraph more := by
  obtain ⟨b, mem, single, inside⟩ := h
  exact ⟨b, sub.subset mem, single, inside.trans sub⟩

theorem replaceTrigraphs_bytes {bytes : List UInt8} (h : ¬ HasTrigraph bytes) :
    replaceTrigraphs (bytes.flatMap stringByte ++ ['"']) = bytes.flatMap stringByte ++ ['"'] := by
  induction bytes with
  | nil => rfl
  | cons b bytes ih =>
    have rest := ih (mt (HasTrigraph.mono (suffix_cons b bytes).isInfix) h)
    rw [flatMap_cons, append_assoc]
    by_cases question : '?' ∈ stringByte b
    · have all : ∀ n < 256, '?' ∈ stringByte (UInt8.ofNat n) → n = 63 := by decide +kernel
      obtain rfl : b = 63 :=
        UInt8.toNat_inj.mp (all b.toNat b.toNat_lt (by rwa [UInt8.ofNat_toNat]))
      have eq : stringByte 63 = ['?'] := rfl
      rw [eq, cons_append, nil_append, replaceTrigraphs_cons, rest]
      intro d more same
      by_contra single
      -- The two characters behind the first question mark are bytes of the text.
      obtain ⟨b', others, rfl, same', behind⟩ :=
        exists_of_flatMap_eq_cons (List.cons.inj same).2 (by decide) (by decide)
      obtain rfl := eq_of_ofNat_eq same'
      obtain ⟨last, others, rfl, rfl, -⟩ :=
        exists_of_flatMap_eq_cons behind (by rintro rfl; exact single rfl)
          (by rintro rfl; exact single rfl)
      exact h ⟨last, by simp, Option.isSome_iff_ne_none.mpr single,
        (prefix_append [63, 63, last] others).isInfix⟩
    · rw [replaceTrigraphs_append question, rest]

/-- The literal of a text without trigraphs denotes the bytes of the text. -/
theorem literalBytes?_stringLiteral {text : String} (h : ¬ HasTrigraph text.toUTF8.toList) :
    literalBytes? (stringLiteral text) = some text.toUTF8.toList := by
  have quote : replaceTrigraphs ('"' :: (text.toUTF8.toList.flatMap stringByte ++ ['"'])) =
      '"' :: replaceTrigraphs (text.toUTF8.toList.flatMap stringByte ++ ['"']) :=
    replaceTrigraphs_cons fun _ _ same => by cases same
  rw [literalBytes?, stringLiteral, String.toList_ofList, cons_append, quote,
    replaceTrigraphs_bytes h]
  exact readAll_bytes _

/-- A digit behind an octal escape is not taken for a part of it. -/
theorem literalBytes?_stringLiteral_mixed : ¬ HasTrigraph "?\"?\\\n?é7??8".toUTF8.toList ∧
    literalBytes? (stringLiteral "?\"?\\\n?é7??8") = some "?\"?\\\n?é7??8".toUTF8.toList := by
  have h : ¬ HasTrigraph "?\"?\\\n?é7??8".toUTF8.toList := by decide +kernel
  exact ⟨h, literalBytes?_stringLiteral h⟩

/-- Two question marks and an equals sign become a number sign. -/
theorem literalBytes?_ne_of_trigraph :
    literalBytes? (stringLiteral "??=") ≠ some "??=".toUTF8.toList := by
  decide +kernel

end C

end ArkLang
