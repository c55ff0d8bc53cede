import ArkLang.Number.Binary64
import ArkLang.Toml.Quoted

/-!
# Numbers, truth values and dates

No setting takes one of these, so that only their form is read: what follows a well-formed one is
read as the rest of the text. A number that is too large to be held is not well-formed.
-/

namespace ArkLang

namespace Toml

/-! ### Numbers -/

/-- Whether digits are well-formed: single underscores may stand between them. -/
def areDigits (isDigit : Char → Bool) (cs : List Char) : Bool :=
  let groups := cs.splitOn '_'
  groups.all fun group => !group.isEmpty && group.all isDigit

/-- A text without the sign in front of it. -/
def unsigned : List Char → List Char
  | '+' :: rest | '-' :: rest => rest
  | cs => cs

/-- Whether digits write a number in base ten without idle zeros. -/
def isDecimal (cs : List Char) : Bool :=
  areDigits Char.isDigit cs && (cs = ['0'] || cs.head? ≠ some '0')

/-- The number that digits write in a base of at most sixteen. -/
def numberOf (base : Nat) (cs : List Char) : Nat :=
  (cs.filterMap hexDigit?).foldl (fun n d => n * base + d) 0

/-- Whether digits behind a mark of their base write an integer of sixty-three bits. -/
def isBased (base : Nat) (cs : List Char) : Bool :=
  areDigits (fun c => (hexDigit? c).any (· < base)) cs && numberOf base cs < Nat.pow 2 63

/-- Whether a text is an integer of sixty-four bits. -/
def isInteger : List Char → Bool
  | '0' :: 'x' :: rest => isBased 16 rest
  | '0' :: 'o' :: rest => isBased 8 rest
  | '0' :: 'b' :: rest => isBased 2 rest
  | cs =>
    let digits := unsigned cs
    isDecimal digits &&
      numberOf 10 digits < if cs.head? = some '-' then Nat.pow 2 63 + 1 else Nat.pow 2 63

def marksExponent (c : Char) : Bool :=
  c = 'e' || c = 'E'

/-- Whether a text is an exponent with its mark, or nothing. -/
def isExponent : List Char → Bool
  | [] => true
  | mark :: rest => marksExponent mark && areDigits Char.isDigit (unsigned rest)

/-- The number of an exponent; zero for nothing. -/
def exponentOf : List Char → Int
  | _ :: '-' :: digits => -numberOf 10 digits
  | digits => numberOf 10 ((digits.drop 1).filter Char.isDigit)

/-- Whether a number rounds to infinity. -/
def isInfinite (whole fraction exponent : List Char) : Bool :=
  Binary64.isExceededBy (numberOf 10 (whole ++ fraction))
    (exponentOf exponent - (fraction.filter Char.isDigit).length)

/-- Whether a text is a number with a fraction or an exponent, or one of the names of such. Infinity
is written by its name only; a number below all others counts as one. -/
def isFloat (cs : List Char) : Bool :=
  let body := unsigned cs
  if body = ['i', 'n', 'f'] || body = ['n', 'a', 'n'] then true
  else
    let mantissa := body.takeWhile fun c => !marksExponent c
    let exponent := body.dropWhile fun c => !marksExponent c
    let isHeld (whole fraction : List Char) :=
      cs.head? = some '-' || !isInfinite whole fraction exponent
    match mantissa.splitOn '.' with
    | [whole] => isDecimal whole && !exponent.isEmpty && isExponent exponent && isHeld whole []
    | [whole, fraction] =>
      isDecimal whole && areDigits Char.isDigit fraction && isExponent exponent &&
        isHeld whole fraction
    | _ => false

def isNumber (cs : List Char) : Bool :=
  isInteger cs || isFloat cs

/-! ### Dates -/

/-- Whether a text is a number of so many digits inside given bounds. -/
def isField (digits low high : Nat) (cs : List Char) : Bool :=
  cs.length = digits && cs.all Char.isDigit && low ≤ numberOf 10 cs && numberOf 10 cs ≤ high

def daysOf (year month : Nat) : Nat :=
  if month = 2 then
    if year % 4 = 0 && (year % 100 ≠ 0 || year % 400 = 0) then 29 else 28
  else if month = 4 || month = 6 || month = 9 || month = 11 then 30
  else 31

/-- Whether a text is a day: `1979-05-27`. -/
def isDate (cs : List Char) : Bool :=
  match cs.splitOn '-' with
  | [year, month, day] =>
    isField 4 0 9999 year && isField 2 1 12 month &&
      isField 2 1 (daysOf (numberOf 10 year) (numberOf 10 month)) day
  | _ => false

/-- Whether a text is a second, possibly with a fraction. -/
def isSecond (cs : List Char) : Bool :=
  match cs.splitOn '.' with
  | [second] => isField 2 0 60 second
  | [second, fraction] =>
    isField 2 0 60 second && !fraction.isEmpty && fraction.all Char.isDigit
  | _ => false

/-- Whether a text is a time of day: `07:32:00.5`. -/
def isTime (cs : List Char) : Bool :=
  match cs.splitOn ':' with
  | [hour, minute, second] => isField 2 0 23 hour && isField 2 0 59 minute && isSecond second
  | _ => false

/-- Whether a text is a distance from universal time: `+01:00`. -/
def isOffset (cs : List Char) : Bool :=
  match cs with
  | ['Z'] | ['z'] => true
  | sign :: rest =>
    (sign = '+' || sign = '-') &&
      match rest.splitOn ':' with
      | [hour, minute] => isField 2 0 23 hour && isField 2 0 59 minute
      | _ => false
  | [] => false

/-- Whether a text is a time of day, possibly with a distance from universal time. -/
def isZonedTime (cs : List Char) : Bool :=
  let isClock (c : Char) := c.isDigit || c = ':' || c = '.'
  let offset := cs.dropWhile isClock
  isTime (cs.takeWhile isClock) && (offset.isEmpty || isOffset offset)

/-- Whether a text is a day, a time of day or both. -/
def isDateTime (cs : List Char) : Bool :=
  if isTime cs || isDate cs then true
  else match cs.drop 10 with
    | mark :: time => isDate (cs.take 10) && (mark = 'T' || mark = 't' || mark = ' ') &&
        isZonedTime time
    | [] => false

/-! ### Reading -/

/-- Whether a character can stand in a number, a truth value or a date. -/
def isScalarChar (c : Char) : Bool :=
  c.isAlphanum || c = '+' || c = '-' || c = '_' || c = '.' || c = ':'

/-- The characters of a number, a truth value or a date. A blank may divide a day from a time. -/
def scalarChars (cs : List Char) : List Char :=
  let word := cs.takeWhile isScalarChar
  match cs.drop word.length with
  | ' ' :: rest =>
    let time := rest.takeWhile isScalarChar
    if isDate word && (time.head?.any Char.isDigit) then word ++ ' ' :: time else word
  | _ => word

/-- The rest of a text behind a number, a truth value or a date. -/
def scalar? (cs : List Char) : Option (List Char) :=
  let word := scalarChars cs
  if word = "true".toList || word = "false".toList || isNumber word || isDateTime word then
    some (cs.drop word.length)
  else
    none

end Toml

end ArkLang
