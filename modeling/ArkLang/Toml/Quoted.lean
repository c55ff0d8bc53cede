import ArkLang.Toml.Basic

/-!
# Quoted texts

A text between double quotes knows escapes, one between single quotes does not. Between three quotes
a text may have several lines; a line end right behind the opening quotes does not count, and up to
two quotes may stand right before the closing ones.
-/

namespace ArkLang

namespace Toml

/-- The value of a hexadecimal digit. -/
def hexDigit? (c : Char) : Option Nat :=
  if c.isDigit then some (c.toNat - '0'.toNat)
  else if 'a' ≤ c && c ≤ 'f' then some (c.toNat - 'a'.toNat + 10)
  else if 'A' ≤ c && c ≤ 'F' then some (c.toNat - 'A'.toNat + 10)
  else none

/-- The number that digits of base sixteen write, continuing one that was read before them. -/
def hexNumber? : Nat → List Char → Option Nat
  | n, [] => some n
  | n, c :: rest => do hexNumber? (n * 16 + (← hexDigit? c)) rest

/-- The character of a number of so many digits. -/
def codePoint? (digits : Nat) (cs : List Char) : Option (Char × List Char) := do
  guard (digits ≤ cs.length)
  let n ← hexNumber? 0 (cs.take digits)
  guard n.isValidChar
  return (Char.ofNat n, cs.drop digits)

def escape? : List Char → Option (Char × List Char)
  | 'b' :: rest => some ('\x08', rest)
  | 't' :: rest => some ('\t', rest)
  | 'n' :: rest => some ('\n', rest)
  | 'f' :: rest => some ('\x0c', rest)
  | 'r' :: rest => some ('\r', rest)
  | '"' :: rest => some ('"', rest)
  | '\\' :: rest => some ('\\', rest)
  | 'u' :: rest => codePoint? 4 rest
  | 'U' :: rest => codePoint? 8 rest
  | _ => none

/-- A text up to its closing double quote, with a bound on its length. -/
def basic? : Nat → List Char → Option (List Char × List Char)
  | _ + 1, '"' :: rest => some ([], rest)
  | n + 1, '\\' :: rest => do
    let (c, rest) ← escape? rest
    let (cs, rest) ← basic? n rest
    return (c :: cs, rest)
  | n + 1, c :: rest => do
    guard (isBasic c)
    let (cs, rest) ← basic? n rest
    return (c :: cs, rest)
  | _, _ => none

/-- A text up to its closing single quote. -/
def literal? (cs : List Char) : Option (List Char × List Char) :=
  match cs.dropWhile isLiteral with
  | '\'' :: rest => some (cs.takeWhile isLiteral, rest)
  | _ => none

/-- A text on one line. -/
def quotedName? : List Char → Option (String × List Char)
  | '"' :: rest => do
    let (cs, rest) ← basic? rest.length rest
    return (String.ofList cs, rest)
  | '\'' :: rest => do
    let (cs, rest) ← literal? rest
    return (String.ofList cs, rest)
  | _ => none

/-- The number of quotes at the front of a text, as far as they can belong together: two of the text
and three that close it. -/
def quoteCount (quote : Char) (cs : List Char) : Nat :=
  min 5 (cs.takeWhile (· = quote)).length

/-- A text behind a backslash at the end of a line: all blanks and line ends that follow. -/
def continueLine? (cs : List Char) : Option (List Char) := do
  let rest ← newline? (skipBlanks cs)
  return skipSpaceWithin rest.length rest

/-- A text of several lines up to its closing quotes, with a bound on its length. Line ends become
line feeds. -/
def lines? (quote : Char) : Nat → List Char → Option (List Char × List Char)
  | 0, _ => none
  | n + 1, cs =>
    let quotes := quoteCount quote cs
    if 3 ≤ quotes then
      some (List.replicate (quotes - 3) quote, cs.drop quotes)
    else
      match cs, newline? cs with
      | _, some rest => do
        let (more, rest) ← lines? quote n rest
        return ('\n' :: more, rest)
      | c :: rest, none =>
        if c = quote then do
          let (more, rest) ← lines? quote n rest
          return (c :: more, rest)
        else if c = '\\' && quote = '"' then
          match continueLine? rest with
          | some next => lines? quote n next
          | none => do
            let (c, rest) ← escape? rest
            let (more, rest) ← lines? quote n rest
            return (c :: more, rest)
        else do
          guard (isInline c)
          let (more, rest) ← lines? quote n rest
          return (c :: more, rest)
      | [], none => none

/-- A text of several lines, behind its opening quotes. -/
def multiline? (quote : Char) (cs : List Char) : Option (String × List Char) := do
  let body := (newline? cs).getD cs
  let (text, rest) ← lines? quote (body.length + 1) body
  return (String.ofList text, rest)

/-- A text on one line or on several. -/
def quotedText? : List Char → Option (String × List Char)
  | '"' :: '"' :: '"' :: rest => multiline? '"' rest
  | '\'' :: '\'' :: '\'' :: rest => multiline? '\'' rest
  | cs => quotedName? cs

end Toml

end ArkLang
