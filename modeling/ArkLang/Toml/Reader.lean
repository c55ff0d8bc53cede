import ArkLang.Toml.Scalar

/-!
# Reading settings files

Lists and tables can lie in each other, and keys can have several names, both up to a limit.
-/

namespace ArkLang

namespace Toml

/-! ### Keys -/

/-- A name, with or without quotes. -/
def name? (cs : List Char) : Option (String × List Char) :=
  match cs with
  | '"' :: _ | '\'' :: _ => quotedName? cs
  | _ =>
    match cs.takeWhile isBare with
    | [] => none
    | name => some (String.ofList name, cs.dropWhile isBare)

/-- A key of at most so many names. Blanks may stand around the dots. -/
def keyWithin? : Nat → List Char → Option (Key × List Char)
  | 0, _ => none
  | n + 1, cs => do
    let (name, rest) ← name? (skipBlanks cs)
    match skipBlanks rest with
    | '.' :: rest => do
      let (names, rest) ← keyWithin? n rest
      return (name :: names, rest)
    | rest => return ([name], rest)

/-- How many names a key can have, and how many lists and tables can lie in each other. -/
def depthLimit : Nat := 79

/-- A key and the blanks around it. -/
def key? (cs : List Char) : Option (Key × List Char) :=
  keyWithin? depthLimit cs

/-! ### Values -/

/-- Whether the keys of a table are well-formed: none starts with another one. -/
def areDistinct (keys : List Key) : Bool :=
  decide (keys.Pairwise fun a b => ¬ a <+: b ∧ ¬ b <+: a)

/-- The items of a list up to its closing bracket, with a bound on their number. A comma may stand
behind the last one. -/
def itemsWithin? (item? : List Char → Option (Value × List Char)) :
    Nat → List Char → Option (List Value × List Char)
  | _, ']' :: rest => some ([], rest)
  | 0, _ => none
  | n + 1, cs => do
    let (item, rest) ← item? cs
    match skipLines rest with
    | ',' :: rest => do
      let (items, rest) ← itemsWithin? item? n (skipLines rest)
      return (item :: items, rest)
    | ']' :: rest => return ([item], rest)
    | _ => none

/-- The pairs of a table between braces up to the closing one, with a bound on their number. -/
def pairsWithin? (item? : List Char → Option (Value × List Char)) :
    Nat → List Char → Option (List (Key × Value) × List Char)
  | 0, _ => none
  | n + 1, cs => do
    let (key, rest) ← key? cs
    match rest with
    | '=' :: rest => do
      let (value, rest) ← item? (skipBlanks rest)
      match skipBlanks rest with
      | ',' :: rest => do
        let (pairs, rest) ← pairsWithin? item? n rest
        return ((key, value) :: pairs, rest)
      | '\x7d' :: rest => return ([(key, value)], rest)
      | _ => none
    | _ => none

/-- A value in which at most so many lists and tables lie in each other. -/
def valueWithin? : Nat → List Char → Option (Value × List Char)
  | _, '"' :: rest => do
    let (text, rest) ← quotedText? ('"' :: rest)
    return (.text text, rest)
  | _, '\'' :: rest => do
    let (text, rest) ← quotedText? ('\'' :: rest)
    return (.text text, rest)
  | 0, '[' :: _ => none
  | depth + 1, '[' :: rest => do
    let (items, rest) ← itemsWithin? (valueWithin? depth) rest.length (skipLines rest)
    return (.array items, rest)
  | 0, '\x7b' :: _ => none
  | depth + 1, '\x7b' :: rest =>
    match skipBlanks rest with
    | '\x7d' :: rest => return (.table [], rest)
    | rest => do
      let (pairs, rest) ← pairsWithin? (valueWithin? depth) rest.length rest
      guard (areDistinct (pairs.map Prod.fst))
      return (.table pairs, rest)
  | _, cs => do
    let rest ← scalar? cs
    return (.scalar, rest)

def value? (cs : List Char) : Option (Value × List Char) :=
  valueWithin? depthLimit cs

/-! ### Entries -/

/-- An entry and the end of its line. -/
def entry? (cs : List Char) : Option (Entry × List Char) :=
  match cs with
  | '[' :: '[' :: rest => do
    let (key, rest) ← key? rest
    match rest with
    | ']' :: ']' :: rest => return (.arrayHeader key, ← endLine? rest)
    | _ => none
  | '[' :: rest => do
    let (key, rest) ← key? rest
    match rest with
    | ']' :: rest => return (.header key, ← endLine? rest)
    | _ => none
  | _ => do
    let (key, rest) ← key? cs
    match rest with
    | '=' :: rest => do
      let (value, rest) ← value? (skipBlanks rest)
      return (.pair key value, ← endLine? rest)
    | _ => none

/-- The entries of a text, with a bound on their number. -/
def entriesWithin? : Nat → List Char → Option (List Entry)
  | n, cs =>
    match skipLines cs with
    | [] => some []
    | '#' :: rest => if rest.all isInline then some [] else none
    | rest =>
      match n with
      | 0 => none
      | n + 1 => do
        let (entry, rest) ← entry? rest
        return entry :: (← entriesWithin? n rest)

/-- The entries of a settings file. A mark of the byte order in front does not count. -/
def entries? (text : String) : Option (List Entry) :=
  match text.toList with
  | '\ufeff' :: rest => entriesWithin? rest.length rest
  | cs => entriesWithin? cs.length cs

end Toml

end ArkLang
