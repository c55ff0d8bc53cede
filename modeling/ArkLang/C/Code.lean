/-!
# Lines of C

C text is put together from lines. Braces are written here and nowhere else: what stands between
them is indented by two blanks.
-/

namespace ArkLang

namespace C

/-- Lines without their line breaks. -/
abbrev Lines := List String

/-- Moves lines one level to the right. -/
def indent (lines : Lines) : Lines :=
  lines.map ("  " ++ ·)

def opening : String := "\x7b"

def closing : String := "\x7d"

/-- Text between braces on one line. -/
def braced (text : String) : String :=
  opening ++ " " ++ text ++ " " ++ closing

/-- Lines between braces, under a heading, with a text behind the closing brace. -/
def blockThen (head : String) (body : Lines) (tail : String) : Lines :=
  (head ++ " " ++ opening) :: (indent body ++ [closing ++ tail])

/-- Lines between braces, under a heading. -/
def block (head : String) (body : Lines) : Lines :=
  blockThen head body ""

/-- Bodies under headings behind a body, each on the line of the closing brace before it. -/
def otherBranches : List (String × Lines) → Lines
  | [] => [closing]
  | (head, body) :: rest =>
    (closing ++ " " ++ head ++ " " ++ opening) :: (indent body ++ otherBranches rest)

/-- Bodies under headings, each but the first on the line of the closing brace before it. -/
def branches : List (String × Lines) → Lines
  | [] => []
  | (head, body) :: rest =>
    (head ++ " " ++ opening) :: (indent body ++ otherBranches rest)

def Lines.text (lines : Lines) : String :=
  String.join (lines.map (· ++ "\n"))

end C

end ArkLang
