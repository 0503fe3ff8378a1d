/-!
# Lines

A line ends at any of the characters that Unicode has for it, and a carriage return
with a line feed behind it is one end. What follows the last end is a line only if
it is not empty.

* `lines`: the lines of a text, without their ends.
-/

namespace PackFormat

/-- The characters that end a line. -/
def lineEnds : List Char :=
  ['\n', '\x0b', '\x0c', '\r', '\x1c', '\x1d', '\x1e', '\x85', '\u2028', '\u2029']

/-- **The lines of a text**, without their ends. -/
def lines : List Char → List (List Char)
  | [] => []
  | '\r' :: '\n' :: rest => [] :: lines rest
  | c :: rest =>
    if lineEnds.contains c then [] :: lines rest
    else
      match lines rest with
      | [] => [[c]]
      | line :: more => (c :: line) :: more

/-- The last line of a text. -/
def lastLine (text : String) : String := .ofList ((lines text.toList).getLastD [])

end PackFormat
