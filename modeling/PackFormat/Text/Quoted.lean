import PackFormat.Text.Printable

/-!
# Quoted text

A text in a message stands in quotes. Single quotes, unless it holds one and no
double quote. The quote itself, the backslash and whatever does not print are
escaped.

* `quoted`: the text in its quotes.
-/

namespace PackFormat

/-- A number in lower-case hexadecimal, zeros in front up to a width. -/
def hexPadded (width n : Nat) : List Char :=
  let digits := Nat.toDigits 16 n
  .replicate (width - digits.length) '0' ++ digits

/-- **A character between quotes.** What does not print has its code point in two, four or eight
digits. -/
def escaped (quote c : Char) : List Char :=
  if c = quote ∨ c = '\\' then ['\\', c]
  else if c = '\t' then ['\\', 't']
  else if c = '\n' then ['\\', 'n']
  else if c = '\r' then ['\\', 'r']
  else if isPrintable c then [c]
  else if c.toNat < 0x100 then '\\' :: 'x' :: hexPadded 2 c.toNat
  else if c.toNat < 0x10000 then '\\' :: 'u' :: hexPadded 4 c.toNat
  else '\\' :: 'U' :: hexPadded 8 c.toNat

/-- The quote for a text. -/
def quoteFor (text : List Char) : Char :=
  if text.contains '\'' && !text.contains '"' then '"' else '\''

/-- **A text in its quotes.** -/
def quoted (text : String) : String :=
  let quote := quoteFor text.toList
  .ofList (quote :: text.toList.flatMap (escaped quote) ++ [quote])

end PackFormat
