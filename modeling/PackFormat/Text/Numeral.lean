import PackFormat.Text.Blank
import PackFormat.Text.DecimalDigit

/-!
# Whole numbers as people type them

A number may have white space around it and a sign in front. Its digits may be of
any script and may be grouped by single underscores. No number has more than 4300
digits.

* `integer?`: the number of a text, if it is one.
-/

namespace PackFormat

/-- The digits of a number, of which any two may have an underscore between them. -/
def digits? : List Char → Option (List Nat)
  | [] => none
  | [c] => (digitValue? c).map ([·])
  | c :: '_' :: rest => (digitValue? c).bind fun d => (digits? rest).map (d :: ·)
  | c :: c' :: rest => (digitValue? c).bind fun d => (digits? (c' :: rest)).map (d :: ·)

/-- The most digits a number may have. -/
def maxDigits : Nat := 4300

/-- The number of some digits, if they are not too many. -/
def natural? (text : List Char) : Option Nat :=
  (digits? text).bind fun digits =>
    if maxDigits < digits.length then none else some (digits.foldl (fun n d => 10 * n + d) 0)

/-- **The number of a text.** -/
def integer? (text : List Char) : Option Int :=
  match trimBlanks text with
  | '-' :: digits => (natural? digits).map fun n => -(n : Int)
  | '+' :: digits => (natural? digits).map Int.ofNat
  | digits => (natural? digits).map Int.ofNat

end PackFormat
