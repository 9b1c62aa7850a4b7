import PointTiles.Decimal.Natural
import PointTiles.Json.Value

/-! # The smallest parts of JSON text

A reading takes characters from the front of a text. It answers what it found together with the text
that is left, or the first fault met from the left.

* `ReadError`: the three kinds of fault.
* `skipBlanks`, `literal`: blanks, and the rest of a word such as `null`.
* `quotedText`: the characters of a string up to its closing quote, escapes resolved.
* `numeral`: a number.
-/

namespace PointTiles.Json
set_option autoImplicit false

-- Powers of numbers are those of the core library, whatever else is imported.
attribute [local instance (high)] instPowNat

inductive ReadError where
  /-- The text ended where more was needed. -/
  | truncated
  /-- The text is not JSON, or a number in it is too large. -/
  | malformed
  /-- The text is JSON so far, but not of the form asked for. -/
  | mismatched
  deriving DecidableEq, Repr

/-- What was found at the front of a text, and the text after it. -/
abbrev Reading (β : Type) := β × List Char

/-- Takes a value from the front of a text. -/
abbrev Reader (β : Type) := List Char → Except ReadError (Reading β)

/-! ## Blanks and words -/

/-- The four characters that may stand between the parts of a document. -/
def isBlank (c : Char) : Bool := c = ' ' || c = '\n' || c = '\t' || c = '\x0d'

/-- The text from its first character that is not blank. -/
def skipBlanks (cs : List Char) : List Char := cs.dropWhile isBlank

/-- Takes the given characters and answers a fixed value. -/
def literal {β : Type} (value : β) : (word : List Char) → Reader β
  | [], cs => .ok (value, cs)
  | _ :: _, [] => .error .truncated
  | w :: ws, c :: cs => if c = w then literal value ws cs else .error .malformed

/-! ## Strings -/

def hexValue? (c : Char) : Option Nat :=
  if c.isDigit then some (c.toNat - '0'.toNat)
  else if 'a' ≤ c ∧ c ≤ 'f' then some (c.toNat - 'a'.toNat + 10)
  else if 'A' ≤ c ∧ c ≤ 'F' then some (c.toNat - 'A'.toNat + 10)
  else none

def byteLength (cs : List Char) : Nat := cs.foldl (fun n c => n + c.utf8Size) 0

/-- Four hexadecimal digits. The text must go on for four bytes, whatever they are, before the
digits are looked at. -/
def hexUnit (cs : List Char) : Except ReadError (Reading Nat) :=
  if byteLength (cs.take 4) < 4 then .error .truncated
  else match cs with
    | a :: b :: c :: d :: rest =>
      match hexValue? a, hexValue? b, hexValue? c, hexValue? d with
      | some a, some b, some c, some d => .ok (((a * 16 + b) * 16 + c) * 16 + d, rest)
      | _, _, _, _ => .error .malformed
    | _ => .error .malformed

/-- The second half of a surrogate pair whose first half is given. -/
def trailingSurrogate (first : Nat) : Reader Char
  | '\\' :: 'u' :: rest => do
    let (second, rest) ← hexUnit rest
    if 0xDC00 ≤ second ∧ second ≤ 0xDFFF then
      .ok (Char.ofNat (0x10000 + (first - 0xD800) * 0x400 + (second - 0xDC00)), rest)
    else .error .malformed
  | [] => .error .truncated
  | ['\\'] => .error .truncated
  | _ => .error .malformed

/-- The character that stands after a backslash. -/
def escaped : Reader Char
  | [] => .error .truncated
  | 'u' :: rest => do
    let (unit, rest) ← hexUnit rest
    if 0xDC00 ≤ unit ∧ unit ≤ 0xDFFF then .error .malformed
    else if 0xD800 ≤ unit ∧ unit ≤ 0xDBFF then trailingSurrogate unit rest
    else .ok (Char.ofNat unit, rest)
  | '"' :: rest => .ok ('"', rest)
  | '\\' :: rest => .ok ('\\', rest)
  | '/' :: rest => .ok ('/', rest)
  | 'b' :: rest => .ok ('\x08', rest)
  | 'f' :: rest => .ok ('\x0c', rest)
  | 'n' :: rest => .ok ('\n', rest)
  | 'r' :: rest => .ok ('\x0d', rest)
  | 't' :: rest => .ok ('\t', rest)
  | _ => .error .malformed

/-- Takes at most `limit` characters or escapes up to the closing quote. -/
def quotedChars : (limit : Nat) → Reader (List Char)
  | 0, _ => .error .truncated
  | _ + 1, [] => .error .truncated
  | _ + 1, '"' :: rest => .ok ([], rest)
  | limit + 1, '\\' :: rest => do
    let (c, rest) ← escaped rest
    let (cs, rest) ← quotedChars limit rest
    .ok (c :: cs, rest)
  | limit + 1, c :: rest => do
    if c.toNat < 0x20 then .error .malformed
    let (cs, rest) ← quotedChars limit rest
    .ok (c :: cs, rest)

/-- The string whose opening quote has been taken. -/
def quotedText (cs : List Char) : Except ReadError (Reading String) := do
  let (chars, rest) ← quotedChars cs.length cs
  .ok (String.ofList chars, rest)

/-! ## Numbers

A number's digits are gathered in a significand below `2 ^ 64`. Integer digits that no longer fit
are dropped and counted in the exponent; fraction digits that no longer fit are dropped. A number
with a fraction, an exponent or dropped digits is a double: significand times power of ten, in
double arithmetic. -/

/-- Takes digits onto a significand while it stays below `2 ^ 64`, counting them. -/
def gatherDigits (significand taken : Nat) : List Char → Nat × Nat × List Char
  | [] => (significand, taken, [])
  | c :: cs =>
    let next := 10 * significand + Decimal.digitValue c
    if c.isDigit && next < 2 ^ (64 : Nat) then gatherDigits next (taken + 1) cs
    else (significand, taken, c :: cs)

/-- Ten to a power that a double can hold, rounded to nearest. -/
def tenTo (k : Nat) : Float := Float.ofScientific 1 false k

/-- Divides by ten to a power in steps of at most `10 ^ 308`; zero stays as it is. -/
def divideByTens (x : Float) (k : Nat) : Float :=
  if k ≤ 308 then x / tenTo k
  else if x == 0 then x
  else divideByTens (x / tenTo 308) (k - 308)
  termination_by k

/-- The double `significand · 10 ^ exponent`, if it is finite. -/
def scaleByTens (significand : Nat) (exponent : Int) : Option Float :=
  let x := significand.toUInt64.toFloat
  match exponent with
  | .negSucc k => some (divideByTens x (k + 1))
  | .ofNat k =>
    if k ≤ 308 then
      let scaled := x * tenTo k
      if scaled.isInf then none else some scaled
    else if x == 0 then some x
    else none

def signed (negative : Bool) (x : Float) : Number := .float (if negative then -x else x)

/-- The double `significand · 10 ^ exponent` with its sign; malformed if it is not finite. -/
def scaledNumber (negative : Bool) (significand : Nat) (exponent : Int) (rest : List Char) :
    Except ReadError (Reading Number) :=
  match scaleByTens significand exponent with
  | some x => .ok (signed negative x, rest)
  | none => .error .malformed

/-- The greatest exponent that is worked out; beyond it a number is too large, or zero. -/
def greatestExponent : Nat := 2 ^ (31 : Nat) - 1

/-- The text after a sign that may stand at its front, and whether the sign is a minus. -/
def takeSign : List Char → Bool × List Char
  | '+' :: rest => (false, rest)
  | '-' :: rest => (true, rest)
  | rest => (false, rest)

def exponentPart (negative : Bool) (significand : Nat) (exponent : Int) (cs : List Char) :
    Except ReadError (Reading Number) :=
  let (down, cs) := takeSign cs
  let power := Decimal.appendDigits 0 (cs.takeWhile Char.isDigit)
  let rest := cs.dropWhile Char.isDigit
  match cs with
  | [] => .error .truncated
  | c :: _ =>
    if !c.isDigit then .error .malformed
    else if greatestExponent < power then
      if significand ≠ 0 ∧ !down then .error .malformed else .ok (signed negative 0, rest)
    else
      let exponent := if down then exponent - power else exponent + power
      scaledNumber negative significand exponent rest

/-- An exponent if one stands here, else the double. -/
def exponentOrEnd (negative : Bool) (significand : Nat) (exponent : Int) : Reader Number
  | 'e' :: rest => exponentPart negative significand exponent rest
  | 'E' :: rest => exponentPart negative significand exponent rest
  | rest => scaledNumber negative significand exponent rest

def fractionPart (negative : Bool) (significand : Nat) (exponent : Int) (cs : List Char) :
    Except ReadError (Reading Number) :=
  match cs with
  | [] => .error .truncated
  | c :: _ =>
    if !c.isDigit then .error .malformed
    else
      let (significand, taken, rest) := gatherDigits significand 0 cs
      exponentOrEnd negative significand (exponent - taken) (rest.dropWhile Char.isDigit)

/-- The integer a significand with its sign stands for. A negative number has to fit 64 bits with
its sign; one that does not, and minus zero, is a double. -/
def wholeNumber (negative : Bool) (significand : Nat) : Number :=
  if !negative then .int significand
  else if significand = 0 ∨ 2 ^ (63 : Nat) < significand then .float (-significand.toUInt64.toFloat)
  else .int (-significand)

/-- What may follow the digits of an integer of which `dropped` digits did not fit. -/
def afterInteger (negative : Bool) (significand dropped : Nat) : Reader Number
  | '.' :: rest => fractionPart negative significand dropped rest
  | 'e' :: rest => exponentPart negative significand dropped rest
  | 'E' :: rest => exponentPart negative significand dropped rest
  | rest =>
    if dropped = 0 then .ok (wholeNumber negative significand, rest)
    else scaledNumber negative significand dropped rest

/-- A number without its sign. A zero must not be followed by another digit. -/
def magnitude (negative : Bool) : Reader Number
  | [] => .error .truncated
  | '0' :: rest =>
    if (rest.head?.any Char.isDigit) then .error .malformed else afterInteger negative 0 0 rest
  | c :: rest =>
    if !c.isDigit then .error .malformed
    else
      let (significand, _, rest) := gatherDigits 0 0 (c :: rest)
      afterInteger negative significand (rest.takeWhile Char.isDigit).length
        (rest.dropWhile Char.isDigit)

def numeral : Reader Number
  | '-' :: rest => magnitude true rest
  | rest => magnitude false rest

end PointTiles.Json
