import PointTiles.Decimal.Shortest
import PointTiles.Json.Value

/-! # JSON text

`Json.render` writes a value with no space between its parts and the members of an object in the
order they are kept. `Number.style` decides how doubles are written.
-/

namespace PointTiles
set_option autoImplicit false

-- Powers of numbers are those of the core library, whatever else is imported.
attribute [local instance (high)] instPowNat

/-! ## Numbers -/

/-- Where positional writing ends. Inside the range a double has at least one digit after the point;
outside it has an exponent with its sign. -/
structure NumberStyle where
  leastPositional : Int
  greatestPositional : Int

/-- Doubles from `0.00001` to below `10 ^ 16` are written positionally. -/
def Number.style : NumberStyle := ⟨-5, 15⟩

/-- Writes digits around a decimal point. -/
def Decimal.Scientific.positional (s : Decimal.Scientific) : List Char :=
  if s.leading < 0 then
    ['0', '.'] ++ List.replicate (-s.leading - 1).toNat '0' ++ s.digits
  else
    let whole := s.leading.toNat + 1
    let padded := s.digits ++ List.replicate (whole + 1 - s.digits.length) '0'
    padded.take whole ++ ['.'] ++ padded.drop whole

def Decimal.Scientific.withExponent (s : Decimal.Scientific) : List Char :=
  let fraction := if s.digits.length ≤ 1 then [] else '.' :: s.digits.drop 1
  let sign := if s.leading < 0 then '-' else '+'
  s.digits.take 1 ++ fraction ++ ['e', sign] ++ Nat.toDigits 10 s.leading.natAbs

def NumberStyle.write (style : NumberStyle) (s : Decimal.Scientific) : List Char :=
  if style.leastPositional ≤ s.leading ∧ s.leading ≤ style.greatestPositional then
    s.positional
  else
    s.withExponent

/-- The text of a finite double; a value that is not a finite number has none but `null`. -/
def Number.renderFloat (x : Float) : String :=
  let sign := if x.toBits.toNat / 2 ^ (63 : Nat) = 1 then "-" else ""
  if x == 0 then sign ++ "0.0"
  else if x.isFinite then
    sign ++ String.ofList (Number.style.write (Decimal.Binary.ofBits x.toBits).shortest)
  else "null"

def Number.render : Number → String
  | .int i => toString i
  | .float x => Number.renderFloat x

/-! ## Strings -/

def Json.escape (c : Char) : List Char :=
  match c with
  | '"' => ['\\', '"']
  | '\\' => ['\\', '\\']
  | '\x08' => ['\\', 'b']
  | '\x0c' => ['\\', 'f']
  | '\n' => ['\\', 'n']
  | '\r' => ['\\', 'r']
  | '\t' => ['\\', 't']
  | c =>
    if c.toNat < 0x20 then
      ['\\', 'u', '0', '0', Nat.digitChar (c.toNat / 16), Nat.digitChar (c.toNat % 16)]
    else [c]

def Json.quoted (s : String) : String :=
  String.ofList ('"' :: s.toList.flatMap Json.escape ++ ['"'])

/-! ## Values -/

mutual

def Json.render : Json → String
  | .null => "null"
  | .bool true => "true"
  | .bool false => "false"
  | .number n => n.render
  | .string s => Json.quoted s
  | .array items => "[" ++ Json.renderItems items ++ "]"
  | .object members => "\x7b" ++ Json.renderMembers members ++ "\x7d"

def Json.renderItems : List Json → String
  | [] => ""
  | [item] => item.render
  | item :: rest => item.render ++ "," ++ Json.renderItems rest

def Json.renderMembers : List (String × Json) → String
  | [] => ""
  | [(name, value)] => Json.quoted name ++ ":" ++ value.render
  | (name, value) :: rest =>
    Json.quoted name ++ ":" ++ value.render ++ "," ++ Json.renderMembers rest

end

end PointTiles
