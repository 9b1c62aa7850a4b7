import PointTiles.Json.Scan

/-! # Reading JSON

* `delimited`: values separated by commas up to a closing bracket.
* `scalar`: a value that is neither array nor object.
* `value`: any value, with a bound on how many arrays and objects may be open at once.
* `Json.parse`: a whole document.
-/

namespace PointTiles.Json
set_option autoImplicit false

/-- One value or more up to the closing bracket, at most `limit` of them. -/
def delimitedFrom {β : Type} (close : Char) (item : Reader β) :
    (limit : Nat) → Reader (List β)
  | 0, _ => .error .truncated
  | limit + 1, cs => do
    let (first, rest) ← item cs
    match skipBlanks rest with
    | [] => .error .truncated
    | c :: rest =>
      if c = close then .ok ([first], rest)
      else if c = ',' then do
        let (others, rest) ← delimitedFrom close item limit rest
        .ok (first :: others, rest)
      else .error .malformed

def delimited {β : Type} (close : Char) (item : Reader β) (cs : List Char) :
    Except ReadError (Reading (List β)) :=
  match skipBlanks cs with
  | [] => .error .truncated
  | c :: rest =>
    if c = close then .ok ([], rest) else delimitedFrom close item cs.length (c :: rest)

/-- The name of a member and the colon after it. -/
def memberName (cs : List Char) : Except ReadError (Reading String) :=
  match skipBlanks cs with
  | [] => .error .truncated
  | '"' :: rest => do
    let (name, rest) ← quotedText rest
    match skipBlanks rest with
    | [] => .error .truncated
    | ':' :: rest => .ok (name, rest)
    | _ => .error .malformed
  | _ => .error .malformed

/-- A member of an object, its value read as given. -/
def namedValue {β : Type} (item : Reader β) (cs : List Char) :
    Except ReadError (Reading (String × β)) := do
  let (name, rest) ← memberName cs
  let (value, rest) ← item rest
  .ok ((name, value), rest)

def scalar (cs : List Char) : Except ReadError (Reading Json) :=
  match skipBlanks cs with
  | [] => .error .truncated
  | 'n' :: rest => literal .null ['u', 'l', 'l'] rest
  | 't' :: rest => literal (.bool true) ['r', 'u', 'e'] rest
  | 'f' :: rest => literal (.bool false) ['a', 'l', 's', 'e'] rest
  | '"' :: rest => do
    let (s, rest) ← quotedText rest
    .ok (.string s, rest)
  | c :: rest =>
    if c = '-' ∨ c.isDigit then do
      let (n, rest) ← numeral (c :: rest)
      .ok (.number n, rest)
    else .error .malformed

/-- A value with at most `levels` arrays and objects open at once. -/
def value : (levels : Nat) → Reader Json
  | 0, cs => scalar cs
  | levels + 1, cs =>
    match skipBlanks cs with
    | '[' :: rest => do
      let (items, rest) ← delimited ']' (value levels) rest
      .ok (.array items, rest)
    | '\x7b' :: rest => do
      let (members, rest) ← delimited '\x7d' (namedValue (value levels)) rest
      .ok (Json.ofMembers members, rest)
    | rest => scalar rest

/-- How many arrays and objects may be open at once in a document. -/
def nestingLimit : Nat := 127

/-- The whole text is one reading, with nothing but blanks after it. -/
def wholeText {β : Type} (reading : Reader β) (text : String) : Except ReadError β := do
  let (found, rest) ← reading text.toList
  if (skipBlanks rest).isEmpty then .ok found else .error .malformed

def parse (text : String) : Except ReadError Json := wholeText (value nestingLimit) text

end PointTiles.Json
