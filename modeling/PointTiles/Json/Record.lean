import PointTiles.Json.Reader

/-! # Records in JSON

A record is an object with a fixed list of typed fields, each of which may be missing. It may also
be given as an array of the fields' values in order, cut short anywhere.

* `Record.read`: from text. Other members are skipped; a field given twice is a mismatch, and so is
  a value of the wrong type once it has been read.
* `Record.ofJson?`: from a value, by the same rules.

A skipped value is checked for its shape alone, to any depth: a number may be too large for a double
and an escape may be half a surrogate pair.
-/

namespace PointTiles.Json
set_option autoImplicit false

/-! ## Fields -/

inductive FieldType where
  | text
  | natural
  | optionalNumber
  | flag
  deriving DecidableEq, Repr

structure Field where
  name : String
  type : FieldType

inductive FieldValue where
  | text (value : String)
  | natural (value : UInt64)
  | optionalNumber (value : Option Float)
  | flag (value : Bool)

/-- The fields that were given, by name. -/
abbrev Record := List (String × FieldValue)

namespace Record

def text? (record : Record) (name : String) : Option String :=
  match record.lookup name with
  | some (.text s) => some s
  | _ => none

def natural? (record : Record) (name : String) : Option UInt64 :=
  match record.lookup name with
  | some (.natural n) => some n
  | _ => none

/-- The number in a field; none where the field is missing or holds `null`. -/
def number? (record : Record) (name : String) : Option Float :=
  match record.lookup name with
  | some (.optionalNumber x) => x
  | _ => none

def flag? (record : Record) (name : String) : Option Bool :=
  match record.lookup name with
  | some (.flag b) => some b
  | _ => none

end Record

/-! ## From a value -/

def FieldType.ofJson? : FieldType → Json → Option FieldValue
  | .text, .string s => some (.text s)
  | .natural, .number n => n.natural?.map .natural
  | .optionalNumber, .null => some (.optionalNumber none)
  | .optionalNumber, .number n => some (.optionalNumber (some n.toFloat))
  | .flag, .bool b => some (.flag b)
  | _, _ => none

def Field.ofJson? (field : Field) (json : Json) : Option (String × FieldValue) :=
  (field.type.ofJson? json).map (fun v => (field.name, v))

/-- The fields among the members of an object, if all have their type. -/
def Record.ofMembers? (members : List (String × Json)) : List Field → Option Record
  | [] => some []
  | field :: fields =>
    match members.lookup field.name with
    | none => ofMembers? members fields
    | some json => do
      let given ← field.ofJson? json
      let others ← ofMembers? members fields
      some (given :: others)

/-- The fields in the order of an array, which must not be longer than the fields are. -/
def Record.ofItems? : List Field → List Json → Option Record
  | _, [] => some []
  | [], _ :: _ => none
  | field :: fields, item :: items => do
    let given ← field.ofJson? item
    let others ← ofItems? fields items
    some (given :: others)

def Record.ofJson? (fields : List Field) : Json → Option Record
  | .object members => ofMembers? members fields
  | .array items => ofItems? fields items
  | _ => none

/-! ## Skipping values -/

inductive Bracket where
  | array
  | object

def skipDigits (cs : List Char) : Except ReadError (List Char) :=
  if cs.head?.any Char.isDigit then .ok (cs.dropWhile Char.isDigit) else .error .malformed

/-- Skips an exponent if one stands here. -/
def skipExponent : List Char → Except ReadError (List Char)
  | 'e' :: rest => skipDigits (takeSign rest).2
  | 'E' :: rest => skipDigits (takeSign rest).2
  | rest => .ok rest

/-- Skips a fraction and an exponent if they stand here. -/
def skipFraction : List Char → Except ReadError (List Char)
  | '.' :: rest => do skipExponent (← skipDigits rest)
  | rest => skipExponent rest

/-- Skips a number without its sign; whatever is wrong with it, it is malformed. -/
def skipMagnitude : List Char → Except ReadError (List Char)
  | '0' :: rest => if rest.head?.any Char.isDigit then .error .malformed else skipFraction rest
  | rest => do skipFraction (← skipDigits rest)

/-- Skips a string whose opening quote has been taken. -/
def skipQuoted : (limit : Nat) → List Char → Except ReadError (List Char)
  | 0, _ => .error .truncated
  | _ + 1, [] => .error .truncated
  | _ + 1, '"' :: rest => .ok rest
  | _ + 1, ['\\'] => .error .truncated
  | limit + 1, '\\' :: 'u' :: rest => do
    let (_, rest) ← hexUnit rest
    skipQuoted limit rest
  | limit + 1, '\\' :: c :: rest =>
    if ['"', '\\', '/', 'b', 'f', 'n', 'r', 't'].contains c then skipQuoted limit rest
    else .error .malformed
  | limit + 1, c :: rest => if c.toNat < 0x20 then .error .malformed else skipQuoted limit rest

/-- Skips the name of a member and the colon after it. -/
def skipName (cs : List Char) : Except ReadError (List Char) :=
  match skipBlanks cs with
  | [] => .error .truncated
  | '"' :: rest => do
    match skipBlanks (← skipQuoted rest.length rest) with
    | [] => .error .truncated
    | ':' :: rest => .ok rest
    | _ => .error .malformed
  | _ => .error .malformed

mutual

/-- Skips a value, then closes the open brackets. -/
def skipValue : (limit : Nat) → List Bracket → List Char → Except ReadError (List Char)
  | 0, _, _ => .error .truncated
  | limit + 1, opened, cs =>
    match skipBlanks cs with
    | [] => .error .truncated
    | '[' :: rest =>
      match skipBlanks rest with
      | ']' :: rest => skipClosing limit opened rest
      | [] => .error .truncated
      | rest => skipValue limit (.array :: opened) rest
    | '\x7b' :: rest =>
      match skipBlanks rest with
      | '\x7d' :: rest => skipClosing limit opened rest
      | rest => do skipValue limit (.object :: opened) (← skipName rest)
    | '-' :: rest => do skipClosing limit opened (← skipMagnitude rest)
    | '"' :: rest => do skipClosing limit opened (← skipQuoted rest.length rest)
    | c :: rest => do
      if c.isDigit then skipClosing limit opened (← skipMagnitude (c :: rest))
      else
        let (_, rest) ← scalar (c :: rest)
        skipClosing limit opened rest

/-- Skips what follows a value inside the open brackets, up to the last closing one. -/
def skipClosing : (limit : Nat) → List Bracket → List Char → Except ReadError (List Char)
  | _, [], cs => .ok cs
  | 0, _ :: _, _ => .error .truncated
  | limit + 1, .array :: opened, cs =>
    match skipBlanks cs with
    | [] => .error .truncated
    | ',' :: rest => skipValue limit (.array :: opened) rest
    | ']' :: rest => skipClosing limit opened rest
    | _ => .error .malformed
  | limit + 1, .object :: opened, cs =>
    match skipBlanks cs with
    | [] => .error .truncated
    | ',' :: rest => do skipValue limit (.object :: opened) (← skipName rest)
    | '\x7d' :: rest => skipClosing limit opened rest
    | _ => .error .malformed

end

/-! ## From text -/

/-- The fault of a value that has not the type asked for: its own, if it is a faulty string, number
or word, and a mismatch otherwise. -/
def mismatch (cs : List Char) : ReadError :=
  match skipBlanks cs with
  | '[' :: _ => .mismatched
  | '\x7b' :: _ => .mismatched
  | rest =>
    match scalar rest with
    | .ok _ => .mismatched
    | .error fault => fault

def FieldType.read (type : FieldType) (cs : List Char) : Except ReadError (Reading FieldValue) :=
  match skipBlanks cs with
  | '[' :: _ => .error .mismatched
  | '\x7b' :: _ => .error .mismatched
  | rest => do
    let (json, rest) ← scalar rest
    match type.ofJson? json with
    | some given => .ok (given, rest)
    | none => .error .mismatched

/-- Reads fields in order up to the closing bracket of an array. A comma stands before each field
but the first. -/
def Record.readItems : (first : Bool) → List Field → Reader Record
  | _, [], cs =>
    match skipBlanks cs with
    | [] => .error .truncated
    | ']' :: rest => .ok ([], rest)
    | _ => .error .malformed
  | first, field :: fields, cs =>
    match skipBlanks cs with
    | [] => .error .truncated
    | ']' :: rest => .ok ([], rest)
    | c :: rest => do
      if !first && c ≠ ',' then .error .malformed
      let (given, rest) ← field.type.read (if first then c :: rest else rest)
      let (others, rest) ← readItems false fields rest
      .ok ((field.name, given) :: others, rest)

/-- Reads members onto the fields found so far, up to the closing bracket of an object. -/
def Record.readMembers (fields : List Field) : (limit : Nat) → Record → Reader Record
  | 0, _, _ => .error .truncated
  | limit + 1, found, cs =>
    match skipBlanks cs with
    | [] => .error .truncated
    | '"' :: rest => do
      let (name, rest) ← quotedText rest
      let field := fields.find? (fun f => f.name = name)
      if field.isSome && (found.lookup name).isSome then .error .mismatched
      let rest ← match skipBlanks rest with
        | [] => .error .truncated
        | ':' :: rest => .ok rest
        | _ => .error .malformed
      let (found, rest) ← match field with
        | some field => do
          let (given, rest) ← field.type.read rest
          .ok ((name, given) :: found, rest)
        | none => do .ok (found, ← skipValue rest.length [] rest)
      match skipBlanks rest with
      | [] => .error .truncated
      | ',' :: rest => readMembers fields limit found rest
      | '\x7d' :: rest => .ok (found, rest)
      | _ => .error .malformed
    | _ => .error .malformed

def Record.readFrom (fields : List Field) (cs : List Char) : Except ReadError (Reading Record) :=
  match skipBlanks cs with
  | '[' :: rest => readItems true fields rest
  | '\x7b' :: rest =>
    match skipBlanks rest with
    | '\x7d' :: rest => .ok ([], rest)
    | rest => readMembers fields rest.length [] rest
  | rest => .error (mismatch rest)

def Record.read (fields : List Field) (text : String) : Except ReadError Record :=
  wholeText (readFrom fields) text

end PointTiles.Json
