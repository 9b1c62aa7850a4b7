import PointTiles.Json.Reader
import PointTiles.Fault

/-! # Hierarchy pages

A page is a document that maps node names to point counts. The count `-1` says that the node's
subtree is described by a page of its own.

* `PageEntry`: the value of one entry, read from a JSON value.
* `Page`: the entries by address, in address order.
* `Page.ofJson`: reads the members in the order of their names. The first bad member is reported, a
  bad name before a bad count; of two names for one address the later one counts.
-/

namespace PointTiles
set_option autoImplicit false

inductive PageEntry where
  /-- The node holds this many points. -/
  | points (count : UInt64)
  /-- The node's subtree has a page of its own. -/
  | subtree
  deriving DecidableEq, Repr

/-- The entry that a count stands for: a 64-bit word, or minus one. -/
def PageEntry.ofJson? : Json → Option PageEntry
  | .number (.int (.ofNat n)) =>
    if n < UInt64.size then some (.points (UInt64.ofNat n)) else none
  | .number (.int (.negSucc 0)) => some .subtree
  | _ => none

structure Page where
  entries : Std.TreeMap Address PageEntry

namespace Page

def empty : Page := ⟨∅⟩

def readMember (name : String) (count : Json) : Except Fault (Address × PageEntry) :=
  match Address.ofText? name with
  | none => .error (.malformedKey name)
  | some a =>
    match PageEntry.ofJson? count with
    | none => .error (.invalidEntry name count)
    | some entry => .ok (a, entry)

def readMembers : List (String × Json) → Page → Except Fault Page
  | [], page => .ok page
  | (name, count) :: members, page => do
    let (a, entry) ← readMember name count
    readMembers members ⟨page.entries.insert a entry⟩

def ofJson : Json → Except Fault Page
  | .object members => readMembers members empty
  | json => .error (.pageNotObject json)

def parse (text : String) : Except Fault Page :=
  match Json.parse text with
  | .ok json => ofJson json
  | .error error => .error (.unreadable error)

def toList (page : Page) : List (Address × PageEntry) := page.entries.toList

def size (page : Page) : Nat := page.entries.size

def isEmpty (page : Page) : Bool := page.entries.isEmpty

end Page

end PointTiles
