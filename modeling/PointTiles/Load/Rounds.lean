import PointTiles.Load

/-! # Loading without a pool

The pages of a hierarchy, loaded one after the other. Each round keeps the first occurrence of every
key whose page has not been requested, loads those pages in order, and makes up the next round from
the keys that they point to, in the same order.

* `Progress`: what has been loaded so far.
* `Progress.loadPage`: one page.
* `Progress.loadRounds`, `loadInRounds`: all rounds.
-/

namespace PointTiles
set_option autoImplicit false

-- Powers of numbers are those of the core library, whatever else is imported.
attribute [local instance (high)] instPowNat

variable {α : Type} [Coordinate α]

structure Progress (α : Type) where
  hierarchy : Hierarchy α
  fetched : List Address
  messages : List String

namespace Progress

/-- A page has been fetched, and leaves this message if any. -/
def note (a : Address) (trouble : Option Trouble) (p : Progress α) : Progress α :=
  { p with
    fetched := p.fetched ++ [a]
    messages := p.messages ++ (trouble.map Trouble.message).toList }

/-- Loads a page, and answers the keys it points to; none where it fails. -/
def loadPage (source : Source) (root : Box α) (a : Address) (p : Progress α) :
    Progress α × List (Key α) :=
  match source a with
  | .error trouble => (p.note a (trouble.during ("fetching hierarchy page " ++ a.text)), [])
  | .ok text =>
    match Page.parse text with
    | .error fault =>
      (p.note a ((Trouble.ofFault fault).during ("parsing hierarchy page " ++ a.text)), [])
    | .ok page =>
      match p.hierarchy.mergePage root page with
      | (h, .ok keys) => ({ p with hierarchy := h }.note a none, keys)
      | (h, .error fault) => ({ p with hierarchy := h }.note a (Trouble.ofFault fault), [])

/-- Loads pages in order, and answers the keys they point to. -/
def loadPages (source : Source) (root : Box α) : List (Key α) → Progress α →
    Progress α × List (Key α)
  | [], p => (p, [])
  | key :: keys, p =>
    let (p, found) := p.loadPage source root key.address
    let (p, others) := loadPages source root keys p
    (p, found ++ others)

/-- Loads rounds until one has no page left, at most `limit` of them. -/
def loadRounds (source : Source) (root : Box α) : (limit : Nat) → (requested : List Address) →
    List (Key α) → Progress α → Progress α
  | 0, _, _, p => p
  | limit + 1, requested, keys, p =>
    match unrequested requested keys with
    | [] => p
    | key :: fresh =>
      let (p, found) := p.loadPages source root (key :: fresh)
      loadRounds source root limit (requested ++ (key :: fresh).map Key.address) found p

end Progress

/-- Loads all pages onto a hierarchy. Every round requests a page of its own, so there are no more
rounds than addresses. -/
def loadInRounds (source : Source) (root : Box α) (h : Hierarchy α) : Progress α :=
  Progress.loadRounds source root (2 ^ (190 : Nat)) [] [Key.root root] ⟨h, [], []⟩

end PointTiles
