import BranchBound.Fault

/-!
# Tables that hand out keys

A `Table κ β` grows at its end and gives every entry a key, the number of entries before it. Keys
are never reused. Giving each kind of table a key type of its own keeps the columns of one table
from being looked up in another.
-/

namespace BranchBound

/-- A type of keys: natural numbers under another name. -/
class Key (κ : Type) where
  index : κ → Nat
  ofIndex : Nat → κ

instance : Key Nat := ⟨id, id⟩

/-- Entries in the order of their keys. -/
structure Table (κ β : Type) where
  entries : Array β
  deriving Repr

namespace Table

variable {κ β : Type} [Key κ]

instance : Inhabited (Table κ β) := ⟨⟨#[]⟩⟩

def empty : Table κ β := ⟨#[]⟩

def size (t : Table κ β) : Nat := t.entries.size

def isEmpty (t : Table κ β) : Bool := t.entries.isEmpty

/-- Appends an entry and returns its key. -/
def push (t : Table κ β) (entry : β) : κ × Table κ β :=
  (Key.ofIndex t.entries.size, ⟨t.entries.push entry⟩)

def get? (t : Table κ β) (key : κ) : Option β := t.entries[Key.index key]?

/-- The entry of a key the table has handed out. -/
def get (t : Table κ β) (key : κ) : Checked β := fetch t.entries (Key.index key)

/-- Replaces the entry of a key the table has handed out. -/
def set (t : Table κ β) (key : κ) (entry : β) : Checked (Table κ β) := do
  return ⟨← store t.entries (Key.index key) entry⟩

/-- Replaces the entry of a key, if the table has it. -/
def setIfPresent (t : Table κ β) (key : κ) (entry : β) : Table κ β :=
  ⟨t.entries.setIfInBounds (Key.index key) entry⟩

/-- Changes the entry of a key, if the table has it. -/
def modify (t : Table κ β) (key : κ) (f : β → β) : Table κ β :=
  ⟨t.entries.modify (Key.index key) f⟩

/-- The keys handed out so far, in order. -/
def keys (t : Table κ β) : List κ := (List.range t.entries.size).map Key.ofIndex

def toList (t : Table κ β) : List β := t.entries.toList

def ofList (entries : List β) : Table κ β := ⟨entries.toArray⟩

end Table

/-! ### Events

Whoever follows a table of entries is told what happened to them by a list of events which only ever
grows, and remembers how many events it has read.
-/

/-- What happened to the entry with an identifier. -/
inductive PoolEvent where
  | added (id : Nat)
  | removed (id : Nat)
  deriving DecidableEq, Repr

end BranchBound
