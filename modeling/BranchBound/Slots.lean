/-!
# Entries under chosen keys

`Slots β` holds at most one entry under every natural number. It is an array that grows as far as
the largest key, and `get?` is all that can be seen of it.
-/

namespace BranchBound

/-- Entries under natural numbers. -/
structure Slots (β : Type) where
  entries : Array (Option β)
  deriving Repr

namespace Slots

variable {β : Type}

def empty : Slots β := ⟨#[]⟩

instance : Inhabited (Slots β) := ⟨empty⟩

/-- The entry under a key. -/
def get? (s : Slots β) (key : Nat) : Option β := s.entries[key]?.join

/-- Puts an entry under a key, in place of the one that was there. -/
def insert (s : Slots β) (key : Nat) (entry : β) : Slots β :=
  ⟨(s.entries ++ Array.replicate (key + 1 - s.entries.size) none).setIfInBounds key (some entry)⟩

/-- Removes the entry under a key. -/
def erase (s : Slots β) (key : Nat) : Slots β := ⟨s.entries.setIfInBounds key none⟩

theorem get?_empty (key : Nat) : (empty : Slots β).get? key = none := by
  simp [get?, empty]

theorem get?_insert (s : Slots β) (key key' : Nat) (entry : β) :
    (s.insert key entry).get? key' = if key = key' then some entry else s.get? key' := by
  unfold get? insert
  by_cases h : key = key'
  · subst h
    have hlt : key < s.entries.size + (key + 1 - s.entries.size) := by omega
    simp [hlt]
  · by_cases hs : key' < s.entries.size
    · simp [Array.getElem?_append, h, hs]
    · simp only [Array.getElem?_setIfInBounds, Array.getElem?_append, h, hs, if_false]
      have hnone : s.entries[key']? = none := by simp; omega
      rw [hnone]
      by_cases hr : key' - s.entries.size < key + 1 - s.entries.size
      · simp [hr]
      · simp [hr]

theorem get?_erase (s : Slots β) (key key' : Nat) :
    (s.erase key).get? key' = if key = key' then none else s.get? key' := by
  unfold get? erase
  by_cases h : key = key'
  · subst h
    by_cases hk : key < s.entries.size <;> simp [hk]
  · simp [h]

end Slots

end BranchBound
