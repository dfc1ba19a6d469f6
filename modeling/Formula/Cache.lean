import Formula.Parser
import Std.Data.HashMap

/-! Trees of the sources read so far. A source is read once until it is cleared. -/
namespace Formula

structure Cache where
  entries : Std.HashMap String (Tree Float) := ∅

namespace Cache

def find? (c : Cache) (source : String) : Option (Tree Float) := c.entries[source]?

def insert (c : Cache) (source : String) (tree : Tree Float) : Cache :=
  ⟨c.entries.insert source tree⟩

/-- The tree of the source, malformed ones included. -/
def read (c : Cache) (source : String) : Tree Float × Cache :=
  match c.find? source with
  | some tree => (tree, c)
  | none =>
    let tree := Tree.ofSource source
    (tree, c.insert source tree)

def clear (c : Cache) (source : String) : Cache := ⟨c.entries.erase source⟩

def contains (c : Cache) (source : String) : Bool := c.entries.contains source

def size (c : Cache) : Nat := c.entries.size

def isEmpty (c : Cache) : Bool := c.entries.isEmpty

theorem find?_empty (source : String) : ({} : Cache).find? source = none := by simp [find?]

theorem find?_insert (c : Cache) (source other : String) (tree : Tree Float) :
    (c.insert source tree).find? other = if source = other then some tree else c.find? other := by
  simp [find?, insert, Std.HashMap.getElem?_insert]

theorem find?_clear (c : Cache) (source other : String) :
    (c.clear source).find? other = if source = other then none else c.find? other := by
  simp [find?, clear, Std.HashMap.getElem?_erase]

theorem contains_eq_isSome (c : Cache) (source : String) :
    c.contains source = (c.find? source).isSome :=
  Std.HashMap.contains_eq_isSome_getElem?

end Cache
end Formula
