/-! Tables from names to values that remember the order in which names were first entered. -/
namespace StackToolchain

/-- A table keyed by names. Entries stand in the order in which their names were first entered. -/
structure Table (α : Type) where
  entries : List (String × α) := []
  deriving DecidableEq, Repr

namespace Table

variable {α : Type}

def empty : Table α := ⟨[]⟩

instance : Inhabited (Table α) := ⟨empty⟩

def get? (t : Table α) (name : String) : Option α :=
  t.entries.lookup name

def contains (t : Table α) (name : String) : Bool :=
  (t.get? name).isSome

def size (t : Table α) : Nat :=
  t.entries.length

def setEntry (name : String) (a : α) : List (String × α) → List (String × α)
  | [] => [(name, a)]
  | (key, b) :: rest => if key = name then (key, a) :: rest else (key, b) :: setEntry name a rest

/-- Give a name a value. A name that is entered keeps its place. -/
def insert (t : Table α) (name : String) (a : α) : Table α :=
  ⟨setEntry name a t.entries⟩

theorem lookup_setEntry (name other : String) (a : α) (entries : List (String × α)) :
    (setEntry name a entries).lookup other = if other = name then some a else entries.lookup other := by
  induction entries with
  | nil => grind [setEntry]
  | cons entry rest ih => grind [setEntry]

theorem get?_insert (t : Table α) (name other : String) (a : α) :
    (t.insert name a).get? other = if other = name then some a else t.get? other :=
  lookup_setEntry name other a t.entries

def push (t : Table α) (name : String) (a : α) : Table α :=
  ⟨t.entries ++ [(name, a)]⟩

def agrees [BEq α] (t u : Table α) : Bool :=
  t.size == u.size && t.entries.all fun (name, a) => u.get? name == some a

end Table

end StackToolchain
