/-
# Named slots

A small store of values under names, for the programs that work on several timers or vectors
at once.  `get?_set` and `get?_erase` say what a change does to every name.
-/
namespace ShardedVector

structure Slots (α : Type) where
  entries : List (String × α)

namespace Slots

variable {α : Type}

def empty : Slots α := ⟨[]⟩

/-- The first value under a name in a list. -/
def find? (name : String) : List (String × α) → Option α
  | [] => none
  | (key, value) :: rest => if key = name then some value else find? name rest

/-- The list without the values under a name. -/
def without (name : String) : List (String × α) → List (String × α)
  | [] => []
  | (key, value) :: rest =>
    if key = name then without name rest else (key, value) :: without name rest

/-- The value kept under a name. -/
def get? (s : Slots α) (name : String) : Option α := find? name s.entries

/-- The other values, without the one kept under a name. -/
def erase (s : Slots α) (name : String) : Slots α := ⟨without name s.entries⟩

/-- Keeps a value under a name, in place of what was there. -/
def set (s : Slots α) (name : String) (value : α) : Slots α :=
  ⟨(name, value) :: without name s.entries⟩

@[simp] theorem get?_empty (name : String) : (empty : Slots α).get? name = none := rfl

theorem find?_without (name other : String) (es : List (String × α)) :
    find? other (without name es) = if name = other then none else find? other es := by
  induction es with
  | nil => simp [without, find?]
  | cons e rest ih =>
    obtain ⟨key, value⟩ := e
    by_cases hk : key = name
    · subst hk
      simp only [without, if_true, ih]
      by_cases ho : key = other <;> simp [find?, ho]
    · by_cases ho : key = other
      · subst ho; simp [without, find?, hk, Ne.symm hk]
      · simp [without, find?, hk, ho, ih]

theorem get?_erase (s : Slots α) (name other : String) :
    (s.erase name).get? other = if name = other then none else s.get? other :=
  find?_without name other s.entries

theorem get?_set (s : Slots α) (name other : String) (value : α) :
    (s.set name value).get? other = if name = other then some value else s.get? other := by
  by_cases h : name = other
  · subst h; simp [set, get?, find?]
  · simp [set, get?, find?, h, find?_without]

end Slots

end ShardedVector
