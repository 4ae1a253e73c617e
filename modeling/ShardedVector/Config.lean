/-
# Settings for new vectors

A `Config` says which backend new vectors use and whether they are instrumented.  It is read
from a `Document`, a value of the usual data formats: a record of settings by name, or a list
of settings in order.  A missing setting has its standard value, an unknown name is passed
over, and a setting of the wrong form refuses the document.
-/
import ShardedVector.Storage.Backend

namespace ShardedVector

/-! ## 1. Documents -/

/-- A value of a data format.  No setting is a number, so the value of a number is not kept. -/
inductive Document where
  | null
  | boolean (value : Bool)
  | number
  | text (value : String)
  | list (items : List Document)
  | record (fields : List (String × Document))
deriving Inhabited

namespace Document

/-- The value of a field. -/
def field? (name : String) : List (String × Document) → Option Document
  | [] => none
  | (key, value) :: rest => if key = name then some value else field? name rest

end Document

/-! ## 2. Settings -/

structure Config where
  backend : Backend
  instrument : Bool
deriving DecidableEq

namespace Config

def standard : Config := ⟨.standard, true⟩

/-- A backend by its exact name, or as a record with that name alone and nothing under it. -/
def backendOf? : Document → Option Backend
  | .text name => Backend.ofExactName? name
  | .record [(name, .null)] => Backend.ofExactName? name
  | _ => none

def instrumentOf? : Document → Option Bool
  | .boolean value => some value
  | _ => none

/-- A setting, or its standard value if it is missing. -/
def settingOr {α : Type} (read : Document → Option α) (value : α) :
    Option Document → Option α
  | none => some value
  | some d => read d

/-- The config that a document says. -/
def ofDocument? : Document → Option Config
  | .record fields => do
    let backend ← settingOr backendOf? standard.backend (Document.field? "backend" fields)
    let instrument ←
      settingOr instrumentOf? standard.instrument (Document.field? "instrument" fields)
    return ⟨backend, instrument⟩
  | .list items =>
    if items.length ≤ 2 then do
      let backend ← settingOr backendOf? standard.backend items[0]?
      let instrument ← settingOr instrumentOf? standard.instrument items[1]?
      return ⟨backend, instrument⟩
    else none
  | _ => none

end Config

end ShardedVector
