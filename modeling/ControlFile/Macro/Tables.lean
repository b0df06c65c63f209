import ControlFile.Item.Basic
import ControlFile.Macro.Assoc

/-!
# What expansion knows

The tables that are filled while a control file is expanded: the macros, the defined symbols, the
values of preprocessor variables, the declared names, and how many unique names have been given
out.

A macro that has been deleted is remembered until it is declared again: its name may not be used
in a call.
-/

namespace ControlFile

/-- A macro: its head, and the items it stands for. -/
structure MacroEntry where
  signature : Signature
  body : List Item
deriving Inhabited

/-- The number of parameters. -/
def MacroEntry.arity (e : MacroEntry) : Nat := e.signature.params.length

/-! ### Macros -/

/-- The macros in the order of their declaration, and the names of those that were deleted. -/
structure MacroTable where
  entries : Assoc MacroEntry
  deleted : List String
deriving Inhabited

namespace MacroTable

def empty : MacroTable := ⟨[], []⟩

def get? (t : MacroTable) (name : String) : Option MacroEntry := t.entries.get? name

def contains (t : MacroTable) (name : String) : Bool := (t.get? name).isSome

def isDeleted (t : MacroTable) (name : String) : Bool := t.deleted.contains name

def names (t : MacroTable) : List String := t.entries.keys

/-- Declares one macro. -/
def declare (t : MacroTable) (signature : Signature) (body : List Item) : MacroTable :=
  ⟨t.entries.insert signature.name ⟨signature, body⟩, eraseName t.deleted signature.name⟩

/-- Declares macros that share a body. -/
def register (t : MacroTable) (signatures : List Signature) (body : List Item) : MacroTable :=
  signatures.foldl (fun t s => t.declare s body) t

/-- Deletes a macro; a name that is not known is ignored. -/
def delete (t : MacroTable) (name : String) : MacroTable :=
  if t.contains name then ⟨t.entries.erase name, insertName t.deleted name⟩ else t

theorem get?_declare (t : MacroTable) (s : Signature) (body : List Item) (name : String) :
    (t.declare s body).get? name = if s.name = name then some ⟨s, body⟩ else t.get? name :=
  Assoc.get?_insert ..

theorem get?_delete (t : MacroTable) (name x : String) :
    (t.delete name).get? x = if name = x then none else t.get? x := by
  unfold delete
  split
  · exact Assoc.get?_erase ..
  · rename_i h
    split
    · rename_i hx
      subst hx
      simpa [contains] using h
    · rfl

end MacroTable

/-! ### All tables -/

/-- What is known at one point of an expansion. -/
structure Tables where
  macros : MacroTable
  symbols : List String
  values : Assoc Float
  declared : List String
  uniqueCount : Nat
deriving Inhabited

/-- The unique name with the given number. -/
def uniqueName (n : Nat) : String := "_unique_" ++ toString n

namespace Tables

/-- Nothing is known. -/
def empty : Tables := ⟨.empty, [], [], [], 0⟩

def define (t : Tables) (name : String) : Tables := { t with symbols := insertName t.symbols name }

def undef (t : Tables) (name : String) : Tables := { t with symbols := eraseName t.symbols name }

def isDefined (t : Tables) (name : String) : Bool := t.symbols.contains name

/-- Gives a preprocessor variable a value. -/
def setVariable (t : Tables) (name : String) (value : Float) : Tables :=
  { t with values := t.values.insert name value }

def valueOf? (t : Tables) (name : String) : Option Float := t.values.get? name

def declare (t : Tables) (name : String) : Tables :=
  { t with declared := insertName t.declared name }

def isDeclared (t : Tables) (name : String) : Bool := t.declared.contains name

/-- Declares macros that share a body. -/
def registerMacros (t : Tables) (signatures : List Signature) (body : List Item) : Tables :=
  { t with macros := t.macros.register signatures body }

/-- Deletes macros. -/
def deleteMacros (t : Tables) (names : List String) : Tables :=
  { t with macros := names.foldl MacroTable.delete t.macros }

/-- The next unique name, and the tables in which it is given out. -/
def nextUnique (t : Tables) : String × Tables :=
  (uniqueName (t.uniqueCount + 1), { t with uniqueCount := t.uniqueCount + 1 })

end Tables

end ControlFile
