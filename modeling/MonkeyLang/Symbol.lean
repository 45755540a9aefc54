import MonkeyLang.SymbolTable
/-!
# Symbols

Where the value of a name is kept while a program runs. Names of the top level have slots that the whole program shares,
names of a function have slots in the frame of each call. A function that uses a name of a function around it captures its
value, and so does every function in between. Inside its own body, the name of a function stands for the closure that is
running.

A function scope keeps the names of the function as such and those of the blocks that are open in it. Names of a block
go when the block ends, but their slots are not used again; a captured name belongs to the function as such.
-/

namespace MonkeyLang

structure Symbol extends Entry where
  name : String
deriving DecidableEq, Repr

/-- One function, or the top level. -/
structure FunctionScope where
  names : SymbolTable := {}
  /-- The number of slots handed out. -/
  slots : Nat := 0
  /-- The captured symbols in order, as they are in the function around this one. -/
  captures : List Symbol := []
  consistent : names.Consistent := by exact SymbolTable.consistent_empty

namespace FunctionScope

def find? (f : FunctionScope) (name : String) : Option Storage := f.names.entries[name]?.map Entry.storage

def insert (f : FunctionScope) (name : String) (storage : Storage) : FunctionScope :=
  { f with names := f.names.insert name storage, consistent := f.consistent.insert name storage }

/-- Captures a name of the function around this one that is not known here. -/
def capture (f : FunctionScope) (name : String) (entry : Entry) (hnew : f.names.entries[name]? = none) : FunctionScope :=
  let storage := Storage.captured f.captures.length
  { f with
    names := f.names.insertOutside name storage
    captures := f.captures ++ [{ entry with name }]
    consistent := f.consistent.insertOutside hnew storage }

def openBlock (f : FunctionScope) : FunctionScope := { f with names := f.names.openBlock, consistent := f.consistent.openBlock }

def closeBlock (f : FunctionScope) : FunctionScope := { f with names := f.names.closeBlock, consistent := f.consistent.closeBlock }

end FunctionScope

/-- The function that code is generated for, and those around it, the nearest first. -/
structure SymbolScope where
  current : FunctionScope
  enclosing : List FunctionScope := []

namespace SymbolScope

/-- The top level, with the built-in functions. -/
def topLevel : SymbolScope :=
  ⟨(builtins.mapIdx fun index b => (b.name, Storage.builtin index)).foldl (fun f (name, storage) => f.insert name storage) {}, []⟩

def isTopLevel (s : SymbolScope) : Bool := s.enclosing.isEmpty

def depth (s : SymbolScope) : Nat := s.current.names.depth

def enter (s : SymbolScope) : SymbolScope := ⟨{}, s.current :: s.enclosing⟩

def leave? (s : SymbolScope) : Option (FunctionScope × SymbolScope) :=
  match s.enclosing with
  | [] => none
  | outer :: rest => some (s.current, ⟨outer, rest⟩)

def openBlock (s : SymbolScope) : SymbolScope := { s with current := s.current.openBlock }

def closeBlock (s : SymbolScope) : SymbolScope := { s with current := s.current.closeBlock }

/-- Introduces a name with a slot of its own. -/
def define (s : SymbolScope) (name : String) : Symbol × SymbolScope :=
  let slot := s.current.slots
  let storage := if s.isTopLevel then Storage.global slot else Storage.frame slot
  (⟨⟨storage, s.depth⟩, name⟩, { s with current := { s.current.insert name storage with slots := slot + 1 } })

/-- Lets a name stand for the current function. -/
def defineRunning (s : SymbolScope) (name : String) : Symbol × SymbolScope :=
  (⟨⟨.running, s.depth⟩, name⟩, { s with current := s.current.insert name .running })

/-- Looks a name up in a function or else in those around it, and captures it on the way. -/
def resolveFrom (name : String) (f : FunctionScope) : List FunctionScope → Option Entry × FunctionScope × List FunctionScope
  | [] => (f.names.entries[name]?, f, [])
  | outer :: rest =>
    match hfind : f.names.entries[name]? with
    | some entry => (some entry, f, outer :: rest)
    | none =>
      match resolveFrom name outer rest with
      | (none, outer, rest) => (none, f, outer :: rest)
      | (some entry, outer, rest) =>
        match entry.storage with
        | .global _ | .builtin _ => (some entry, f, outer :: rest)
        | .frame _ | .captured _ | .running =>
          (some ⟨.captured f.captures.length, 0⟩, f.capture name entry hfind, outer :: rest)

/-- Resolves a name in the current function or else in those around it. -/
def resolve (s : SymbolScope) (name : String) : Option Symbol × SymbolScope :=
  let (entry, current, enclosing) := resolveFrom name s.current s.enclosing
  (entry.map (⟨·, name⟩), ⟨current, enclosing⟩)

end SymbolScope

end MonkeyLang
