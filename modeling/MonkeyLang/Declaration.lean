import MonkeyLang.Builtin
import MonkeyLang.CompilationError
import MonkeyLang.HashKey
import Std.Data.TreeMap
/-!
# Declarations and their scopes

A declaration says what a name is bound to, as far as that is known, and whether the name is ever used. The table keeps
all declarations of a program in the order they were made, and the open scopes, innermost first, each a map from names to
places in that order. The outermost scope starts out with the built-in functions, which count as used, and never closes.
-/

namespace MonkeyLang

inductive Binding where
  /-- A function parameter, of which nothing is known. -/
  | parameter
  /-- A value of a kind that is not tracked. -/
  | value
  | function (arity : Nat)
  | hash (keys : KeyType)
  | array (size : Nat)
deriving DecidableEq, Repr

namespace Binding

def describe : Binding → String
  | parameter => "a parameter"
  | value => "a value"
  | function _ => "a function"
  | hash _ => NonFunction.hash.describe
  | array _ => NonFunction.array.describe

def arity? : Binding → Option Nat
  | function arity => some arity
  | _ => none

/-- What another name for a thing bound like this is bound to. -/
def copied : Binding → Binding
  | parameter => value
  | binding => binding

end Binding

structure Declaration where
  name : String
  binding : Binding
  span : Span
  used : Bool := false
deriving DecidableEq, Repr

/-- The names declared in one scope, with the places of their declarations. -/
abbrev NameScope := Std.TreeMap String Nat

structure DeclarationTable where
  /-- Every declaration made so far, in order. -/
  declarations : Array Declaration
  /-- The scopes open inside the outermost one, innermost first. -/
  inner : List NameScope
  outermost : NameScope

namespace DeclarationTable

def scopes (t : DeclarationTable) : List NameScope := t.inner ++ [t.outermost]

def innermost (t : DeclarationTable) : NameScope := t.inner.headD t.outermost

def depth (t : DeclarationTable) : Nat := t.inner.length + 1

def openScope (t : DeclarationTable) : DeclarationTable := { t with inner := ∅ :: t.inner }

/-- Closes the innermost scope, unless it is the outermost one. -/
def closeScope? (t : DeclarationTable) : Option DeclarationTable :=
  match t.inner with
  | [] => none
  | _ :: outer => some { t with inner := outer }

def add (t : DeclarationTable) (d : Declaration) : DeclarationTable :=
  let place := t.declarations.size
  match t.inner with
  | [] => { t with declarations := t.declarations.push d, outermost := t.outermost.insert d.name place }
  | scope :: outer =>
    { t with declarations := t.declarations.push d, inner := scope.insert d.name place :: outer }

def initial : DeclarationTable :=
  builtins.foldl (fun t b => t.add ⟨b.name, .function b.arity, default, true⟩) ⟨#[], [], ∅⟩

/-- The place of the visible declaration of a name, innermost scope first. -/
def place? (t : DeclarationTable) (name : String) : Option Nat :=
  t.scopes.findSome? fun scope => scope[name]?

def find? (t : DeclarationTable) (name : String) : Option Declaration :=
  (t.place? name).bind fun place => t.declarations[place]?

def lookup (t : DeclarationTable) (name : String) (span : Span) : Except CompilationError Declaration :=
  match t.find? name with
  | some d => .ok d
  | none => .error (.undeclared name span)

/-- Declares a name in the innermost scope, unless it is declared there already. -/
def declare (t : DeclarationTable) (name : String) (binding : Binding) (span : Span) :
    Except CompilationError Declaration × DeclarationTable :=
  match t.innermost[name]?.bind fun place => t.declarations[place]? with
  | some first => (.error (.redeclared name first.span span), t)
  | none =>
    let d : Declaration := ⟨name, binding, span, false⟩
    (.ok d, t.add d)

/-- Marks the visible declaration of a name as used. -/
def markUsed (t : DeclarationTable) (name : String) : DeclarationTable :=
  match t.place? name with
  | some place => { t with declarations := t.declarations.modify place fun d => { d with used := true } }
  | none => t

/-- The declarations never used, in order. -/
def unused (t : DeclarationTable) : List Declaration :=
  t.declarations.toList.filter fun d => !d.used

end DeclarationTable

end MonkeyLang
