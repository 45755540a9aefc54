/-!
# Built-in functions

The functions that every program may use without declaring them. The place of a function in the list is the number the
machine knows it by.
-/

namespace MonkeyLang

structure Builtin where
  name : String
  arity : Nat
deriving DecidableEq, Repr

/-- All built-in functions, in the machine's order. -/
def builtins : List Builtin :=
  [⟨"len", 1⟩, ⟨"puts", 1⟩, ⟨"first", 1⟩, ⟨"last", 1⟩, ⟨"rest", 1⟩, ⟨"push", 2⟩]

end MonkeyLang
