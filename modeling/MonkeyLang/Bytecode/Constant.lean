import MonkeyLang.Text.Quoted
import Std.Data.TreeMap
/-!
# Constants

The integers and strings that a program holds as literals. A pool keeps each of them once, in the order in which they
were first added, and finds the place of one it already has. Places are numbers of 32 bits: behind the last of them they
start again.
-/

namespace MonkeyLang

inductive Constant where
  | int (value : Int64)
  | string (value : String)
deriving DecidableEq, Repr

namespace Constant

/-- Integers are written in decimal and strings in quotes. -/
def text : Constant → String
  | int value => toString value
  | string value => Text.Quoted.encode value

/-- Integers in their order, and behind them strings in theirs. -/
protected def compare : Constant → Constant → Ordering
  | int a, int b => compare a b
  | int _, string _ => .lt
  | string _, int _ => .gt
  | string a, string b => compare a b

instance : Ord Constant := ⟨Constant.compare⟩

end Constant

/-- Constants, each of them once. -/
structure ConstantPool where
  /-- The constants in order. -/
  constants : Array Constant
  /-- The place of each constant. -/
  places : Std.TreeMap Constant Nat

namespace ConstantPool

def empty : ConstantPool := ⟨#[], ∅⟩

/-- The place of a constant, which is added at the end if the pool does not have it yet. -/
def add (p : ConstantPool) (c : Constant) : Nat × ConstantPool :=
  match p.places[c]? with
  | some place => (place, p)
  | none =>
    let place := p.constants.size.toUInt32.toNat
    (place, ⟨p.constants.push c, p.places.insert c place⟩)

def ofList (cs : List Constant) : ConstantPool :=
  cs.foldl (fun p c => (p.add c).2) empty

def get? (p : ConstantPool) (place : Nat) : Option Constant := p.constants[place]?

def toList (p : ConstantPool) : List Constant := p.constants.toList

def size (p : ConstantPool) : Nat := p.constants.size

end ConstantPool

end MonkeyLang
