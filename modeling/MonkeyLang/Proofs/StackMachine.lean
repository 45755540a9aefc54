import Mathlib.Logic.Relation
import MonkeyLang.Bytecode.Executable
import MonkeyLang.Proofs.Decoding
import MonkeyLang.Proofs.Evaluation
/-!
# The stack machine

What each instruction does to the stack, the globals and the place of the machine. A step reads the instruction at the
place of the machine, takes its operands from the stack and puts its result back. A step that is not possible is the end
of the run: behind the last instruction the run is complete, and anywhere else it fails.

What the instructions of function calls do is left open.
-/

namespace MonkeyLang

structure Stack (V : Type) where
  /-- The values on the stack, the top first. -/
  values : List V
  /-- The values that have been popped for good, in order. -/
  discarded : List V

variable {V : Type}

namespace Stack

def push (s : Stack V) (value : V) : Stack V := { s with values := value :: s.values }

def pop? (s : Stack V) : Option (V × Stack V) :=
  match s.values with
  | a :: rest => some (a, { s with values := rest })
  | [] => none

/-- Pops a value for good. -/
def discard? (s : Stack V) : Option (Stack V) :=
  match s.values with
  | a :: rest => some ⟨rest, s.discarded ++ [a]⟩
  | [] => none

/-- Pops an operand and pushes what an operation makes of it. -/
def transform? (s : Stack V) (operation : V → Option V) : Option (Stack V) :=
  match s.values with
  | a :: rest => (operation a).map fun value => { s with values := value :: rest }
  | [] => none

/-- Pops two operands and pushes what an operation makes of them, that pushed first being its first argument. -/
def combine? (s : Stack V) (operation : V → V → Option V) : Option (Stack V) :=
  match s.values with
  | b :: a :: rest => (operation a b).map fun value => { s with values := value :: rest }
  | _ => none

/-- Pops values and pushes what an operation makes of them, in the order in which they were pushed. -/
def collect? (s : Stack V) (count : Nat) (operation : List V → Option V) : Option (Stack V) :=
  if count ≤ s.values.length then
    (operation (s.values.take count).reverse).map fun value => { s with values := value :: s.values.drop count }
  else
    none

end Stack

def pairUp : List V → List (V × V)
  | key :: value :: rest => (key, value) :: pairUp rest
  | _ => []

structure MachineState (V : Type) where
  /-- The offset of the next instruction. -/
  place : Nat
  stack : Stack V
  globals : Nat → Option V

namespace MachineState

def initial : MachineState V := ⟨0, ⟨[], []⟩, fun _ => none⟩

def proceed (s : MachineState V) (place : Nat) (stack : Stack V) : MachineState V := { s with place, stack }

end MachineState

/-- The operations of a machine: those on values, and what the instructions of function calls do. -/
structure StackMachine (V : Type) extends Primitives V where
  calls : Opcode → List Nat → MachineState V → Option (MachineState V)

namespace StackMachine

variable (M : StackMachine V)

def execute (pool : ConstantPool) (op : Opcode) (operands : List Nat) (next : Nat) (s : MachineState V) :
    Option (MachineState V) :=
  match op, operands with
  | .constant, [place] => (pool.get? place).map fun c => s.proceed next (s.stack.push (M.constant c))
  | .pushTrue, [] => some (s.proceed next (s.stack.push (M.bool true)))
  | .pushFalse, [] => some (s.proceed next (s.stack.push (M.bool false)))
  | .pushNull, [] => some (s.proceed next (s.stack.push M.null))
  | .pop, [] => s.stack.discard?.map (s.proceed next)
  | .add, [] => (s.stack.combine? (M.binary .add)).map (s.proceed next)
  | .sub, [] => (s.stack.combine? (M.binary .sub)).map (s.proceed next)
  | .mul, [] => (s.stack.combine? (M.binary .mul)).map (s.proceed next)
  | .div, [] => (s.stack.combine? (M.binary .div)).map (s.proceed next)
  | .equal, [] => (s.stack.combine? (M.binary .equal)).map (s.proceed next)
  | .notEqual, [] => (s.stack.combine? (M.binary .notEqual)).map (s.proceed next)
  | .greaterThan, [] => (s.stack.combine? (M.binary .greater)).map (s.proceed next)
  | .lessThan, [] => (s.stack.combine? (M.binary .less)).map (s.proceed next)
  | .greaterEqual, [] => (s.stack.combine? (M.binary .greaterEqual)).map (s.proceed next)
  | .lessEqual, [] => (s.stack.combine? (M.binary .lessEqual)).map (s.proceed next)
  | .minus, [] => (s.stack.transform? (M.unary .neg)).map (s.proceed next)
  | .bang, [] => (s.stack.transform? (M.unary .not)).map (s.proceed next)
  | .jump, [target] => some { s with place := target }
  | .jumpIfFalse, [target] => do
    let (condition, stack) ← s.stack.pop?
    return s.proceed (if ← M.truth condition then next else target) stack
  | .getGlobal, [slot] => (s.globals slot).map fun value => s.proceed next (s.stack.push value)
  | .setGlobal, [slot] => do
    let (value, stack) ← s.stack.pop?
    return ⟨next, stack, fun n => if n = slot then some value else s.globals n⟩
  | .getBuiltin, [place] => some (s.proceed next (s.stack.push (M.builtin place)))
  | .array, [count] => (s.stack.collect? count M.array).map (s.proceed next)
  | .hash, [count] => (s.stack.collect? (2 * count) fun values => M.hash (pairUp values)).map (s.proceed next)
  | .index, [] => (s.stack.combine? M.index).map (s.proceed next)
  | .getLocal, _ | .setLocal, _ | .getFree, _ | .currentClosure, _ | .closure, _ | .call, _ | .returnValue, _
  | .returnNull, _ => M.calls op operands s
  | _, _ => none

section Execute

variable (pool : ConstantPool) (next : Nat) (s : MachineState V)

@[simp] theorem execute_constant (place : Nat) : M.execute pool .constant [place] next s =
    (pool.get? place).map fun c => s.proceed next (s.stack.push (M.constant c)) := rfl

@[simp] theorem execute_jump (target : Nat) : M.execute pool .jump [target] next s = some { s with place := target } := rfl

@[simp] theorem execute_jumpIfFalse (target : Nat) : M.execute pool .jumpIfFalse [target] next s =
    s.stack.pop?.bind fun r => (M.truth r.1).bind fun holds => some (s.proceed (if holds then next else target) r.2) := rfl

@[simp] theorem execute_getGlobal (slot : Nat) : M.execute pool .getGlobal [slot] next s =
    (s.globals slot).map fun value => s.proceed next (s.stack.push value) := rfl

@[simp] theorem execute_setGlobal (slot : Nat) : M.execute pool .setGlobal [slot] next s =
    s.stack.pop?.bind fun r => some ⟨next, r.2, fun n => if n = slot then some r.1 else s.globals n⟩ := rfl

@[simp] theorem execute_getBuiltin (place : Nat) : M.execute pool .getBuiltin [place] next s =
    some (s.proceed next (s.stack.push (M.builtin place))) := rfl

@[simp] theorem execute_array (count : Nat) : M.execute pool .array [count] next s =
    (s.stack.collect? count M.array).map (s.proceed next) := rfl

@[simp] theorem execute_hash (count : Nat) : M.execute pool .hash [count] next s =
    (s.stack.collect? (2 * count) fun values => M.hash (pairUp values)).map (s.proceed next) := rfl

end Execute

/-- One step, if there is an instruction that can be executed. -/
def step (exe : Executable) (s : MachineState V) : Option (MachineState V) := do
  let op ← exe.chunk.readOp? s.place
  let operands ← exe.chunk.readOperands? s.place
  M.execute exe.pool op operands (s.place + 1 + op.operandSize) s

/-- The machine comes from one state to another. -/
def Reaches (exe : Executable) : MachineState V → MachineState V → Prop :=
  Relation.ReflTransGen fun s s' => M.step exe s = some s'

/-- The machine comes to an instruction that cannot be executed. -/
def Fails (exe : Executable) (s : MachineState V) : Prop :=
  ∃ s', M.Reaches exe s s' ∧ s'.place < exe.chunk.size ∧ M.step exe s' = none

variable {M} {exe : Executable} {s s' : MachineState V}

theorem Reaches.fails (h : M.Reaches exe s s') (hfails : M.Fails exe s') : M.Fails exe s := by
  obtain ⟨last, hreaches, hplace, hstep⟩ := hfails
  exact ⟨last, h.trans hreaches, hplace, hstep⟩

/-- A step executes the instruction that is located at the place of the machine. -/
theorem step_eq {code : Code} {pool : ConstantPool} {i : Instruction}
    (hi : (s.place, i) ∈ located 0 code.toList) :
    M.step ⟨code.toChunk, pool⟩ s = M.execute pool i.opcode i.operands (s.place + i.size) s := by
  obtain ⟨hop, hoperands⟩ := read_toChunk hi
  simp only [step, hop, hoperands, Option.bind_eq_bind, Option.bind_some]
  rw [Nat.add_assoc]
  rfl

end StackMachine

end MonkeyLang
