import MonkeyLang.Token
/-!
# Operators

Binary operators come in three levels, from the loosest to the tightest: comparisons, sums and products. Operators of
one level in a row form a chain, which is read from the left. The two unary operators bind tighter than all of these.
-/

namespace MonkeyLang

/-- How tightly a binary operator binds. -/
inductive ChainLevel where
  | comparison
  | addition
  | multiplication
deriving DecidableEq, Repr

def ChainLevel.tighter? : ChainLevel → Option ChainLevel
  | comparison => some addition
  | addition => some multiplication
  | multiplication => none

inductive BinaryOp where
  | less
  | greater
  | lessEqual
  | greaterEqual
  | equal
  | notEqual
  | add
  | sub
  | mul
  | div
deriving DecidableEq, Repr

namespace BinaryOp

def level : BinaryOp → ChainLevel
  | less | greater | lessEqual | greaterEqual | equal | notEqual => .comparison
  | add | sub => .addition
  | mul | div => .multiplication

def tokenKind : BinaryOp → TokenKind
  | less => .less
  | greater => .greater
  | lessEqual => .lessEqual
  | greaterEqual => .greaterEqual
  | equal => .equalEqual
  | notEqual => .bangEqual
  | add => .plus
  | sub => .minus
  | mul => .star
  | div => .slash

def ofTokenKind? : TokenKind → Option BinaryOp
  | .less => some less
  | .greater => some greater
  | .lessEqual => some lessEqual
  | .greaterEqual => some greaterEqual
  | .equalEqual => some equal
  | .bangEqual => some notEqual
  | .plus => some add
  | .minus => some sub
  | .star => some mul
  | .slash => some div
  | _ => none

def spelling (op : BinaryOp) : String := op.tokenKind.spelling?.getD ""

@[simp] theorem ofTokenKind?_eq_some_iff {kind : TokenKind} {op : BinaryOp} :
    ofTokenKind? kind = some op ↔ op.tokenKind = kind := by
  cases kind <;> cases op <;> decide

end BinaryOp

inductive UnaryOp where
  | neg
  | not
deriving DecidableEq, Repr

namespace UnaryOp

def tokenKind : UnaryOp → TokenKind
  | neg => .minus
  | not => .bang

def ofTokenKind? : TokenKind → Option UnaryOp
  | .minus => some neg
  | .bang => some not
  | _ => none

def spelling (op : UnaryOp) : String := op.tokenKind.spelling?.getD ""

@[simp] theorem ofTokenKind?_eq_some_iff {kind : TokenKind} {op : UnaryOp} :
    ofTokenKind? kind = some op ↔ op.tokenKind = kind := by
  cases kind <;> cases op <;> decide

end UnaryOp

end MonkeyLang
