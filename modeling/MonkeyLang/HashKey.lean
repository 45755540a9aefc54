import MonkeyLang.Span
/-!
# Key types of hash literals

The keys of a hash literal are all integers or all strings; anything else makes the literal complex, and complex it
stays. A literal may stand inside another one, so the literals that are open at a time form a stack, and what is observed
of keys goes to the innermost of them.
-/

namespace MonkeyLang

/-- What is known of the keys of a hash literal. -/
inductive KeyType where
  | unknown
  | integer
  | string
  | complex
deriving DecidableEq, Repr, Inhabited

def KeyType.refine : KeyType → KeyType → KeyType
  | unknown, observed => observed
  | current, observed => if current = observed then current else complex

/-- A hash literal that is open: where messages about it point, and what is known of its keys. -/
structure HashFrame where
  anchor : Option Span := none
  keys : KeyType := .unknown
deriving DecidableEq, Repr

/-- The hash literals that are open, innermost first. -/
structure HashTracker where
  frames : List HashFrame := []
deriving DecidableEq, Repr

namespace HashTracker

def empty : HashTracker := {}

def depth (t : HashTracker) : Nat := t.frames.length

def enter (t : HashTracker) : HashTracker := ⟨{} :: t.frames⟩

def modifyInnermost (t : HashTracker) (change : HashFrame → HashFrame) : HashTracker :=
  match t.frames with
  | [] => t
  | frame :: outer => ⟨change frame :: outer⟩

/-- Sets where messages about the innermost literal point. -/
def setAnchor (t : HashTracker) (span : Span) : HashTracker :=
  t.modifyInnermost fun frame => { frame with anchor := some span }

def observe (t : HashTracker) (key : KeyType) : HashTracker :=
  t.modifyInnermost fun frame => { frame with keys := frame.keys.refine key }

def anchor? (t : HashTracker) : Option Span := t.frames.head?.bind HashFrame.anchor

/-- What is known of the keys of the innermost literal. Outside of all literals the answer is the one that allows least. -/
def keyType (t : HashTracker) : KeyType :=
  match t.frames with
  | [] => .complex
  | frame :: _ => frame.keys

/-- Leaves the innermost literal, if there is one. -/
def leave? (t : HashTracker) : Option (HashFrame × HashTracker) :=
  match t.frames with
  | [] => none
  | frame :: outer => some (frame, ⟨outer⟩)

end HashTracker

end MonkeyLang
