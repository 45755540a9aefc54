import MonkeyLang.ProgramRun
import MonkeyLang.Text.Utf8
/-!
# Systems

What the programs of a host run in: a workspace, and the channels that they read from and write to. A program knows channels
by numbers, its descriptors, and several descriptors may lead to one channel. What is read from a channel is gone from it
for all of them.
-/

namespace MonkeyLang.Host

inductive Channel where
  /-- What has been written and not been read yet. -/
  | pipe (bytes : ByteArray)
  /-- A file, with the number of bytes in front of the place where it is read and written. -/
  | file (names : List String) (offset : Nat) (appends : Bool)
  | directory
  | sink

/-- The channels that descriptors lead to. -/
abbrev Descriptors := List (Nat × Nat)

structure System where
  workspace : Workspace
  channels : Array Channel := #[]

inductive Access where
  | read
  /-- To write it anew. -/
  | write
  | append
deriving DecidableEq, Repr

namespace System

/-! ### Channels -/

def add (s : System) (channel : Channel) : Nat × System :=
  (s.channels.size, { s with channels := s.channels.push channel })

def contents (s : System) (names : List String) : List UInt8 :=
  match s.workspace.node? names with
  | some (.file bytes _) => bytes
  | some (.program _) => Workspace.programBytes
  | _ => []

def setContents (s : System) (names : List String) (bytes : List UInt8) : System :=
  match s.workspace.node? names with
  | some (.file _ executable) => { s with workspace := s.workspace.setNode names (.file bytes executable) }
  | _ => s

def peek (s : System) (channel : Nat) : List UInt8 :=
  match s.channels[channel]? with
  | some (.pipe bytes) => bytes.data.toList
  | some (.file names offset _) => (s.contents names).drop offset
  | _ => []

def skip (s : System) (channel count : Nat) : System :=
  match s.channels[channel]? with
  | some (.pipe bytes) =>
    { s with channels := s.channels.set! channel (.pipe (bytes.extract count bytes.size)) }
  | some (.file names offset appends) =>
    { s with channels := s.channels.set! channel (.file names (offset + count) appends) }
  | _ => s

def put (s : System) (channel : Nat) (bytes : List UInt8) : System :=
  match s.channels[channel]? with
  | some (.pipe before) => { s with channels := s.channels.set! channel (.pipe (before ++ bytes.toByteArray)) }
  | some (.file names offset appends) =>
    let before := s.contents names
    let offset := if appends then before.length else offset
    let padding := List.replicate (offset - before.length) 0
    let after := before.take offset ++ padding ++ bytes ++ before.drop (offset + bytes.length)
    let s := s.setContents names after
    { s with channels := s.channels.set! channel (.file names (offset + bytes.length) appends) }
  | _ => s

/-! ### Files -/

/-- A channel to the file at a path, which is made if it is to be written and is not there. -/
def openFile (s : System) (access : Access) (path : String) : Except FileError (Nat × System) := do
  match access with
  | .read =>
    match ← s.workspace.locate path with
    | .found _ .directory => return s.add .directory
    | .found names node =>
      if path.endsWith "/" then throw .notDirectory
      else return s.add (if node = .sink then .sink else .file names 0 false)
    | .free _ => throw .notFound
  | _ =>
    let before := if access = .write then [] else (s.workspace.read path).toOption.getD []
    let s := { s with workspace := ← s.workspace.write path before }
    match ← s.workspace.locate path with
    | .found names node => return s.add (if node = .sink then .sink else .file names 0 (access = .append))
    | .free _ => throw .notFound

/-- A channel to what is at a path. Three paths stand for descriptors. -/
def openPath (s : System) (descriptors : Descriptors) (access : Access) (path : String) : Except FileError (Nat × System) :=
  match ["/dev/stdin", "/dev/stdout", "/dev/stderr"].idxOf? path with
  | some descriptor =>
    match descriptors.lookup descriptor with
    | some channel => .ok (channel, s)
    | none => .error .notFound
  | none => s.openFile access path

end System

/-! ### Processes -/

structure Process where
  /-- What it is called by. -/
  name : String
  args : List String
  environment : List (String × String) := []
  descriptors : Descriptors

abbrev Job := StateM System

abbrev Launcher := System → String → Process → Except FileError (System × ExitStatus)

namespace Process

/-- Writes bytes to a descriptor, if it leads anywhere. -/
def put (p : Process) (descriptor : Nat) (bytes : List UInt8) : Job Unit :=
  match p.descriptors.lookup descriptor with
  | some channel => modify (·.put channel bytes)
  | none => return

def has (p : Process) (descriptor : Nat) : Bool := (p.descriptors.lookup descriptor).isSome

/-- Writes a complaint behind the name of the program. -/
def complain (p : Process) (complaint : String) : Job Unit := p.put 2 (Text.Utf8.encode s!"{p.name}: {complaint}\n")

def readChannel (channel : Nat) : Job (Except FileError (List UInt8)) := do
  let s ← get
  match s.channels[channel]? with
  | some .directory => return .error .isDirectory
  | _ =>
    let bytes := s.peek channel
    set (s.skip channel bytes.length)
    return .ok bytes

def openFile (p : Process) (path : String) : Job (Except FileError Nat) := do
  match (← get).openPath p.descriptors .read path with
  | .ok (channel, s) =>
    set s
    return .ok channel
  | .error cause => return .error cause

end Process

end MonkeyLang.Host
