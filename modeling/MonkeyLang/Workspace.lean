/-!
# Workspaces

The files and directories that the tools work on, as a value. The parts of a path are separated by slashes, a single dot
stands for the directory it is in, and two dots for the one around it. A path that starts with a slash leads away from the
root directory, any other from the working directory, which is two levels below the root. No path spells the name of the
working directory or of the directory around it, so that only dots lead there.

Some directories and programs are there from the start. The working directory is one of them, and it is empty.
-/

namespace MonkeyLang

/-- Why something cannot be done with a file. -/
inductive FileError where
  | notFound
  | wrongFormat
  | badDescriptor
  | permissionDenied
  | notDirectory
  | isDirectory
  | nameTooLong
  | tooManyLevels
  | notText
  | nulInPath
  | nulInProgram
deriving DecidableEq, Repr

def FileError.reason : FileError → String
  | notFound => "No such file or directory"
  | wrongFormat => "Exec format error"
  | badDescriptor => "Bad file descriptor"
  | permissionDenied => "Permission denied"
  | notDirectory => "Not a directory"
  | isDirectory => "Is a directory"
  | nameTooLong => "File name too long"
  | tooManyLevels => "Too many levels of symbolic links"
  | notText => "stream did not contain valid UTF-8"
  | nulInPath => "file name contained an unexpected NUL byte"
  | nulInProgram => "nul byte found in provided data"

/-- The number of the cause, if the operating system has one for it. -/
def FileError.number? : FileError → Option Nat
  | notFound => some 2
  | wrongFormat => some 8
  | badDescriptor => some 9
  | permissionDenied => some 13
  | notDirectory => some 20
  | isDirectory => some 21
  | nameTooLong => some 36
  | tooManyLevels => some 40
  | notText | nulInPath | nulInProgram => none

def FileError.message (e : FileError) : String :=
  match e.number? with
  | some number => s!"{e.reason} (os error {number})"
  | none => e.reason

inductive FileNode where
  | file (bytes : List UInt8) (executable : Bool)
  | directory
  /-- A file that stays empty, whatever is written to it. -/
  | sink
  /-- A program that is always there. -/
  | program (name : String)
deriving DecidableEq, Repr

/-- The names that lead to the working directory. -/
def Workspace.home : List String := ["..", "."]

structure Workspace where
  /-- What there is, by the names that lead to it from the root directory. -/
  nodes : List (List String × FileNode) := []

namespace Workspace

def empty : Workspace := {}

def standardDirectories : List (List String) :=
  [[], home.dropLast, home, ["bin"], ["boot"], ["dev"], ["etc"], ["home"], ["lib"], ["media"], ["mnt"], ["opt"], ["proc"],
    ["root"], ["run"], ["sbin"], ["srv"], ["sys"], ["tmp"], ["usr"], ["usr", "bin"], ["usr", "lib"], ["usr", "local"],
    ["usr", "local", "bin"], ["usr", "local", "sbin"], ["usr", "sbin"], ["usr", "share"], ["var"], ["var", "tmp"]]

def standardPrograms : List String := ["bash", "cat", "dash", "echo", "env", "false", "sh", "sleep", "true"]

/-- What names lead to in every workspace. -/
def standardNode? (names : List String) : Option FileNode :=
  if names ∈ standardDirectories then some .directory
  else
    match names with
    | ["dev", "null"] => some .sink
    | ["bin", name] | ["usr", "bin", name] => if name ∈ standardPrograms then some (.program name) else none
    | _ => none

def node? (w : Workspace) (names : List String) : Option FileNode := (standardNode? names).or (w.nodes.lookup names)

def setNode (w : Workspace) (names : List String) (node : FileNode) : Workspace :=
  { w with nodes := (names, node) :: w.nodes.filter fun entry => entry.1 ≠ names }

/-! ### Paths -/

/-- The parts of a path between its slashes. -/
def parts (path : String) : List String := (path.splitOn "/").filter (· ≠ "")

def start (path : String) : List String := if path.startsWith "/" then [] else home

/-- A path that names lie on, from the working directory or from the one around it if they lie there. -/
def pathOf : List String → String
  | ".." :: "." :: names => "/".intercalate ("." :: names)
  | ".." :: names => "/".intercalate (".." :: names)
  | names => "/" ++ "/".intercalate names

inductive Place where
  | found (names : List String) (node : FileNode)
  /-- A name that is free in a directory. -/
  | free (names : List String)
deriving DecidableEq, Repr

/-- Follows the parts of a path from a directory on. The directory around the root is the root. -/
def follow (w : Workspace) (names : List String) : List String → Except FileError Place
  | [] => .ok (.found names .directory)
  | part :: rest =>
    if part = "." then w.follow names rest
    else if part = ".." then w.follow names.dropLast rest
    else if 255 < part.utf8ByteSize then .error .nameTooLong
    else
      match w.node? (names ++ [part]) with
      | some .directory => w.follow (names ++ [part]) rest
      | some node => if rest.isEmpty then .ok (.found (names ++ [part]) node) else .error .notDirectory
      | none => if rest.isEmpty then .ok (.free (names ++ [part])) else .error .notFound

def locate (w : Workspace) (path : String) : Except FileError Place :=
  if path.contains '\x00' then .error .nulInPath
  else if path.isEmpty then .error .notFound
  else if 4096 ≤ path.utf8ByteSize then .error .nameTooLong
  else w.follow (start path) (parts path)

/-- The node at a path. A path that ends with a slash leads to a directory only. -/
def find (w : Workspace) (path : String) : Except FileError FileNode := do
  match ← w.locate path with
  | .found _ .directory => return .directory
  | .found _ node => if path.endsWith "/" then throw .notDirectory else return node
  | .free _ => throw .notFound

/-! ### Files -/

/-- What a program looks like when it is read: it starts with four fixed bytes, and is no text. -/
def programBytes : List UInt8 := [0x7F, 0x45, 0x4C, 0x46, 0xFF]

def read (w : Workspace) (path : String) : Except FileError (List UInt8) := do
  match ← w.find path with
  | .file bytes _ => return bytes
  | .sink => return []
  | .program _ => return programBytes
  | .directory => throw .isDirectory

/-- Writes a file, which is made if it is not there. -/
def write (w : Workspace) (path : String) (bytes : List UInt8) : Except FileError Workspace := do
  match ← w.locate path with
  | .found _ .directory => throw .isDirectory
  | .found names node =>
    if path.endsWith "/" then throw .isDirectory
    else
      match node with
      | .file _ executable => return w.setNode names (.file bytes executable)
      | .program _ => throw .permissionDenied
      | .sink | .directory => return w
  | .free names => if path.endsWith "/" then throw .isDirectory else return w.setNode names (.file bytes false)

def allowRunning (w : Workspace) (path : String) : Except FileError Workspace := do
  match ← w.locate path with
  | .found names (.file bytes _) => return w.setNode names (.file bytes true)
  | .found _ _ => return w
  | .free _ => throw .notFound

/-- The program at a path, which has to be one that may be run. -/
def runnable (w : Workspace) (path : String) : Except FileError FileNode := do
  match ← w.find path with
  | .file bytes true => return .file bytes true
  | .program name => return .program name
  | .file _ false | .directory | .sink => throw .permissionDenied

/-- Makes the directories that parts of a path name, as far as they are not there. -/
def makeParts (w : Workspace) (names : List String) : List String → Workspace
  | [] => w
  | part :: rest =>
    if part = "." then w.makeParts names rest
    else if part = ".." then w.makeParts names.dropLast rest
    else
      let names := names ++ [part]
      match w.node? names with
      | none => (w.setNode names .directory).makeParts names rest
      | some .directory => w.makeParts names rest
      | some _ => w

def makeDirectory (w : Workspace) (path : String) : Workspace := w.makeParts (start path) (parts path)

/-- Removes a file, or a directory with all that is in it. -/
def remove (w : Workspace) (path : String) : Workspace :=
  match w.locate path with
  | .ok (.found names _) => { w with nodes := w.nodes.filter fun entry => !names.isPrefixOf entry.1 }
  | _ => w

end Workspace

end MonkeyLang
