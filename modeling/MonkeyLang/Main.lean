import MonkeyLang.CommandLine
import MonkeyLang.Host.Machine
/-!
# The program

Brings the files that a command line is about into a workspace, runs the command line there, and puts the executable
that it saves back.
-/

open MonkeyLang

/-- Brings what is at a path into a workspace. A script may be run. -/
def bringPath (w : Workspace) (path : String) : IO Workspace := do
  try
    let bytes := (← IO.FS.readBinFile path).data.toList
    match w.write path bytes with
    | .ok w => return if bytes.take 2 = [0x23, 0x21] then (w.allowRunning path).toOption.getD w else w
    | .error _ => return w
  catch e =>
    match e with
    | .inappropriateType .. => return w.makeDirectory path
    | _ => return w

/-- Brings what is at a path into a workspace, with the directories that lead there. -/
def bring (w : Workspace) (path : String) : IO Workspace := do
  let parts := Workspace.parts path
  let first := if path.startsWith "/" then "/" else ""
  (List.range parts.length).foldlM (fun w n => bringPath w (first ++ "/".intercalate (parts.take (n + 1)))) w

def bringFiles (setting : String → Option String) : CommandLine.Request → IO Workspace
  | .version | .help => return .empty
  | .invoke path _ command => do
    let w ← match path with
      | some path => bring .empty path
      | none => pure .empty
    let w ← match command with
      | .compile file => bring w file
      | .run | .disasm => pure w
    match Config.load w path setting with
    | .ok config => bring (← bring w config.artifact) config.vm
    | .error _ => return w

def putBack (before after : Workspace) : IO Unit :=
  for (names, node) in after.nodes do
    match node with
    | .file bytes _ =>
      if before.node? names ≠ some node then IO.FS.writeBinFile (Workspace.pathOf names) ⟨bytes.toArray⟩
    | _ => pure ()

def main (args : List String) : IO UInt32 := do
  let artifact ← IO.getEnv "MONKEY_ARTIFACT"
  let vm ← IO.getEnv "MONKEY_VM"
  let setting := fun name => if name = "MONKEY_ARTIFACT" then artifact else if name = "MONKEY_VM" then vm else none
  let before ← match CommandLine.request? args with
    | some request => bringFiles setting request
    | none => pure .empty
  match CommandLine.run Host.launch args setting before with
  | .error imbalance =>
    IO.eprintln imbalance.message
    return 1
  | .ok (outcome, after) =>
    putBack before after
    IO.print outcome.output
    IO.eprint outcome.complaint
    return outcome.exitCode.toUInt32
