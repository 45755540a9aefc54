import MonkeyLang.Bytecode.Disassembly
import MonkeyLang.Compilation
import MonkeyLang.Config
import MonkeyLang.Diagnostics
import MonkeyLang.ProgramRun
import MonkeyLang.Syntax.Outline
import MonkeyLang.Syntax.Parsing
import MonkeyLang.Text.Blank
import MonkeyLang.Text.Json
/-!
# The toolchain

Two requests: to compile a source and save the executable, and to run the executable that was saved last. What goes wrong
is part of the answer. Errors of the source come first: a source that does not read well is not analyzed, a program with
errors gets no code, and without code nothing is saved. The machine that runs executables is a program of its own, and how
it is launched is given from outside.
-/

namespace MonkeyLang

/-- What goes wrong around a compilation. -/
inductive ToolError where
  | file (path : String) (cause : FileError)
  | config (path message : String)
  | artifact (cause : ArtifactError)
  | launch (vm : String) (cause : FileError)
  | machineFailed (status errors : String)
deriving DecidableEq, Repr

def ToolError.message : ToolError → String
  | file path cause => s!"{path}: {cause.message}"
  | config path message => s!"invalid configuration in {path}: {message}"
  | artifact cause => cause.message
  | launch vm cause => s!"failed to launch {vm}: {cause.message}"
  | machineFailed status errors =>
    let errors := Text.trim errors
    if errors.isEmpty then status else s!"{status}: {errors}"

/-! ### Files -/

namespace Workspace

def readFile (w : Workspace) (path : String) : Except ToolError (List UInt8) :=
  (w.read path).mapError (.file path)

def readText (w : Workspace) (path : String) : Except ToolError String := do
  match Text.Utf8.decode (← w.readFile path) with
  | .ok text => return text
  | .error _ => throw (.file path .notText)

def writeFile (w : Workspace) (path : String) (bytes : List UInt8) : Except ToolError Workspace :=
  (w.write path bytes).mapError (.file path)

end Workspace

/-- Reads the configuration in a file, or takes the default if there is none, and applies environment variables. -/
def Config.load (w : Workspace) (path : Option String) (setting : String → Option String) : Except ToolError Config := do
  match path with
  | none => return override {} setting
  | some path =>
    let text ← w.readText path
    match ofToml text with
    | .ok config => return config.override setting
    | .error cause => throw (.config path cause.message)

/-! ### Compiling -/

structure CompileResponse where
  diagnostics : Diagnostics
  /-- The outline of the program, as far as it could be read. -/
  tree : Outline

def CompileResponse.isSuccess (r : CompileResponse) : Bool := !r.diagnostics.hasErrors

/-- Compiles a source and, if there are no errors, saves the executable in a store. A store that cannot be written to stays
as it is. -/
def compileSource {σ : Type} (options : AnalysisOptions) (save : List UInt8 → σ → Except ToolError σ) (source : String)
    (store : σ) : Except Imbalance (CompileResponse × σ) :=
  let reading := Program.read source
  let tree := Outline.ofProgram reading.program
  if reading.errors.isEmpty then do
    let compilation ← compile options reading.program
    let diagnostics := compilation.warnings.foldl (fun d warning => d.addWarning warning.message)
      (Diagnostics.ofCompilationErrors compilation.errors)
    match compilation.executable with
    | none => return (⟨diagnostics, tree⟩, store)
    | some executable =>
      match save executable.toBytes store with
      | .ok store => return (⟨diagnostics, tree⟩, store)
      | .error cause => return (⟨diagnostics.addUnlocated ("Failed to save file. " ++ cause.message), tree⟩, store)
  else
    return (⟨.ofParseErrors reading.errors, tree⟩, store)

namespace Toolchain

def save (config : Config) (bytes : List UInt8) (w : Workspace) : Except ToolError Workspace :=
  w.writeFile config.artifact bytes

def compile (config : Config) (source : String) (w : Workspace) : Except Imbalance (CompileResponse × Workspace) :=
  compileSource config.analysis (save config) source w

/-! ### Running -/

/-- Lets the machine run the executable that was saved, and gives what it writes. -/
def execute (launch : Launch) (config : Config) (w : Workspace) : Except ToolError String × Workspace :=
  match w.find config.artifact with
  | .error cause => (.error (.file config.artifact cause), w)
  | .ok _ =>
    match launch w config.vm [config.artifact] with
    | .error cause => (.error (.launch config.vm cause), w)
    | .ok (run, w) =>
      if run.status.isSuccess then (.ok (Text.Utf8.decodeLossy run.output), w)
      else (.error (.machineFailed run.status.text (Text.Utf8.decodeLossy run.errors)), w)

/-- The answer to a request to run, from what the machine wrote or from what went wrong. -/
def runText : Except ToolError String → String
  | .ok output => Text.trim output ++ "\n...finished"
  | .error (.file path cause) =>
    "Instructions code not found. Must compile first.\n" ++ Text.trim (ToolError.file path cause).message ++ "\n...failed"
  | .error cause => Text.trim cause.message ++ "\n...failed"

def run (launch : Launch) (config : Config) (w : Workspace) : String × Workspace :=
  let (outcome, w) := execute launch config w
  (runText outcome, w)

/-- The code of the executable that was saved, as text. -/
def disassemble (config : Config) (w : Workspace) : Except ToolError String := do
  let bytes ← w.readFile config.artifact
  match Executable.ofBytes bytes with
  | .ok executable => return executable.disassemble
  | .error cause => throw (.artifact cause)

end Toolchain

/-! ### Answers as JSON -/

mutual

def Outline.toJson : Outline → Json
  | .node label children => .object [("label", .string label), ("children", .array (Outline.toJsonList children))]

def Outline.toJsonList : List Outline → List Json
  | [] => []
  | outline :: rest => outline.toJson :: Outline.toJsonList rest

end

/-- The answer as JSON. Warnings are left out if there are none. -/
def CompileResponse.toJson (r : CompileResponse) : Json :=
  let warnings := r.diagnostics.warnings.toList.map Json.string
  .object ([("errors", .array (r.diagnostics.errors.toList.map Json.string)),
    ("lines", .array (r.diagnostics.lines.toList.map Json.number)), ("tree", r.tree.toJson)] ++
    if warnings.isEmpty then [] else [("warnings", .array warnings)])

end MonkeyLang
