import MonkeyLang.Proofs.ExecutableSize
import MonkeyLang.Proofs.Responses
/-!
# What requests leave behind

Requests to compile are served one after the other and share one artifact, a file that may not be there yet. Saving is the last
thing that a request does, and it does so only for an executable; an answer without an error means that saving went well. Since
an executable that is saved can be read back, the artifact is at all times what the last successful request compiled, whatever
was in the file at first and whatever other requests have failed meanwhile.
-/

namespace MonkeyLang

/-- The bytes of a file, if it is there. -/
abbrev Artifact := Option (List UInt8)

/-- Reading an artifact gives the code and the constants of an executable. -/
def Artifact.Holds (artifact : Artifact) (executable : Executable) : Prop :=
  ∃ bytes stored, artifact = some bytes ∧ Executable.ofBytes bytes = .ok stored ∧
    stored.chunk.code = executable.chunk.code ∧ stored.pool.toList = executable.pool.toList

/-! ### Requests -/

/-- A request to compile a source, and what keeps its bytes from being written over an artifact. -/
structure CompileRequest where
  options : AnalysisOptions
  source : String
  obstacle : List UInt8 → Artifact → Option ToolError

namespace CompileRequest

/-- Writing replaces an artifact as a whole, or fails. -/
def write (request : CompileRequest) (bytes : List UInt8) (artifact : Artifact) : Except ToolError Artifact :=
  match request.obstacle bytes artifact with
  | none => .ok (some bytes)
  | some cause => .error cause

/-- The answer to a request, and the artifact it leaves. Positions that do not fit 32 bits end a request without an answer while
its source is being read. -/
def serve (request : CompileRequest) (artifact : Artifact) : Option CompileResponse × Artifact :=
  if (Program.read request.source).fits then
    match compileSource request.options request.write request.source artifact with
    | .ok (response, artifact) => (some response, artifact)
    | .error _ => (none, artifact)
  else
    (none, artifact)

/-- The source can be read, and compiling what is read gives an executable. -/
def Compiles (request : CompileRequest) (executable : Executable) : Prop :=
  ∃ program warnings, Program.parse request.source = .ok program ∧
    compile request.options program = .ok ⟨some executable, [], warnings⟩

/-- The source has an error of syntax or of meaning, or there is no code for it. -/
inductive Rejected (request : CompileRequest) : Prop
  | syntactic {errors} (hparse : Program.parse request.source = .error errors)
  | semantic {program analysis} (hparse : Program.parse request.source = .ok program)
      (hanalyze : analyze request.options program = .ok analysis) (herrors : analysis.errors ≠ [])
  | internal {program analysis cause} (hparse : Program.parse request.source = .ok program)
      (hanalyze : analyze request.options program = .ok analysis) (herrors : analysis.errors = [])
      (hgenerate : generate program = .error cause)

variable {request : CompileRequest} {executable executable' : Executable}

theorem Compiles.unique (h : request.Compiles executable) (h' : request.Compiles executable') : executable = executable' := by
  obtain ⟨program, warnings, hparse, hcompile⟩ := h
  obtain ⟨program', warnings', hparse', hcompile'⟩ := h'
  cases hparse.symm.trans hparse'
  cases hcompile.symm.trans hcompile'
  rfl

theorem Rejected.not_compiles (h : request.Rejected) : ¬ request.Compiles executable := by
  rintro ⟨program, warnings, hparse, hcompile⟩
  cases h with
  | syntactic hparse' => cases hparse.symm.trans hparse'
  | semantic hparse' hanalyze herrors =>
    cases hparse.symm.trans hparse'
    cases hcompile.symm.trans (compile_of_errors hanalyze herrors)
  | internal hparse' hanalyze herrors hgenerate =>
    cases hparse.symm.trans hparse'
    cases hcompile.symm.trans (compile_of_generate_error hanalyze herrors hgenerate)

/-- A request that is rejected is answered without a look at the store, whatever the store is. -/
theorem Rejected.exists_answer (h : request.Rejected) : ∃ response : CompileResponse,
    ∀ {σ : Type} (save : List UInt8 → σ → Except ToolError σ) (store : σ),
      compileSource request.options save request.source store = .ok (response, store) := by
  cases h with
  | syntactic hparse => exact ⟨_, fun save store => compileSource_of_parse_error save store hparse⟩
  | semantic hparse hanalyze herrors =>
    exact ⟨_, fun save store => compileSource_of_none save store hparse (compile_of_errors hanalyze herrors)⟩
  | internal hparse hanalyze herrors hgenerate =>
    have hcompile := compile_of_generate_error hanalyze herrors hgenerate
    exact ⟨_, fun save store => compileSource_of_none save store hparse hcompile⟩

theorem write_eq_ok {bytes : List UInt8} {artifact artifact' : Artifact} :
    request.write bytes artifact = .ok artifact' ↔ request.obstacle bytes artifact = none ∧ artifact' = some bytes := by
  unfold write
  cases request.obstacle bytes artifact with
  | none => simp [eq_comm]
  | some cause => simp

end CompileRequest

/-! ### Answers -/

def succeeded (answer : Option CompileResponse) : Bool := answer.any CompileResponse.isSuccess

theorem CompileResponse.isSuccess_iff {response : CompileResponse} {findings : List Finding}
    (h : response.diagnostics.Lists findings) : response.isSuccess ↔ findings = [] := by
  have herrors : response.diagnostics.errors = #[] ↔ findings = [] := by
    rw [← Array.toList_eq_nil_iff, h.errors, List.map_eq_nil_iff]
  rw [← herrors]
  simp [CompileResponse.isSuccess, Diagnostics.hasErrors]

namespace CompileRequest

structure Served (request : CompileRequest) (before : Artifact) (answer : Option CompileResponse) (after : Artifact) :
    Prop where
  answered : answer.isSome = (Program.read request.source).fits
  /-- There is no error if there is an executable and nothing keeps it from being written, and only then. -/
  success : succeeded answer ↔ (Program.read request.source).fits ∧ ∃ executable, request.Compiles executable ∧
    request.obstacle executable.toBytes before = none
  kept : succeeded answer = false → after = before
  holds : succeeded answer → ∃ executable, request.Compiles executable ∧ after.Holds executable
  /-- A request that is rejected is answered in the same way in every store, and the store is never written to. -/
  unwritten : request.Rejected → ∀ response, answer = some response →
    ∀ {σ : Type} (save : List UInt8 → σ → Except ToolError σ) (store : σ),
      compileSource request.options save request.source store = .ok (response, store)

variable {request : CompileRequest} {executable : Executable}

theorem Compiles.exists_generate (h : request.Compiles executable) :
    ∃ program, Program.parse request.source = .ok program ∧ generate program = .ok executable := by
  obtain ⟨program, warnings, hparse, hcompile⟩ := h
  obtain ⟨analysis, hanalyze, -⟩ := exists_analyze_onLine hparse request.options
  refine ⟨program, hparse, ?_⟩
  by_cases herrors : analysis.errors = []
  · cases hgenerate : generate program with
    | error cause => cases hcompile.symm.trans (compile_of_generate_error hanalyze herrors hgenerate)
    | ok executable' =>
      cases hcompile.symm.trans (compile_of_generate hanalyze herrors hgenerate)
      rfl
  · cases hcompile.symm.trans (compile_of_errors hanalyze herrors)

/-- What a request writes can be read back. -/
theorem Compiles.holds (h : request.Compiles executable) (hfits : (Program.read request.source).fits) :
    Artifact.Holds (some executable.toBytes) executable := by
  obtain ⟨program, hparse, hgenerate⟩ := h.exists_generate
  have hsize := Program.size_lt_of_fits hfits
  have hread := ofBytes_toBytes_of_parse (Nat.lt_of_succ_lt hsize) hparse hgenerate
  exact ⟨_, _, rfl, hread, rfl, rfl⟩

theorem Rejected.served {artifact : Artifact} {response : CompileResponse} (h : request.Rejected)
    (hfits : (Program.read request.source).fits = true) (herrors : succeeded (some response) = false)
    (hanswer : compileSource request.options request.write request.source artifact = .ok (response, artifact)) :
    request.Served artifact (some response) artifact where
  answered := hfits.symm
  success := by
    rw [herrors]
    refine ⟨nofun, ?_⟩
    rintro ⟨-, executable, hcompiles, -⟩
    exact absurd hcompiles h.not_compiles
  kept _ := rfl
  holds hsuccess := absurd hsuccess (Bool.eq_false_iff.mp herrors)
  unwritten := by
    rintro - _ ⟨⟩ σ save store
    obtain ⟨response', hresponse⟩ := h.exists_answer
    cases hanswer.symm.trans (hresponse request.write artifact)
    exact hresponse save store

theorem Compiles.served {artifact artifact' : Artifact} {response : CompileResponse} (h : request.Compiles executable)
    (hfits : (Program.read request.source).fits = true)
    (hsuccess : succeeded (some response) ↔ request.obstacle executable.toBytes artifact = none)
    (hkept : succeeded (some response) = false → artifact' = artifact)
    (hwritten : succeeded (some response) → artifact' = some executable.toBytes) :
    request.Served artifact (some response) artifact' where
  answered := hfits.symm
  success := by
    refine ⟨fun hok => ⟨hfits, executable, h, hsuccess.mp hok⟩, ?_⟩
    rintro ⟨-, executable', h', hnone⟩
    rw [← h.unique h'] at hnone
    exact hsuccess.mpr hnone
  kept := hkept
  holds hok := ⟨executable, h, hwritten hok ▸ h.holds hfits⟩
  unwritten hrejected := absurd h hrejected.not_compiles

/-- Whatever the artifact is, that is what serving a request comes to. -/
theorem served (request : CompileRequest) (artifact : Artifact) :
    request.Served artifact (request.serve artifact).1 (request.serve artifact).2 := by
  cases hfits : (Program.read request.source).fits with
  | false =>
    have hserve : request.serve artifact = (none, artifact) := if_neg (Bool.eq_false_iff.mp hfits)
    rw [hserve]
    refine ⟨hfits.symm, by simp [succeeded, hfits], fun _ => rfl, nofun, ?_⟩
    rintro - _ ⟨⟩
  | true =>
    obtain ⟨response, artifact', findings, hanswer, houtcome, hlists⟩ :=
      exists_outcome request.options request.write request.source artifact
    have hserve : request.serve artifact = (some response, artifact') := by
      rw [serve, if_pos hfits, hanswer]
    have hsuccess : succeeded (some response) ↔ findings = [] := CompileResponse.isSuccess_iff hlists
    rw [hserve]
    cases houtcome with
    | syntactic hparse =>
      have hne := (Program.parse_eq_error hparse).2
      exact Rejected.served (.syntactic hparse) hfits (by simpa [hne] using hsuccess) hanswer
    | semantic hparse hanalyze herrors =>
      exact Rejected.served (.semantic hparse hanalyze herrors) hfits (by simpa [herrors] using hsuccess) hanswer
    | internal hparse hanalyze herrors hgenerate =>
      exact Rejected.served (.internal hparse hanalyze herrors hgenerate) hfits (by simpa using hsuccess) hanswer
    | @unsaved _ _ executable _ hparse hanalyze herrors hgenerate hsave =>
      have hcompiles : request.Compiles executable := ⟨_, _, hparse, compile_of_generate hanalyze herrors hgenerate⟩
      have hobstacle : request.obstacle executable.toBytes artifact ≠ none := fun hnone => by
        cases hsave.symm.trans (write_eq_ok.mpr ⟨hnone, rfl⟩)
      have hfailed : ¬ succeeded (some response) := by simp [hsuccess]
      exact hcompiles.served hfits (iff_of_false hfailed hobstacle) (fun _ => rfl) (absurd · hfailed)
    | @saved _ _ executable _ hparse hanalyze herrors hgenerate hsave =>
      have hcompiles : request.Compiles executable := ⟨_, _, hparse, compile_of_generate hanalyze herrors hgenerate⟩
      obtain ⟨hnone, rfl⟩ := write_eq_ok.mp hsave
      have hok : succeeded (some response) := hsuccess.mpr rfl
      exact hcompiles.served hfits (iff_of_true hok hnone) (fun hno => absurd hok (Bool.eq_false_iff.mp hno)) fun _ => rfl

end CompileRequest

/-! ### Sequences of requests -/

/-- An artifact, and the requests that have been served with their answers, the last one first. -/
structure Session where
  artifact : Artifact
  served : List (CompileRequest × Option CompileResponse)

namespace Session

def start (initial : Artifact) : Session := ⟨initial, []⟩

def serve (s : Session) (request : CompileRequest) : Session :=
  ⟨(request.serve s.artifact).2, (request, (request.serve s.artifact).1) :: s.served⟩

def serveAll (s : Session) (requests : List CompileRequest) : Session := requests.foldl serve s

def lastSuccess? (s : Session) : Option CompileRequest :=
  (s.served.find? fun entry => succeeded entry.2).map Prod.fst

/-- The artifact is what the last successful request compiled. If there is none, it is what it was at first. -/
def Current (s : Session) (initial : Artifact) : Prop :=
  match s.lastSuccess? with
  | none => s.artifact = initial
  | some request => ∃ executable, request.Compiles executable ∧ s.artifact.Holds executable

variable {s : Session} {initial : Artifact} {request : CompileRequest}

theorem lastSuccess?_serve_of_success (h : succeeded (request.serve s.artifact).1) :
    (s.serve request).lastSuccess? = some request := by
  simp [lastSuccess?, serve, h]

theorem lastSuccess?_serve_of_failure (h : succeeded (request.serve s.artifact).1 = false) :
    (s.serve request).lastSuccess? = s.lastSuccess? := by
  simp [lastSuccess?, serve, h]

theorem Current.serve (h : s.Current initial) (request : CompileRequest) : (s.serve request).Current initial := by
  have hserved := request.served s.artifact
  cases hsuccess : succeeded (request.serve s.artifact).1 with
  | true =>
    rw [Current, lastSuccess?_serve_of_success hsuccess]
    exact hserved.holds hsuccess
  | false =>
    have hkept : (s.serve request).artifact = s.artifact := hserved.kept hsuccess
    rw [Current, lastSuccess?_serve_of_failure hsuccess, hkept]
    exact h

theorem Current.serveAll (h : s.Current initial) (requests : List CompileRequest) : (s.serveAll requests).Current initial := by
  induction requests generalizing s with
  | nil => exact h
  | cons request requests ih => exact ih (h.serve request)

end Session

/-- However many requests are served, the artifact is what the last successful one compiled, or what it was at first if there is
none. An answer with an error leaves the artifact as it is, an answer without one means that it has been written, and a request
that is rejected does not try to write. -/
theorem artifact_holds_last_success (initial : Artifact) (requests : List CompileRequest) :
    ((Session.start initial).serveAll requests).Current initial ∧
    ∀ front request back, requests = front ++ request :: back →
      ∃ answer, ((Session.start initial).serveAll (front ++ [request])).served =
          (request, answer) :: ((Session.start initial).serveAll front).served ∧
        request.Served ((Session.start initial).serveAll front).artifact answer
          ((Session.start initial).serveAll (front ++ [request])).artifact := by
  have hstart : (Session.start initial).Current initial := rfl
  refine ⟨hstart.serveAll requests, ?_⟩
  rintro front request back -
  have hlast : (Session.start initial).serveAll (front ++ [request]) = ((Session.start initial).serveAll front).serve request :=
    List.foldl_concat _ _ _ _
  rw [hlast]
  exact ⟨_, rfl, request.served _⟩

/-- Nothing keeps this from being saved. -/
def savedRequest : CompileRequest := ⟨⟨true⟩, "let f = fn(x) \x7b x + 1 \x7d; puts(f(\"a\"));", fun _ _ => none⟩

/-- The name stands for nothing. -/
def misnamedRequest : CompileRequest := ⟨⟨true⟩, "puts(y);", fun _ _ => none⟩

/-- A file that is there cannot be written over. -/
def blockedRequest : CompileRequest :=
  ⟨⟨true⟩, "puts(2);", fun _ artifact => artifact.map fun _ => .file "out.bin" .permissionDenied⟩

theorem artifact_holds_last_success_savedRequest :
    ((Session.start none).serveAll [savedRequest, misnamedRequest, blockedRequest]).served.map (fun entry => succeeded entry.2) =
      [false, false, true] ∧
    ((Session.start none).serveAll [savedRequest, misnamedRequest, blockedRequest]).Current none ∧
    ∃ answer, ((Session.start none).serveAll [savedRequest, misnamedRequest]).served =
        (misnamedRequest, answer) :: ((Session.start none).serveAll [savedRequest]).served ∧
      misnamedRequest.Served ((Session.start none).serveAll [savedRequest]).artifact answer
        ((Session.start none).serveAll [savedRequest, misnamedRequest]).artifact := by
  obtain ⟨hcurrent, hserved⟩ := artifact_holds_last_success none [savedRequest, misnamedRequest, blockedRequest]
  exact ⟨by decide +kernel, hcurrent, hserved [savedRequest] misnamedRequest [blockedRequest] rfl⟩

end MonkeyLang
