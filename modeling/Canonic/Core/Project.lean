import Mathlib.Data.List.Lex
import Mathlib.Data.List.Nodup
import Mathlib.Data.List.Sort
import Mathlib.Data.String.Basic

set_option autoImplicit false

/-! # The project state and its reloader

`core/project.py`, and `state` and `request` of `core/context.py`. The service runs on one event
loop: a refresh is not interrupted by another request, but files are written at any moment, also
between two file operations of a refresh. A step of the model is one such operation.

Parsing is a parameter: a section of the project is a function of the bytes that were read for it.
The time of a load (`loaded_at`) is left out. -/

namespace Canonic.Project

/-! ## Files -/

/-- The parts of a path below the project root. -/
abbrev Path := List String

structure File where
  bytes : List UInt8
  mtimeNs : ℕ
  deriving DecidableEq

/-- What `stat` tells of a file: modification time and size. -/
def File.stat (f : File) : ℕ × ℕ := (f.mtimeNs, f.bytes.length)

/-- The files of a project. -/
structure Disk where
  entries : List (Path × File)
  nodup : (entries.map (·.1)).Nodup

namespace Disk

def get (D : Disk) (p : Path) : Option File := D.entries.lookup p

/-- A file replaced, created or removed. -/
def write (D : Disk) (p : Path) (f : Option File) : Disk where
  entries := f.toList.map (p, ·) ++ D.entries.filter fun e => e.1 ≠ p
  nodup := by
    have hrest : ((D.entries.filter fun e => e.1 ≠ p).map (·.1)).Nodup :=
      D.nodup.sublist (List.filter_sublist.map _)
    cases f with
    | none => exact hrest
    | some f =>
        refine List.nodup_cons.mpr ⟨fun hmem => ?_, hrest⟩
        obtain ⟨e, he, hep⟩ := List.mem_map.mp hmem
        simpa [hep] using (List.mem_filter.mp he).2

/-- The paths of the files that `reads` selects, sorted. -/
def files (D : Disk) (reads : Path → Bool) : List Path :=
  ((D.entries.map (·.1)).filter reads).insertionSort (· ≤ ·)

end Disk

/-- `(root / directory).rglob("*.yaml")`. -/
def yamlBelow (directory : Path) (p : Path) : Bool :=
  directory.isPrefixOf p && decide (directory.length < p.length) &&
    ".yaml".toList.isSuffixOf (p.getLast?.getD "").toList

def configFile : Path := ["canonic.yaml"]

/-- The paths `watched_files` can list. -/
def watched (p : Path) : Bool :=
  p = configFile || yamlBelow ["contracts"] p || yamlBelow ["semantics"] p

/-- `watched_files`. -/
def watchedFiles (D : Disk) : List Path :=
  configFile :: ["contracts", "semantics"].flatMap fun directory => D.files (yamlBelow [directory])

/-- One entry for each watched file: its path, modification time and size. -/
abbrev ProjectSignature := List (Path × ℕ × ℕ)

/-- The bytes read for a section. -/
abbrev Contents := Path → Option (List UInt8)

/-! ## Loading -/

/-- The sections of a project, in the order `ProjectState.load` reads them. -/
inductive Section where
  | config | fingerprint | bindings | guardrails | finality | assertions | tenancy | roles | sources
  deriving DecidableEq

namespace Section

def all : List Section :=
  [config, fingerprint, bindings, guardrails, finality, assertions, tenancy, roles, sources]

/-- The files of a section. -/
def reads : Section → Path → Bool
  | config, p => p = configFile
  | fingerprint, p => watched p
  | bindings, p => yamlBelow ["contracts", "metrics"] p
  | guardrails, p => yamlBelow ["contracts", "guardrails"] p &&
      !"finality-".toList.isPrefixOf (p.getLast?.getD "").toList
  | finality, p => yamlBelow ["contracts", "guardrails"] p &&
      "finality-".toList.isPrefixOf (p.getLast?.getD "").toList
  | assertions, p => yamlBelow ["contracts", "assertions"] p
  | tenancy, p => p = ["contracts", "policies", "tenancy.yaml"]
  | roles, p => p = ["contracts", "policies", "roles.yaml"]
  | sources, p => yamlBelow ["semantics"] p

/-- The paths a section goes through. -/
def files (s : Section) (D : Disk) : List Path :=
  if s = fingerprint then watchedFiles D else D.files s.reads

end Section

/-- What a load raises. -/
inductive LoadError where
  | invalid (message : String)
  | vanished (p : Path)
  | other (name : String)
  deriving DecidableEq

/-- Whether the error is one of `_RELOAD_ERRORS`. -/
def LoadError.isReloadError : LoadError → Bool
  | invalid _ | vanished _ => true
  | other _ => false

/-- `ProjectState`: the fingerprint, and what the other sections were parsed to. -/
structure ProjectState (V : Type) where
  fingerprint : String
  parsed : List V
  deriving DecidableEq

inductive ProjectReload where
  | off | auto
  deriving DecidableEq

/-- The parsers of a project, with the digest behind its fingerprint. -/
structure Loader (V : Type) where
  digest : Contents → String
  parse : Section → Contents → Except LoadError V
  /-- `config.project.reload`. -/
  reload : ProjectState V → ProjectReload

section
variable {V : Type} (L : Loader V)

/-- One section added to what was loaded before it. -/
def Loader.read (st : ProjectState V) (s : Section) (c : Contents) :
    Except LoadError (ProjectState V) :=
  if s = .fingerprint then .ok { st with fingerprint := L.digest c }
  else (L.parse s c).map fun v => { st with parsed := st.parsed ++ [v] }

/-- The sections `todo` loaded on top of `st`, from the bytes `contents` holds for each. -/
def Loader.readAll (contents : Section → Contents) :
    List Section → ProjectState V → Except LoadError (ProjectState V)
  | [], st => .ok st
  | s :: todo, st => (L.read st s (contents s)).bind (Loader.readAll contents todo)

def ProjectState.empty : ProjectState V := ⟨"", []⟩

/-- The bytes of a section on a disk. -/
def Section.contents (D : Disk) (s : Section) : Contents :=
  fun p => if s.reads p then (D.get p).map (·.bytes) else none

/-- The state loaded from the files as they stand. -/
def ProjectState.load (D : Disk) : Except LoadError (ProjectState V) :=
  L.readAll (Section.contents D) Section.all .empty

/-! ## One file operation at a time -/

/-- Files gone through one by one: the paths still to be looked at, once they are listed, and the
files seen. -/
structure Scan where
  listed : Option (List Path) := none
  got : List (Path × File) := []

namespace Scan

def done (s : Scan) : Bool := s.listed = some []

/-- The listed file that is looked at next and is gone. -/
def vanished (D : Disk) (s : Scan) : Option Path :=
  match s.listed with
  | some (p :: _) => if D.get p = none then some p else none
  | _ => none

/-- One look at the disk: the listing, or the next file of it. -/
def look (list : Disk → List Path) (D : Disk) (s : Scan) : Scan :=
  match s.listed with
  | none => { s with listed := some (list D) }
  | some [] => s
  | some (p :: todo) => ⟨some todo, s.got ++ ((D.get p).toList.map (p, ·))⟩

def signature (s : Scan) : ProjectSignature := s.got.map fun e => (e.1, e.2.stat)

def contents (s : Scan) (sec : Section) : Contents :=
  fun p => if sec.reads p then (s.got.lookup p).map (·.bytes) else none

end Scan

/-- A load that is under way: the sections left, of which the first is being read. -/
structure Progress (V : Type) where
  todo : List Section := Section.all
  scan : Scan := {}
  state : ProjectState V := .empty

/-- The next operation of `ProjectState.load`. Only the fingerprint passes over a file that is gone
when it is read. -/
def Progress.tick (D : Disk) (g : Progress V) : Except LoadError (Progress V) :=
  match g.todo with
  | [] => .ok g
  | s :: rest =>
      if g.scan.done then
        (L.read g.state s (g.scan.contents s)).map fun st => ⟨rest, {}, st⟩
      else
        match g.scan.vanished D with
        | none => .ok { g with scan := g.scan.look s.files D }
        | some p =>
            if s = .fingerprint then .ok { g with scan := g.scan.look s.files D }
            else .error (.vanished p)

/-! ## The reloader -/

/-- `ProjectReloader`. -/
structure Reloader (V : Type) where
  state : ProjectState V
  mode : ProjectReload
  signature : ProjectSignature
  /-- The failed reload that is outstanding: the files it was attempted for, and why it failed. -/
  failure : Option (ProjectSignature × LoadError) := none
  checkedSignature : ProjectSignature
  filesChanged : Bool := false

abbrev Task := ℕ

/-- What the event loop is in the middle of. -/
inductive Activity (V : Type) where
  | idle
  /-- `from_project` loading the project, with the mode it was called with. -/
  | starting (reload : Option ProjectReload) (g : Progress V)
  /-- `ProjectReloader.__init__` reading the signature of the files. -/
  | constructing (reload : Option ProjectReload) (st : ProjectState V) (scan : Scan)
  /-- `refresh` of a request reading the signature of the files. -/
  | signing (t : Task) (scan : Scan)
  /-- `refresh` loading the project, with the signature it read. -/
  | reloading (t : Task) (sig : ProjectSignature) (g : Progress V)
  /-- `_note_drift` computing the fingerprint of the files. -/
  | drifting (t : Task) (scan : Scan)

/-- The files, the service over them, and the state each task in a request is pinned to, with the
depth of its nested requests. -/
structure World (V : Type) where
  disk : Disk
  activity : Activity V := .idle
  reloader : Option (Reloader V) := none
  pinned : Task → Option (ProjectState V × ℕ) := fun _ => none

namespace World

variable (w : World V)

/-- `ServiceContext.state`, as a task reads it. -/
def state (t : Task) : Option (ProjectState V) :=
  match w.pinned t with
  | some (st, _) => some st
  | none => w.reloader.map (·.state)

def pin (t : Task) (st : ProjectState V) : World V :=
  { w with activity := .idle, pinned := Function.update w.pinned t (some (st, 1)) }

/-- `refresh`, once it has read the signature. -/
def signed (r : Reloader V) (t : Task) (sig : ProjectSignature) : World V :=
  match r.mode with
  | .off =>
      if sig = r.checkedSignature then w.pin t r.state
      else { w with
        reloader := some { r with checkedSignature := sig }
        activity := .drifting t {} }
  | .auto =>
      if sig = r.signature then
        { w with reloader := some { r with failure := none } }.pin t r.state
      else if r.failure.any fun f => f.1 = sig then w.pin t r.state
      else { w with activity := .reloading t sig {} }

/-- `refresh`, when the load has failed. Another error is the request's. -/
def failed (r : Reloader V) (t : Task) (sig : ProjectSignature) (e : LoadError) : World V :=
  if e.isReloadError then
    { w with reloader := some { r with failure := some (sig, e) } }.pin t r.state
  else { w with activity := .idle }

/-- `refresh`, when the project is loaded. -/
def reloaded (r : Reloader V) (t : Task) (sig : ProjectSignature) (st : ProjectState V) : World V :=
  { w with reloader := some { r with state := st, signature := sig, failure := none } }.pin t st

/-- The next operation of what the event loop is in the middle of. -/
def tick : World V :=
  match w.activity with
  | .idle => w
  | .starting reload g =>
      match g.tick L w.disk with
      | .error _ => { w with activity := .idle }
      | .ok g' =>
          if g'.todo = [] then { w with activity := .constructing reload g'.state {} }
          else { w with activity := .starting reload g' }
  | .constructing reload st scan =>
      if scan.done then
        { w with
          activity := .idle
          reloader := some
            { state := st, mode := reload.getD (L.reload st), signature := scan.signature,
              checkedSignature := scan.signature } }
      else { w with activity := .constructing reload st (scan.look watchedFiles w.disk) }
  | .signing t scan =>
      match w.reloader with
      | none => w
      | some r =>
          if scan.done then w.signed r t scan.signature
          else { w with activity := .signing t (scan.look watchedFiles w.disk) }
  | .reloading t sig g =>
      match w.reloader with
      | none => w
      | some r =>
          match g.tick L w.disk with
          | .error e => w.failed r t sig e
          | .ok g' =>
              if g'.todo = [] then w.reloaded r t sig g'.state
              else { w with activity := .reloading t sig g' }
  | .drifting t scan =>
      match w.reloader with
      | none => w
      | some r =>
          if scan.done then
            let drifted := decide (L.digest (scan.contents .fingerprint) ≠ r.state.fingerprint)
            { w with reloader := some { r with filesChanged := drifted } }.pin t r.state
          else { w with activity := .drifting t (scan.look watchedFiles w.disk) }

end World

inductive Step where
  /-- A file written, created or removed. -/
  | write (p : Path) (f : Option File)
  /-- `from_project`. -/
  | construct (reload : Option ProjectReload)
  | tick
  /-- A task enters a request. -/
  | enter (t : Task)
  | leave (t : Task)

namespace World

variable (w : World V)

/-- `request` of `ServiceContext`: a nested call keeps the state the outermost one pinned. -/
def enter (t : Task) : World V :=
  match w.activity, w.reloader, w.pinned t with
  | .idle, some _, none => { w with activity := .signing t {} }
  | .idle, some _, some (st, depth) =>
      { w with pinned := Function.update w.pinned t (some (st, depth + 1)) }
  | _, _, _ => w

def leave (t : Task) : World V :=
  match w.activity, w.pinned t with
  | .idle, some (st, depth + 2) =>
      { w with pinned := Function.update w.pinned t (some (st, depth + 1)) }
  | .idle, some (_, _) => { w with pinned := Function.update w.pinned t none }
  | _, _ => w

/-- `from_project`, where there is no service yet. -/
def construct (reload : Option ProjectReload) : World V :=
  match w.activity, w.reloader with
  | .idle, none => { w with activity := .starting reload {} }
  | _, _ => w

def step : Step → World V
  | .write p f => { w with disk := w.disk.write p f }
  | .construct reload => w.construct reload
  | .tick => w.tick L
  | .enter t => w.enter t
  | .leave t => w.leave t

/-- The world after some steps. -/
def run (steps : List Step) : World V := steps.foldl (step L) w

end World
end

end Canonic.Project
