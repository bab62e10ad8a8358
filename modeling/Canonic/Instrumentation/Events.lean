import Canonic.Json

set_option autoImplicit false

/-! # The event log

`instrumentation/events.py` and the reader of `instrumentation/report.py`. Events are appended, one
line each, to `events.jsonl`. A rotation moves the `served_answer` lines of the active file into a
segment of their own: two temporary files are written, then each is renamed over its target. The
reader lists the segments by the pattern of their names and reads them before the active file.

A file is the list of its lines. What is written is on disk at once (buffers are left out), and a
crash stops a rotation between two of its file operations. -/

namespace Canonic

/-! ## Files -/

/-- A rotation time as it stands in a name: `%Y%m%dT%H%M%S%fZ` writes 22 characters. -/
structure Stamp where
  text : List Char
  length_text : text.length = 22

/-- The files of the state directory that the log uses. -/
inductive LogFile where
  | active
  | activeTmp
  | segment (stamp : Stamp) (gz : Bool)
  | segmentTmp (stamp : Stamp) (gz : Bool)

/-- `events-`. -/
def segmentPrefix : List Char := ['e', 'v', 'e', 'n', 't', 's', '-']

/-- `.jsonl`, and `.gz` where the segment is compressed. -/
def segmentSuffix (gz : Bool) : List Char :=
  ['.', 'j', 's', 'o', 'n', 'l'] ++ if gz then ['.', 'g', 'z'] else []

def tmpSuffix : List Char := ['.', 't', 'm', 'p']

/-- The characters of a file's name. -/
def LogFile.chars : LogFile → List Char
  | .active => ['e', 'v', 'e', 'n', 't', 's', '.', 'j', 's', 'o', 'n', 'l']
  | .activeTmp => ['e', 'v', 'e', 'n', 't', 's', '.', 'j', 's', 'o', 'n', 'l'] ++ tmpSuffix
  | .segment t gz => segmentPrefix ++ t.text ++ segmentSuffix gz
  | .segmentTmp t gz => segmentPrefix ++ t.text ++ segmentSuffix gz ++ tmpSuffix

def LogFile.name (f : LogFile) : String := String.ofList f.chars

/-- The pattern `events-*.jsonl*` of `_segment_paths`. -/
def matchesSegment (name : String) : Bool :=
  segmentPrefix.isPrefixOf name.toList &&
    (name.toList.drop segmentPrefix.length).tails.any fun rest =>
      (segmentSuffix false).isPrefixOf rest

/-- `path.suffix == ".gz"`. -/
def hasGzSuffix (name : String) : Bool := ['.', 'g', 'z'].isSuffixOf name.toList

/-- What a file holds: its lines, and whether they were written compressed. -/
structure FileContent where
  gzip : Bool
  lines : List String

/-- The state directory: its files by name, in the order they were made. -/
abbrev Dir := Dict FileContent

namespace Dir

variable (d : Dir)

/-- `unlink`. -/
def erase (f : String) : Dir := d.filter fun p => p.1 ≠ f

/-- Appends one line to a file that is open for writing. -/
def writeLine (f : String) (line : String) : Dir :=
  match Dict.get d f with
  | none => d
  | some c => Dict.set d f { c with lines := c.lines ++ [line] }

/-- `os.replace`. -/
def replace (source target : String) : Dir :=
  match Dict.get d source with
  | none => d
  | some c => Dict.set (erase d source) target c

/-- `_segment_paths`: the files that match the pattern, sorted by name. -/
def segmentPaths : Dir :=
  (d.filter fun p => matchesSegment p.1).insertionSort fun p q => p.1 ≤ q.1

/-- `event_log_paths`. -/
def eventLogPaths (includeSegments : Bool) : Dir :=
  (if includeSegments then segmentPaths d else []) ++
    match Dict.get d LogFile.active.name with
    | none => []
    | some c => [(LogFile.active.name, c)]

variable {d} {b : Bool} {c : FileContent}

theorem eventLogPaths_some (h : Dict.get d LogFile.active.name = some c) :
    eventLogPaths d b =
      (if b then segmentPaths d else []) ++ [(LogFile.active.name, c)] := by
  simp only [eventLogPaths, h]

theorem eventLogPaths_none (h : Dict.get d LogFile.active.name = none) :
    eventLogPaths d b = if b then segmentPaths d else [] := by
  simp only [eventLogPaths, h, List.append_nil]

end Dir

/-! ## File operations -/

/-- One file operation. -/
inductive FileOp where
  | create (f : String) (gzip : Bool)
  | writeLine (f : String) (line : String)
  | unlink (f : String)
  | replace (source target : String)

def FileOp.run (d : Dir) : FileOp → Dir
  | .create f gzip => Dict.set d f ⟨gzip, []⟩
  | .writeLine f line => Dir.writeLine d f line
  | .unlink f => Dir.erase d f
  | .replace source target => Dir.replace d source target

/-- The time of a rotation and its policy. -/
structure Rotation where
  stamp : Stamp
  compress : Bool

def Rotation.segment (r : Rotation) : String := (LogFile.segment r.stamp r.compress).name

def Rotation.segmentTmp (r : Rotation) : String := (LogFile.segmentTmp r.stamp r.compress).name

/-! ## Events -/

/-- The four kinds of events. -/
inductive EventKind where
  | servedAnswer | reconcileDecision | funnelMilestone | answerOutcome
  deriving DecidableEq, Repr

def EventKind.value : EventKind → String
  | servedAnswer => "served_answer"
  | reconcileDecision => "reconcile_decision"
  | funnelMilestone => "funnel_milestone"
  | answerOutcome => "answer_outcome"

def EventKind.all : List EventKind :=
  [.servedAnswer, .reconcileDecision, .funnelMilestone, .answerOutcome]

/-- What `json.loads` makes of a text: a value, a `JSONDecodeError`, or another exception (a number
with too many digits, nesting that is too deep). -/
inductive Loaded where
  | json (j : Json)
  | decodeError
  | raised

/-- How events are written and read back: the JSON library and the models, with what the log
relies on. -/
structure EventFormat (ε : Type) where
  kind : ε → EventKind
  /-- `json.dumps(event.model_dump(mode="json"), sort_keys=True)`. -/
  dumps : ε → String
  loads : String → Loaded
  /-- `model_validate` of the model of a kind; `none` is a validation error. -/
  validate : EventKind → Dict Json → Option ε
  strip : String → String
  loads_dumps : ∀ e, ∃ fields : Dict Json, loads (dumps e) = .json (.obj fields) ∧
    Dict.get fields "kind" = some (.str (kind e).value) ∧ validate (kind e) fields = some e
  strip_dumps : ∀ e, strip (dumps e) = dumps e
  dumps_ne : ∀ e, dumps e ≠ ""

namespace EventFormat

variable {ε : Type} (F : EventFormat ε)

/-- `_parse_line`. A value that is no object has no `get`. -/
def parseLine (line : String) : Except String (Option ε) :=
  match F.loads line with
  | .decodeError => .ok none
  | .raised => .error "json.loads"
  | .json (.obj fields) =>
      match EventKind.all.find? fun k => Dict.get fields "kind" = some (.str k.value) with
      | none => .ok none
      | some k => .ok (F.validate k fields)
  | .json _ => .error "AttributeError"

/-- `_is_rotated_kind`; `none` is an exception of `json.loads`. -/
def isRotatedKind (raw : String) : Option Bool :=
  match F.loads raw with
  | .decodeError => some false
  | .raised => none
  | .json (.obj fields) => some (decide (Dict.get fields "kind" = some (.str "served_answer")))
  | .json _ => some false

/-! ## Rotation -/

/-- The lines that are copied: those before the first whose kind cannot be read. -/
def copied (lines : List String) : List String :=
  lines.takeWhile fun raw => (F.isRotatedKind raw).isSome

/-- Whether a line is moved. -/
def moves (raw : String) : Bool := F.isRotatedKind raw = some true

/-- The copy of one line. -/
def copyOp (r : Rotation) (raw : String) : FileOp :=
  .writeLine (if F.moves raw then r.segmentTmp else LogFile.activeTmp.name) raw

/-- The file operations of `_rotate` over the lines of the active file. With no line moved the
temporary files are removed; an exception ends the rotation after the copying. -/
def rotateOps (r : Rotation) (lines : List String) : List FileOp :=
  .create r.segmentTmp r.compress :: .create LogFile.activeTmp.name false ::
    ((F.copied lines).map (F.copyOp r) ++
      if (F.copied lines).length < lines.length then []
      else if lines.any F.moves then
        [.replace r.segmentTmp r.segment, .replace LogFile.activeTmp.name LogFile.active.name]
      else [.unlink r.segmentTmp, .unlink LogFile.activeTmp.name])

/-- The first `n` file operations of a rotation, when there is an active file. -/
def rotateFor (r : Rotation) (n : ℕ) (d : Dir) : Dir :=
  match Dict.get d LogFile.active.name with
  | none => d
  | some c => ((F.rotateOps r c.lines).take n).foldl FileOp.run d

/-- Whether a rotation ends without an exception. -/
def rotates (d : Dir) : Bool :=
  match Dict.get d LogFile.active.name with
  | none => true
  | some c => decide ((F.copied c.lines).length = c.lines.length)

/-- `_rotate`. -/
def rotate (r : Rotation) (d : Dir) : Dir :=
  match Dict.get d LogFile.active.name with
  | none => d
  | some c => (F.rotateOps r c.lines).foldl FileOp.run d

/-- The write of a line at the end of the active file. -/
def appendLine (d : Dir) (line : String) : Dir :=
  match Dict.get d LogFile.active.name with
  | none => Dict.set d LogFile.active.name ⟨false, [line]⟩
  | some c => Dict.set d LogFile.active.name { c with lines := c.lines ++ [line] }

/-! ## Reading -/

/-- `open_event_file`: the lines of a file, opened by the suffix of its name. A compressed file is
no UTF-8 text, and a text is no compressed file. -/
def openEventFile (p : String × FileContent) : Except String (List String) :=
  if hasGzSuffix p.1 = p.2.gzip then .ok p.2.lines
  else if p.2.gzip then .error "UnicodeDecodeError" else .error "BadGzipFile"

/-- The last lines of a list. -/
def lastLines (n : ℕ) (lines : List String) : List String := lines.drop (lines.length - n)

/-- The loop of `_raw_lines` over the files, newest first. -/
def tailLoop (last : ℕ) (tail : List String) : Dir → Except String (List String)
  | [] => .ok tail
  | p :: ps =>
      if last - tail.length = 0 then .ok tail
      else do
        let chunk ← openEventFile p
        tailLoop last (lastLines (last - tail.length) chunk ++ tail) ps

/-- `_raw_lines`. -/
def rawLines (paths : Dir) : Option ℕ → Except String (List String)
  | none => do return (← paths.mapM openEventFile).flatten
  | some last => tailLoop last [] paths.reverse

/-- One line of `read_events`. -/
def readLine (line : String) : Except String (Option ε) :=
  if F.strip line = "" then .ok none else F.parseLine (F.strip line)

/-- Whether an event is asked for. -/
def wanted (kind : Option EventKind) (e : ε) : Bool :=
  match kind with
  | none => true
  | some k => F.kind e = k

/-- The loop of `read_events`. -/
def parseLines (kind : Option EventKind) (lines : List String) : Except String (List ε) := do
  let parsed ← lines.mapM F.readLine
  return (parsed.filterMap id).filter (F.wanted kind)

/-- Kinds that may stand in a segment. -/
def inSegments (kind : Option EventKind) : Bool := kind = none || kind = some .servedAnswer

/-- `read_events`. -/
def readEvents (d : Dir) (last : Option ℕ) (kind : Option EventKind) : Except String (List ε) := do
  let lines ← rawLines (Dir.eventLogPaths d (inSegments kind)) last
  F.parseLines kind lines

end EventFormat

end Canonic
