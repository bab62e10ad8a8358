import Canonic.Ingestion.PageRefs
import Canonic.Semantic.Zone

set_option autoImplicit false

/-! # Pending diffs

`ingestion/pending.py`: every ingest run leaves a directory with its report, a diff file for each
proposal and the state of their review, which later commands read back.

The report and the state are taken as the values their YAML files spell. Diffs are not stored: they
are emitted again from the report, and a proposal finds its diff by its position. -/

namespace Canonic

/-! ## Runs -/

/-- `ProposalStatus`. -/
inductive ProposalStatus where
  | pending | accepted | rejected | frozen | curated
  deriving DecidableEq, Repr

/-- `PendingProposalEntry`. -/
structure PendingProposalEntry where
  id : String
  target : String
  op : ProposalOp
  diffFile : String
  status : ProposalStatus := .pending
  deriving DecidableEq, Repr

/-- `PendingStatus`. -/
structure PendingStatus where
  runId : String
  proposals : List PendingProposalEntry := []
  deriving DecidableEq, Repr

/-- A directory of a run. -/
structure RunDir where
  /-- `status.yaml`; `none` is a file that is missing or cannot be read. -/
  status : Option PendingStatus
  /-- `report.yaml`. -/
  report : Report
  /-- The diff files there are. -/
  patches : List String
  /-- When `status.yaml` was written, in seconds. -/
  mtime : Int

/-- The directories under `.canonic/pending-diffs`, by their names. -/
abbrev PendingDiffs := Dict RunDir

/-! ## Writing a run -/

/-- `f"{run_id}-{suffix:03d}"`. -/
def slotName (runId : String) (suffix : Nat) : String :=
  runId ++ "-" ++ Date.padded 3 suffix

/-- The `while` loop of `_unique_run_dir`; one more suffix than there are runs is enough. -/
def freeSlot (runs : PendingDiffs) (runId : String) : Nat → Nat → String
  | 0, suffix => slotName runId suffix
  | fuel + 1, suffix =>
      if runs.has (slotName runId suffix) then freeSlot runs runId fuel (suffix + 1)
      else slotName runId suffix

/-- `_unique_run_dir`. -/
def uniqueRunDir (runs : PendingDiffs) (runId : String) : String :=
  if runs.has runId then freeSlot runs runId runs.length 2 else runId

/-- `_slug`. -/
def pathSlug (target : String) : String := target.map fun c => if c = '/' then '-' else c

/-- `f"{idx:04d}"`. -/
def proposalId (idx : Nat) : String := Date.padded 4 idx

/-- The entry of the diff at a position, counted from 0. -/
def pendingEntry (name : String) (i : Nat) (d : EmittedDiff) : PendingProposalEntry where
  id := proposalId (i + 1)
  target := d.target
  op := d.op
  diffFile := name ++ "/proposals/" ++ proposalId (i + 1) ++ "-" ++ pathSlug d.target ++ ".diff"

/-- The directory `write` fills. -/
def writtenRun (lib : EmitLib) (now : Int) (runId name : String) (report : Report) : RunDir :=
  let entries := (emitDiffs lib report).mapIdx (pendingEntry name)
  { status := some ⟨runId, entries⟩, report := report, patches := entries.map (·.diffFile),
    mtime := now }

/-- `PendingDiffStore.write`. -/
def PendingDiffs.write (lib : EmitLib) (now : Int) (runs : PendingDiffs) (runId : String)
    (report : Report) : PendingDiffs :=
  let name := uniqueRunDir runs runId
  Dict.set runs name (writtenRun lib now runId name report)

/-! ## Reading a run -/

/-- `PendingRun`: every proposal has a diff at its position. -/
structure PendingRun where
  proposals : List PendingProposalEntry
  diffs : List EmittedDiff
  aligned : proposals.length = diffs.length

/-- `PendingRun.load`. -/
def PendingRun.load (lib : EmitLib) (dir : RunDir) : Except Err PendingRun :=
  match dir.status with
  | none => .error (.internal "status.yaml cannot be read")
  | some status =>
      if h : status.proposals.length = (emitDiffs lib dir.report).length then
        .ok ⟨status.proposals, emitDiffs lib dir.report, h⟩
      else .error (.internal (s!"status.yaml has {status.proposals.length} proposals but " ++
        s!"report.yaml yielded {(emitDiffs lib dir.report).length} diffs"))

/-- `diff_for`: by the position of the entry's id. -/
def PendingRun.diffFor (run : PendingRun) (entry : PendingProposalEntry) : Option EmittedDiff :=
  run.diffs[run.proposals.findIdx fun p => p.id == entry.id]?

/-- `latest_run_id`. -/
def latestRunId (runs : PendingDiffs) : Option String :=
  ((runs.map (·.1)).insertionSort (· ≤ ·)).getLast?

/-- `expired_pending_runs`. -/
def expiredPendingRuns (runs : PendingDiffs) (olderThanDays now : Int) : List String :=
  let cutoff := now - olderThanDays * 86400
  ((runs.filter fun r => decide (r.2.mtime < cutoff) && r.2.status.any fun s =>
    s.proposals.all fun p => p.status ≠ .pending).map (·.1)).insertionSort (· ≤ ·)

/-- `gc --apply`: the expired runs are removed. -/
def PendingDiffs.gc (runs : PendingDiffs) (olderThanDays now : Int) : PendingDiffs :=
  runs.filter fun r => r.1 ∉ expiredPendingRuns runs olderThanDays now

/-! ## Ids -/

/-- Numbers that are printed with leading zeros are told apart. -/
theorem padded_inj {width : Nat} {a b : Nat} (h : Date.padded width a = Date.padded width b) :
    a = b := by
  have hread : ∀ n : Nat, Nat.ofDigitChars 10 (Date.padded width n).toList 0 = n := by
    intro n
    have htext : (toString (n : Int).toNat : String).toList = Nat.toDigits 10 n := Nat.toList_repr
    rw [Date.padded]
    simp only [String.toList_append, String.toList_ofList, htext, Nat.ofDigitChars_append,
      Nat.ofDigitChars_replicate_zero, Nat.mul_zero, Nat.ofDigitChars_ten_toDigits]
  rw [← hread a, h, hread b]

theorem proposalId_inj {a b : Nat} (h : proposalId a = proposalId b) : a = b := padded_inj h

theorem slotName_inj {runId : String} {a b : Nat} (h : slotName runId a = slotName runId b) :
    a = b := by
  have hpadded : Date.padded 3 (a : Int) = Date.padded 3 (b : Int) :=
    String.toList_inj.mp (by simpa [slotName] using congrArg String.toList h)
  exact padded_inj hpadded

/-- The ids of a written run are distinct. -/
theorem nodup_ids (name : String) (ds : List EmittedDiff) :
    ((ds.mapIdx (pendingEntry name)).map (·.id)).Nodup := by
  rw [List.nodup_iff_injective_get]
  intro i j h
  simp only [List.get_eq_getElem, List.getElem_map, List.getElem_mapIdx, pendingEntry] at h
  exact Fin.ext (by have := proposalId_inj h; omega)

/-! ## Slots -/

/-- A slot that was reached past taken ones is free, or all that were tried are taken. -/
theorem freeSlot_spec (runs : PendingDiffs) (runId : String) (fuel suffix : Nat) :
    runs.has (freeSlot runs runId fuel suffix) = false ∨
      ∀ i < fuel, runs.has (slotName runId (suffix + i)) = true := by
  induction fuel generalizing suffix with
  | zero => exact Or.inr fun i hi => absurd hi (Nat.not_lt_zero i)
  | succ fuel ih =>
      rw [freeSlot]
      by_cases h : runs.has (slotName runId suffix) = true
      · rw [if_pos h]
        refine (ih (suffix + 1)).imp_right fun hall i hi => ?_
        cases i with
        | zero => exact h
        | succ i => simpa [Nat.add_assoc, Nat.add_comm 1 i] using hall i (by omega)
      · rw [if_neg h]
        exact Or.inl (by simpa using h)

/-- A run is never written over another: more slots are tried than there are runs. -/
theorem uniqueRunDir_free (runs : PendingDiffs) (runId : String) :
    runs.has (uniqueRunDir runs runId) = false := by
  unfold uniqueRunDir
  by_cases h : runs.has runId = true
  · rw [if_pos h]
    refine (freeSlot_spec runs runId runs.length 2).resolve_right fun hall => ?_
    -- the id and all the slots that were tried would be different names of runs
    have hnodup :
        (runId :: (List.range runs.length).map fun i => slotName runId (2 + i)).Nodup := by
      refine List.nodup_cons.mpr ⟨?_, ?_⟩
      · rintro hmem
        obtain ⟨i, -, hi⟩ := List.mem_map.mp hmem
        have hlen := congrArg (fun s => s.toList.length) hi
        simp [slotName] at hlen
      · refine List.Nodup.map_on (fun i _ j _ hij => ?_) List.nodup_range
        have := slotName_inj hij
        omega
    have hsub : ∀ x ∈ runId :: (List.range runs.length).map fun i => slotName runId (2 + i),
        x ∈ runs.map (·.1) := by
      refine List.forall_mem_cons.mpr ⟨Dict.has_iff.mp h, fun x hx => ?_⟩
      obtain ⟨i, hi, rfl⟩ := List.mem_map.mp hx
      exact Dict.has_iff.mp (hall i (List.mem_range.mp hi))
    have hle := (hnodup.subperm fun x hx => hsub x hx).length_le
    simp at hle
  · rw [if_neg h]
    simpa using h

end Canonic
