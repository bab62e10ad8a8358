import Canonic.Ingestion.Review

set_option autoImplicit false

/-! # The store of pending runs

Ingests, reviews, applies and `gc` in any order over `.canonic/pending-diffs`. A run that is there
stays the run it is: no ingest writes over it, a session changes only the status of its pending
proposals, and it goes away only when `gc` finds it old and fully reviewed. -/

namespace Canonic

/-! ## Commands -/

/-- The project, as the commands on pending diffs see it. -/
structure PendingProject where
  tree : Tree
  runs : PendingDiffs

/-- A command on pending diffs. -/
inductive RunCommand where
  /-- An ingest, with the files it leaves; one that is killed may not have written `status.yaml`. -/
  | ingest (now : Int) (runId : String) (report : Report) (tree : Tree) (finished : Bool)
  /-- `canonic review` or `canonic apply` over a run, the latest one if none is named. -/
  | visit (runId : Option String) (v : Visit)
  /-- `canonic gc --apply --pending-diffs-older-than`. -/
  | gc (olderThanDays now : Int)

/-- `_resolve_run_dir`. -/
def resolveRunDir (runs : PendingDiffs) (runId : Option String) : Option (String × RunDir) :=
  (runId <|> latestRunId runs).bind fun name => (Dict.get runs name).map (name, ·)

section Commands

variable (emit : EmitLib) (lib : AnnotateLib)

/-- `PendingDiffStore.write`, up to `status.yaml` or with it. -/
def PendingDiffs.ingest (runs : PendingDiffs) (now : Int) (runId : String) (report : Report)
    (finished : Bool) : PendingDiffs :=
  if finished then runs.write emit now runId report
  else
    let name := uniqueRunDir runs runId
    Dict.set runs name { writtenRun emit now runId name report with status := none }

def PendingProject.step (p : PendingProject) : RunCommand → PendingProject
  | .ingest now runId report tree finished => ⟨tree, p.runs.ingest emit now runId report finished⟩
  | .visit runId v =>
      (resolveRunDir p.runs runId).elim p fun found =>
        let s := v.run emit lib ⟨p.tree, found.2⟩
        ⟨s.tree, Dict.set p.runs found.1 s.dir⟩
  | .gc olderThanDays now => { p with runs := p.runs.gc olderThanDays now }

def PendingProject.run (p : PendingProject) (cmds : List RunCommand) : PendingProject :=
  cmds.foldl (PendingProject.step emit lib) p

end Commands

/-! ## Runs -/

/-- The proposals of a run directory. -/
def RunDir.proposals (dir : RunDir) : List PendingProposalEntry :=
  (dir.status.map (·.proposals)).getD []

/-- The same proposals, with no decision taken back. -/
structure Reviewed (ps ps' : List PendingProposalEntry) : Prop where
  entries : ps'.map (·.unreviewed) = ps.map (·.unreviewed)
  kept : KeepsDecided ps ps'

/-- The same run, at a later time. -/
structure RunDir.Continues (dir dir' : RunDir) : Prop where
  report : dir'.report = dir.report
  runId : dir'.status.map (·.runId) = dir.status.map (·.runId)
  proposals : Reviewed dir.proposals dir'.proposals

/-- The entries in `status.yaml` are those of the diffs of the report. -/
def RunDir.Intact (emit : EmitLib) (name : String) (dir : RunDir) : Prop :=
  ∀ st, dir.status = some st →
    st.proposals.map (·.unreviewed) = (emitDiffs emit dir.report).mapIdx (pendingEntry name)

theorem Reviewed.refl (ps : List PendingProposalEntry) : Reviewed ps ps :=
  ⟨rfl, KeepsDecided.refl ps⟩

theorem Reviewed.trans {ps ps' ps'' : List PendingProposalEntry} (h : Reviewed ps ps')
    (h' : Reviewed ps' ps'') : Reviewed ps ps'' :=
  ⟨h'.entries.trans h.entries, h.kept.trans h'.kept⟩

theorem RunDir.Continues.refl (dir : RunDir) : dir.Continues dir := ⟨rfl, rfl, Reviewed.refl _⟩

theorem RunDir.Continues.trans {dir dir' dir'' : RunDir} (h : dir.Continues dir')
    (h' : dir'.Continues dir'') : dir.Continues dir'' :=
  ⟨h'.report.trans h.report, h'.runId.trans h.runId, h.proposals.trans h'.proposals⟩

theorem RunDir.proposals_of_status {dir : RunDir} {st : PendingStatus}
    (h : dir.status = some st) : dir.proposals = st.proposals := by
  rw [RunDir.proposals, h]
  rfl

theorem RunDir.Intact.continues {emit : EmitLib} {name : String} {dir dir' : RunDir}
    (h : dir.Intact emit name) (hc : dir.Continues dir') : dir'.Intact emit name := by
  intro st' hst'
  have hid := hc.runId
  rw [hst'] at hid
  obtain ⟨st, hst, -⟩ := Option.map_eq_some_iff.mp hid.symm
  rw [hc.report, ← h st hst, ← proposals_of_status hst, ← proposals_of_status hst']
  exact hc.proposals.entries

/-! ## Sessions -/

section Loops

variable {lib : AnnotateLib} {run : PendingRun} {present : String → Bool}
  {ps : List PendingProposalEntry}

/-- The status of a pending proposal is set. -/
theorem Reviewed.setStatus {updated : List PendingProposalEntry} (h : Reviewed ps updated)
    (hn : (ps.map (·.id)).Nodup) {p : PendingProposalEntry} (hp : p ∈ ps)
    (hpending : p.status = .pending) (st : ProposalStatus) :
    Reviewed ps (setStatus updated p st) := by
  obtain ⟨i, hi⟩ := List.mem_iff_getElem?.mp hp
  have hids : updated.map (·.id) = ps.map (·.id) := by
    rw [ids_of_entries h.entries, ← ids_of_entries (rfl : ps.map (·.unreviewed) = _)]
  -- the entry at that position is the proposal, up to its status
  have hu : (updated.map (·.unreviewed))[i]? = some p.unreviewed := by
    rw [h.entries, List.getElem?_map, hi]
    rfl
  obtain ⟨q, hq, hqp⟩ := Option.map_eq_some_iff.mp ((List.getElem?_map ..).symm.trans hu)
  have hid : q.id = p.id := congrArg (·.id) hqp
  have hset : Canonic.setStatus updated p st = updated.set i { p with status := st } := by
    rw [Canonic.setStatus, ← hid, findIdx_id (hids ▸ hn) hq]
  rw [hset]
  refine ⟨?_, h.kept.set hi hpending _⟩
  rw [List.map_set, ← h.entries]
  refine set_of_getElem? ?_
  rw [hu]
  rfl

/-- A write of a session to `status.yaml` is one of reviewed proposals. -/
def Notes (ps : List PendingProposalEntry) (writes : List ReviewWrite) : Prop :=
  ∀ ps', ReviewWrite.status ps' ∈ writes → Reviewed ps ps'

theorem applyEntry_files (p : PendingProposalEntry) (freeze curate : Bool)
    (ps' : List PendingProposalEntry) :
    ReviewWrite.status ps' ∉ (applyEntry lib run p freeze curate).1 := by
  unfold applyEntry
  cases run.diffFor p with
  | none => simp
  | some d =>
      cases hannotated : annotation lib freeze curate d with
      | error e => simp [hannotated]
      | ok written => cases written <;> simp [hannotated]

theorem action_files (a : ReviewAction) (p : PendingProposalEntry)
    (ps' : List PendingProposalEntry) : ReviewWrite.status ps' ∉ (a.writes lib run p).1 := by
  cases a with
  | accept | freeze | curate => exact applyEntry_files p _ _ ps'
  | reject | skip | quit => exact List.not_mem_nil

theorem reviewLoop_notes (hn : (ps.map (·.id)).Nodup) (pending : List PendingProposalEntry)
    (answers : List ReviewAction) {updated : List PendingProposalEntry} (h : Reviewed ps updated)
    (hpending : ∀ p ∈ pending, p ∈ ps ∧ p.status = .pending) :
    Notes ps (reviewLoop lib run present updated pending answers).1 := by
  induction pending generalizing updated answers with
  | nil => exact fun ps' hps' => absurd hps' (by simp [reviewLoop])
  | cons p pending ih =>
      obtain ⟨hp, hstatus⟩ := hpending p List.mem_cons_self
      have hrest := fun q hq => hpending q (List.mem_cons_of_mem p hq)
      cases answers with
      | nil => exact fun ps' hps' => absurd hps' (by simp [reviewLoop])
      | cons a answers =>
          intro ps' hps'
          rw [reviewLoop] at hps'
          by_cases hquit : (!present p.diffFile || a == .quit) = true
          · rw [if_pos hquit] at hps'
            exact absurd hps' List.not_mem_nil
          rw [if_neg hquit] at hps'
          by_cases hskip : (a == .skip) = true
          · rw [if_pos hskip] at hps'
            exact ih answers h hrest ps' hps'
          rw [if_neg hskip] at hps'
          dsimp only at hps'
          by_cases hreturned : (a.writes lib run p).2 = true
          · rw [if_pos hreturned] at hps'
            have hnext := h.setStatus hn hp hstatus a.status
            rcases List.mem_append.mp hps' with hfile | hnoted
            · exact absurd hfile (action_files a p ps')
            · rcases List.mem_cons.mp hnoted with heq | hlater
              · obtain rfl := ReviewWrite.status.inj heq
                exact hnext
              · exact ih answers hnext hrest ps' hlater
          · rw [if_neg hreturned] at hps'
            exact absurd hps' (action_files a p ps')

theorem applyLoop_notes (hn : (ps.map (·.id)).Nodup) (proposals : List PendingProposalEntry)
    {updated : List PendingProposalEntry} (h : Reviewed ps updated)
    (hproposals : ∀ p ∈ proposals, p ∈ ps) :
    Notes ps (applyLoop lib run present updated proposals).1 := by
  induction proposals generalizing updated with
  | nil =>
      intro ps' hps'
      obtain rfl := ReviewWrite.status.inj (List.mem_singleton.mp hps')
      exact h
  | cons p proposals ih =>
      have hrest := fun q hq => hproposals q (List.mem_cons_of_mem p hq)
      intro ps' hps'
      rw [applyLoop] at hps'
      by_cases hskip : (decide (p.status ≠ .pending) || !present p.diffFile) = true
      · rw [if_pos hskip] at hps'
        exact ih h hrest ps' hps'
      rw [if_neg hskip] at hps'
      have hstatus := pending_of_not_skipped hskip
      dsimp only at hps'
      by_cases hreturned : (applyEntry lib run p false false).2 = true
      · rw [if_pos hreturned] at hps'
        rcases List.mem_append.mp hps' with hfile | hlater
        · exact absurd hfile (applyEntry_files p _ _ ps')
        · exact ih (h.setStatus hn (hproposals p List.mem_cons_self) hstatus _) hrest ps' hlater
      · rw [if_neg hreturned] at hps'
        exact absurd hps' (applyEntry_files p _ _ ps')

end Loops

section Sessions

variable {emit : EmitLib} {lib : AnnotateLib}

/-- After some writes of a session the run is the one it was. -/
theorem continues_foldl (now : Int) (writes : List ReviewWrite) (s : ReviewState) {dir : RunDir}
    (hs : dir.Continues s.dir) (h : Notes dir.proposals writes) :
    dir.Continues (writes.foldl (ReviewWrite.apply now) s).dir := by
  induction writes generalizing s with
  | nil => exact hs
  | cons w writes ih =>
      rw [List.foldl_cons]
      refine ih _ ?_ fun ps' hps' => h ps' (List.mem_cons_of_mem w hps')
      cases w with
      | file target content => exact hs
      | status ps' =>
          have hreviewed := h ps' List.mem_cons_self
          cases hst : s.dir.status with
          | none =>
              have hsame : (ReviewWrite.apply now s (.status ps')).dir.status = s.dir.status := by
                simp [ReviewWrite.apply, hst]
              have hps : (ReviewWrite.apply now s (.status ps')).dir.proposals =
                  s.dir.proposals := by
                rw [RunDir.proposals, hsame]
                rfl
              exact ⟨hs.report, by rw [hsame]; exact hs.runId, by rw [hps]; exact hs.proposals⟩
          | some st =>
              have hsame : (ReviewWrite.apply now s (.status ps')).dir.status =
                  some ⟨st.runId, ps'⟩ := by
                simp [ReviewWrite.apply, hst]
              refine ⟨hs.report, ?_, ?_⟩
              · rw [hsame, ← hs.runId, hst]
                rfl
              · rw [RunDir.proposals_of_status hsame]
                exact hreviewed

theorem nodup_ids_of_intact {name : String} {dir : RunDir} (h : dir.Intact emit name) :
    (dir.proposals.map (·.id)).Nodup := by
  cases hst : dir.status with
  | none => simp [RunDir.proposals, hst]
  | some st =>
      rw [RunDir.proposals_of_status hst, ids_of_entries (h st hst)]
      exact nodup_ids name _

/-- A session leaves the run it is over. -/
theorem Visit.continues (v : Visit) {name : String} {s : ReviewState}
    (h : s.dir.Intact emit name) : s.dir.Continues (v.run emit lib s).dir := by
  have hn := nodup_ids_of_intact h
  have hfound : s.dir.Continues (v.found s.dir) := ⟨rfl, rfl, Reviewed.refl _⟩
  have hnotes : Notes s.dir.proposals (v.session.writes emit lib (v.found s.dir)).1 := by
    cases hload : PendingRun.load emit (v.found s.dir) with
    | error e =>
        cases hsession : v.session <;> simp [Session.writes, hload, Notes]
    | ok run =>
        have hps : run.proposals = s.dir.proposals := by
          unfold PendingRun.load at hload
          cases hst : s.dir.status with
          | none => simp [Visit.found, hst] at hload
          | some st =>
              have hstatus : (v.found s.dir).status = some st := hst
              rw [hstatus] at hload
              dsimp only at hload
              split at hload
              · obtain rfl := Except.ok.inj hload
                exact (RunDir.proposals_of_status hst).symm
              · cases hload
        cases hsession : v.session with
        | review answers =>
            simp only [Session.writes, hload]
            rw [hps]
            refine reviewLoop_notes hn _ _ (Reviewed.refl _) fun p hp => ?_
            obtain ⟨hmem, hstatus⟩ := List.mem_filter.mp hp
            exact ⟨hmem, of_decide_eq_true hstatus⟩
        | apply =>
            simp only [Session.writes, hload]
            rw [hps]
            exact applyLoop_notes hn _ (Reviewed.refl _) fun p hp => hp
  refine continues_foldl v.now _ _ hfound fun ps' hps' => hnotes ps' ?_
  unfold Visit.done at hps'
  cases hcut : v.cut with
  | none => simpa [hcut] using hps'
  | some n =>
      rw [hcut] at hps'
      exact List.mem_of_mem_take hps'

end Sessions

/-! ## The store -/

/-- Every run has a name of its own, and its notes are those of its report. -/
structure RunsInv (emit : EmitLib) (runs : PendingDiffs) : Prop where
  nodup : (runs.map (·.1)).Nodup
  intact : ∀ r ∈ runs, r.2.Intact emit r.1

/-- What `gc` removes: a run that is old enough and fully reviewed. -/
def RunDir.Expired (dir : RunDir) (olderThanDays now : Int) : Prop :=
  dir.mtime < now - olderThanDays * 86400 ∧
    ∃ st, dir.status = some st ∧ ∀ p ∈ st.proposals, p.status ≠ .pending

/-- A run is read back, and each of its proposals finds its diff. -/
def RunDir.Readable (emit : EmitLib) (dir : RunDir) : Prop :=
  ∃ run, PendingRun.load emit dir = .ok run ∧
    ∀ p ∈ run.proposals, ∃ d, run.diffFor p = some d ∧ d.target = p.target ∧ d.op = p.op

theorem mem_expired {runs : PendingDiffs} {olderThanDays now : Int} {name : String} :
    name ∈ expiredPendingRuns runs olderThanDays now ↔
      ∃ dir, (name, dir) ∈ runs ∧ dir.Expired olderThanDays now := by
  simp only [expiredPendingRuns, List.mem_insertionSort, List.mem_map, List.mem_filter,
    Bool.and_eq_true, decide_eq_true_eq, Option.any_eq_true, List.all_eq_true, Prod.exists,
    exists_and_right, exists_eq_right, RunDir.Expired]

section Store

variable {emit : EmitLib} {lib : AnnotateLib}

theorem RunsInv.set {runs : PendingDiffs} (h : RunsInv emit runs) {name : String} {dir : RunDir}
    (hdir : dir.Intact emit name) : RunsInv emit (Dict.set runs name dir) := by
  refine ⟨Dict.nodup_set h.nodup, ?_⟩
  rintro ⟨k, d⟩ hr
  rcases Dict.mem_set.mp hr with ⟨rfl, rfl⟩ | ⟨-, hmem⟩
  · exact hdir
  · exact h.intact _ hmem

theorem intact_written (now : Int) (runId name : String) (report : Report) :
    (writtenRun emit now runId name report).Intact emit name := by
  intro st hst
  obtain rfl := Option.some.inj hst
  refine List.ext_getElem (by simp [writtenRun]) fun i _ _ => ?_
  simp only [List.getElem_map, List.getElem_mapIdx, writtenRun]
  rfl

/-- A run that is found is one of the store. -/
theorem get_of_resolve {runs : PendingDiffs} {runId : Option String} {found : String × RunDir}
    (h : resolveRunDir runs runId = some found) : Dict.get runs found.1 = some found.2 := by
  obtain ⟨name, -, hname⟩ := Option.bind_eq_some_iff.mp h
  obtain ⟨dir, hdir, rfl⟩ := Option.map_eq_some_iff.mp hname
  exact hdir

theorem RunsInv.step {p : PendingProject} (h : RunsInv emit p.runs) (c : RunCommand) :
    RunsInv emit (p.step emit lib c).runs := by
  cases c with
  | ingest now runId report tree finished =>
      cases finished with
      | true => exact h.set (intact_written now runId _ report)
      | false => exact h.set fun st hst => by cases hst
  | visit runId v =>
      simp only [PendingProject.step]
      cases hfound : resolveRunDir p.runs runId with
      | none => exact h
      | some found =>
          have hintact := h.intact _ (Dict.get_eq_some_mem (get_of_resolve hfound))
          exact h.set (hintact.continues (v.continues (s := ⟨p.tree, found.2⟩) hintact))
  | gc olderThanDays now =>
      exact ⟨h.nodup.sublist (List.filter_sublist.map _),
        fun r hr => h.intact r (List.mem_of_mem_filter hr)⟩

theorem RunsInv.run {p : PendingProject} (h : RunsInv emit p.runs) (cmds : List RunCommand) :
    RunsInv emit (p.run emit lib cmds).runs := by
  induction cmds generalizing p with
  | nil => exact h
  | cons c cmds ih => exact ih (h.step c)

/-- What one command does to a run that is there. -/
theorem step_kept (lib : AnnotateLib) {p : PendingProject} (h : RunsInv emit p.runs) {name : String}
    {dir : RunDir}
    (hget : Dict.get p.runs name = some dir) (c : RunCommand) :
    (∃ dir', Dict.get (p.step emit lib c).runs name = some dir' ∧ dir.Continues dir') ∨
      ∃ olderThanDays now, c = .gc olderThanDays now ∧ dir.Expired olderThanDays now := by
  cases c with
  | ingest now runId report tree finished =>
      have hne : uniqueRunDir p.runs runId ≠ name := by
        intro heq
        have hfree := uniqueRunDir_free p.runs runId
        rw [heq, Dict.has_of_get hget] at hfree
        cases hfree
      refine Or.inl ⟨dir, ?_, RunDir.Continues.refl dir⟩
      cases finished <;>
        simpa [PendingProject.step, PendingDiffs.ingest, PendingDiffs.write, Dict.get_set, hne.symm]
          using hget
  | visit runId v =>
      refine Or.inl ?_
      simp only [PendingProject.step]
      cases hfound : resolveRunDir p.runs runId with
      | none => exact ⟨dir, hget, RunDir.Continues.refl dir⟩
      | some found =>
          have hget' := get_of_resolve hfound
          have hintact := h.intact _ (Dict.get_eq_some_mem hget')
          simp only [Option.elim_some, Dict.get_set]
          by_cases hname : name = found.1
          · subst hname
            obtain rfl := Option.some.inj (hget.symm.trans hget')
            rw [if_pos rfl]
            exact ⟨_, rfl, v.continues (s := ⟨p.tree, found.2⟩) hintact⟩
          · rw [if_neg hname]
            exact ⟨dir, hget, RunDir.Continues.refl dir⟩
  | gc olderThanDays now =>
      have hmem := Dict.get_eq_some_mem hget
      by_cases hexpired : name ∈ expiredPendingRuns p.runs olderThanDays now
      · obtain ⟨dir', hmem', hexp⟩ := mem_expired.mp hexpired
        have hsame := (Dict.get_of_mem h.nodup hmem').symm.trans hget
        obtain rfl := Option.some.inj hsame
        exact Or.inr ⟨olderThanDays, now, rfl, hexp⟩
      · refine Or.inl ⟨dir, Dict.get_of_mem ?_ ?_, RunDir.Continues.refl dir⟩
        · exact h.nodup.sublist (List.filter_sublist.map _)
        · exact List.mem_filter.mpr ⟨hmem, by simpa using hexpired⟩

theorem run_kept (lib : AnnotateLib) {p : PendingProject} (h : RunsInv emit p.runs) {name : String}
    {dir : RunDir}
    (hget : Dict.get p.runs name = some dir) (cmds : List RunCommand) :
    (∃ dir', Dict.get (p.run emit lib cmds).runs name = some dir' ∧ dir.Continues dir') ∨
      ∃ mid olderThanDays now rest dir', cmds = mid ++ .gc olderThanDays now :: rest ∧
        Dict.get (p.run emit lib mid).runs name = some dir' ∧ dir.Continues dir' ∧
          dir'.Expired olderThanDays now := by
  induction cmds generalizing p dir with
  | nil => exact Or.inl ⟨dir, hget, RunDir.Continues.refl dir⟩
  | cons c cmds ih =>
      rcases step_kept lib h hget c with ⟨dir', hget', hc⟩ | ⟨days, now, rfl, hexp⟩
      · rcases ih (h.step c) hget' with ⟨dir'', hget'', hc'⟩ |
          ⟨mid, days, now, rest, dir'', rfl, hget'', hc', hexp⟩
        · exact Or.inl ⟨dir'', hget'', hc.trans hc'⟩
        · exact Or.inr ⟨c :: mid, days, now, rest, dir'', rfl, hget'', hc.trans hc', hexp⟩
      · exact Or.inr ⟨[], days, now, cmds, dir, rfl, hget, RunDir.Continues.refl dir, hexp⟩

/-- A run whose notes were written is read back. -/
theorem RunDir.Intact.readable {name : String} {dir : RunDir} (h : dir.Intact emit name)
    (hst : dir.status.isSome = true) : dir.Readable emit := by
  obtain ⟨st, hst⟩ := Option.isSome_iff_exists.mp hst
  have hentries := h st hst
  have hlen : st.proposals.length = (emitDiffs emit dir.report).length := by
    simpa using congrArg List.length hentries
  have hn : (st.proposals.map (·.id)).Nodup := by
    rw [ids_of_entries hentries]
    exact nodup_ids name _
  refine ⟨⟨st.proposals, emitDiffs emit dir.report, hlen⟩, ?_, fun p hp => ?_⟩
  · rw [PendingRun.load, hst]
    exact dif_pos hlen
  · obtain ⟨i, hi⟩ := List.mem_iff_getElem?.mp hp
    obtain ⟨d, hd⟩ : ∃ d, (emitDiffs emit dir.report)[i]? = some d :=
      ⟨_, List.getElem?_eq_getElem (hlen ▸ (List.getElem?_eq_some_iff.mp hi).1)⟩
    refine ⟨d, (diffFor_eq hn hi).trans hd, ?_⟩
    -- the entry is the one that was written for the diff
    have hentry : (st.proposals.map (·.unreviewed))[i]? = some (pendingEntry name i d) := by
      rw [hentries, List.getElem?_mapIdx, hd]
      rfl
    have hi' : st.proposals[i]? = some p := hi
    rw [List.getElem?_map, hi'] at hentry
    have heq : p.unreviewed = pendingEntry name i d := Option.some.inj hentry
    have htarget := congrArg (·.target) heq
    have hop := congrArg (·.op) heq
    exact ⟨htarget.symm, hop.symm⟩

end Store

/-- In every store that any commands lead to, a run with notes is read back, and each of its
proposals finds its own diff. Whatever commands follow, the run keeps its report, its id, its
proposals and every decision on them, until `gc` removes it; and it does so only when the run is old
enough and none of its proposals is pending. -/
theorem run_kept_until_reviewed (emit : EmitLib) (lib : AnnotateLib) (tree : Tree)
    (before after : List RunCommand) (name : String) (dir : RunDir)
    (hget : Dict.get (PendingProject.run emit lib ⟨tree, []⟩ before).runs name = some dir) :
    (dir.status.isSome = true → dir.Readable emit) ∧
      ((∃ dir', Dict.get (PendingProject.run emit lib ⟨tree, []⟩ (before ++ after)).runs name =
          some dir' ∧ dir.Continues dir') ∨
        ∃ mid olderThanDays now rest dir', after = mid ++ .gc olderThanDays now :: rest ∧
          Dict.get (PendingProject.run emit lib ⟨tree, []⟩ (before ++ mid)).runs name = some dir' ∧
            dir.Continues dir' ∧ dir'.Expired olderThanDays now) := by
  have hempty : RunsInv emit (⟨tree, []⟩ : PendingProject).runs :=
    ⟨List.nodup_nil, fun r hr => absurd hr List.not_mem_nil⟩
  have hinv : RunsInv emit (PendingProject.run emit lib ⟨tree, []⟩ before).runs := hempty.run before
  have happend : ∀ cmds, PendingProject.run emit lib ⟨tree, []⟩ (before ++ cmds) =
      (PendingProject.run emit lib ⟨tree, []⟩ before).run emit lib cmds := fun cmds =>
    List.foldl_append
  refine ⟨(hinv.intact _ (Dict.get_eq_some_mem hget)).readable, ?_⟩
  simpa only [happend] using run_kept lib hinv hget after

/-- Two ingests in one second, with a review and a `gc` after the first of them. -/
theorem run_kept_until_reviewed_drafted :
    ∃ dir, Dict.get (PendingProject.run draftedLib annotateLib ⟨fun _ => none, []⟩
        [.ingest 0 "r" draftedReport (fun _ => none) true]).runs
          "r" = some dir ∧
      (dir.status.isSome = true → dir.Readable draftedLib) ∧
        ((∃ dir', Dict.get (PendingProject.run draftedLib annotateLib ⟨fun _ => none, []⟩
            ([.ingest 0 "r" draftedReport (fun _ => none) true] ++
              [.ingest 0 "r" draftedReport (fun _ => none) true,
                .visit none killedReview, .gc 1 100000])).runs "r" = some dir' ∧
              dir.Continues dir') ∨
          ∃ mid olderThanDays now rest dir',
            [.ingest 0 "r" draftedReport (fun _ => none) true,
              .visit none killedReview, .gc 1 100000] = mid ++ .gc olderThanDays now :: rest ∧
            Dict.get (PendingProject.run draftedLib annotateLib ⟨fun _ => none, []⟩
              ([.ingest 0 "r" draftedReport (fun _ => none) true] ++ mid)).runs
                "r" = some dir' ∧
              dir.Continues dir' ∧ dir'.Expired olderThanDays now) :=
  ⟨_, rfl, run_kept_until_reviewed draftedLib annotateLib (fun _ => none) _ _ _ _ rfl⟩

end Canonic
