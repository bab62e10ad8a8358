import Canonic.Ingestion.Pending
import Canonic.PyText

set_option autoImplicit false

/-! # Reviewing pending diffs

`canonic review`, `canonic apply` and `apply_entry`: sessions that take the proposals of one run to
the working tree and note in `status.yaml` what became of each.

A session is the list of its writes in order, so one that is killed is a prefix of it. `review`
notes each decision right after it is carried out, `apply` notes all of them at its end; a session
that is cut off in between leaves files of proposals that are still pending. The theorem at the end
says that this is all it leaves: the tree always agrees with the decisions that are noted. -/

namespace Canonic

/-! ## Applying a proposal -/

/-- What `apply_entry` rewrites a written file with; `none` is a text that does not load. -/
structure AnnotateLib where
  /-- `_curate_metric_binding`. -/
  curateMetric : String → Option String
  /-- A semantic source with `frozen` set, or a curated `provenance`, or both. -/
  annotateSource : Bool → Bool → String → Option String

/-- One write of a session. -/
inductive ReviewWrite where
  | file (target : String) (content : Option String)
  | status (proposals : List PendingProposalEntry)

/-- The text `apply_entry` writes after the diff itself, if it writes another. -/
def annotation (lib : AnnotateLib) (freeze curate : Bool) (d : EmittedDiff) :
    Except Unit (Option String) :=
  let text := d.after.getD ""
  if (!freeze && !curate) || d.op == .prune || !".yaml".toList.isSuffixOf d.target.toList then
    .ok none
  else if (pathParts d.target).take 2 = ["contracts", "metrics"] then
    if curate then (lib.curateMetric text).elim (.error ()) fun t => .ok (some t) else .ok none
  else if "contracts/".toList.isPrefixOf d.target.toList then .ok none
  else (lib.annotateSource freeze curate text).elim (.error ()) fun t => .ok (some t)

/-- `apply_entry`: its writes, and whether it returned. -/
def applyEntry (lib : AnnotateLib) (run : PendingRun) (p : PendingProposalEntry)
    (freeze curate : Bool) : List ReviewWrite × Bool :=
  match run.diffFor p with
  | none => ([], false)
  | some d =>
      match annotation lib freeze curate d with
      | .ok none => ([.file d.target d.outcome], true)
      | .ok (some text) => ([.file d.target d.outcome, .file d.target (some text)], true)
      | .error _ => ([.file d.target d.outcome], false)

/-- `updated[i] = proposal.model_copy(update={"status": status})`. -/
def setStatus (updated : List PendingProposalEntry) (p : PendingProposalEntry)
    (status : ProposalStatus) : List PendingProposalEntry :=
  updated.set (updated.findIdx fun q => q.id == p.id) { p with status := status }

/-! ## Sessions -/

/-- What the operator answers to a proposal. -/
inductive ReviewAction where
  | accept | reject | skip | freeze | curate | quit
  deriving DecidableEq, Repr

/-- An answer as it is typed; one that is none is asked for again. -/
def ReviewAction.parse (raw : String) : Option ReviewAction :=
  match (stripSpaces raw.toList).map Char.toLower with
  | ['a'] => some accept | ['r'] => some reject | ['s'] => some skip
  | ['f'] => some freeze | ['c'] => some curate | ['q'] => some quit
  | _ => none

/-- The status an action gives a proposal. -/
def ReviewAction.status : ReviewAction → ProposalStatus
  | accept => .accepted | reject => .rejected | freeze => .frozen | curate => .curated
  | skip | quit => .pending

/-- The writes of an action to the working tree. -/
def ReviewAction.writes (lib : AnnotateLib) (run : PendingRun) (p : PendingProposalEntry) :
    ReviewAction → List ReviewWrite × Bool
  | accept => applyEntry lib run p false false
  | freeze => applyEntry lib run p true false
  | curate => applyEntry lib run p false true
  | reject | skip | quit => ([], true)

section Sessions

variable (lib : AnnotateLib) (run : PendingRun) (present : String → Bool)

/-- The loop of `review`: its writes, and whether it ended outside of `apply_entry`. A diff file
that is gone raises before the operator is asked, and so does an input that has ended. -/
def reviewLoop : List PendingProposalEntry → List PendingProposalEntry → List ReviewAction →
    List ReviewWrite × Bool
  | updated, p :: pending, a :: answers =>
      if !present p.diffFile || a == .quit then ([], true)
      else if a == .skip then reviewLoop updated pending answers
      else
        let writes := a.writes lib run p
        if writes.2 then
          let updated' := setStatus updated p a.status
          let rest := reviewLoop updated' pending answers
          (writes.1 ++ .status updated' :: rest.1, rest.2)
        else writes
  | _, _, _ => ([], true)

/-- The loop of `apply`. -/
def applyLoop : List PendingProposalEntry → List PendingProposalEntry → List ReviewWrite × Bool
  | updated, [] => ([.status updated], true)
  | updated, p :: proposals =>
      if p.status ≠ .pending || !present p.diffFile then applyLoop updated proposals
      else
        let writes := applyEntry lib run p false false
        if writes.2 then
          let rest := applyLoop (setStatus updated p .accepted) proposals
          (writes.1 ++ rest.1, rest.2)
        else writes

end Sessions

/-- A command over a run. -/
inductive Session where
  /-- `canonic review`, with what the operator types. -/
  | review (answers : List String)
  /-- `canonic apply`. -/
  | apply

/-- The writes of a command. -/
def Session.writes (emit : EmitLib) (lib : AnnotateLib) (dir : RunDir) :
    Session → List ReviewWrite × Bool
  | .review answers =>
      match PendingRun.load emit dir with
      | .error _ => ([], true)
      | .ok run => reviewLoop lib run (fun f => f ∈ dir.patches) run.proposals
          (run.proposals.filter fun p => p.status = .pending)
          (answers.filterMap ReviewAction.parse)
  | .apply =>
      match PendingRun.load emit dir with
      | .error _ => ([], true)
      | .ok run => applyLoop lib run (fun f => f ∈ dir.patches) run.proposals run.proposals

/-- The working tree and the directory of the run. -/
structure ReviewState where
  tree : Tree
  dir : RunDir

/-- The proposals as `status.yaml` has them. -/
def ReviewState.proposals (s : ReviewState) : List PendingProposalEntry :=
  (s.dir.status.map (·.proposals)).getD []

/-- A write, at a time; `update_status` keeps the run id of the file. -/
def ReviewWrite.apply (now : Int) (s : ReviewState) : ReviewWrite → ReviewState
  | .file target content =>
      { s with tree := fun f => if f = target then content else s.tree f }
  | .status proposals =>
      { s with dir := { s.dir with
          status := s.dir.status.map fun st => ⟨st.runId, proposals⟩
          mtime := now } }

/-- A session in its surroundings: when it takes place, the diff files that were deleted before it,
and after how many writes it is killed, if it is. -/
structure Visit where
  session : Session
  now : Int := 0
  deleted : List String := []
  cut : Option Nat := none

section Visits

variable (emit : EmitLib) (lib : AnnotateLib)

/-- The run directory a session finds. -/
def Visit.found (v : Visit) (dir : RunDir) : RunDir :=
  { dir with patches := dir.patches.filter fun f => f ∉ v.deleted }

/-- What a session that may be killed has written. -/
def Visit.done (v : Visit) (writes : List ReviewWrite) : List ReviewWrite :=
  match v.cut with
  | none => writes
  | some n => writes.take n

/-- A session that is killed or that fails inside of `apply_entry`. -/
def Visit.torn (v : Visit) (dir : RunDir) : Bool :=
  let writes := v.session.writes emit lib (v.found dir)
  !writes.2 || v.cut.any fun n => n < writes.1.length

def Visit.run (s : ReviewState) (v : Visit) : ReviewState :=
  (v.done (v.session.writes emit lib (v.found s.dir)).1).foldl (ReviewWrite.apply v.now)
    { s with dir := v.found s.dir }

/-- A sequence of sessions, and whether one of them was torn. -/
def runVisits (s : ReviewState × Bool) (visits : List Visit) : ReviewState × Bool :=
  visits.foldl (fun s v => (v.run emit lib s.1, s.2 || v.torn emit lib s.1.dir)) s

end Visits

/-! ## What the tree holds -/

/-- What a decision leaves at the target of its diff. -/
def decided (lib : AnnotateLib) (freeze curate : Bool) (d : EmittedDiff) : Option String :=
  match annotation lib freeze curate d with
  | .ok (some text) => some text
  | _ => d.outcome

/-- What an interrupted decision can leave at the target of its diff. -/
def Leftover (lib : AnnotateLib) (d : EmittedDiff) (content : Option String) : Prop :=
  content = d.outcome ∨ ∃ freeze curate, content = decided lib freeze curate d

/-- What the tree holds at the target of a diff, given the status that is noted for it. A proposal
that is not accepted has left its file alone, unless a session was torn over it. -/
def Agrees (lib : AnnotateLib) (torn : Bool) (init tree : Tree) (d : EmittedDiff) :
    ProposalStatus → Prop
  | .accepted => tree d.target = d.outcome
  | .frozen => tree d.target = decided lib true false d
  | .curated => tree d.target = decided lib false true d
  | .rejected | .pending =>
      tree d.target = init d.target ∨ (torn = true ∧ Leftover lib d (tree d.target))

/-- An entry without its status. -/
def PendingProposalEntry.unreviewed (p : PendingProposalEntry) : PendingProposalEntry :=
  { p with status := .pending }

/-- The tree and the noted statuses of a run agree. -/
structure ReviewAgrees (lib : AnnotateLib) (torn : Bool) (init : Tree)
    (entries : List PendingProposalEntry) (ds : List EmittedDiff) (tree : Tree)
    (ps : List PendingProposalEntry) : Prop where
  entries : ps.map (·.unreviewed) = entries
  agrees : ∀ (i : Nat) p d, ps[i]? = some p → ds[i]? = some d →
    Agrees lib torn init tree d p.status
  others : ∀ f, (∀ d ∈ ds, d.target ≠ f) → tree f = init f

/-- Decisions that are noted stay as they are. -/
def KeepsDecided (ps ps' : List PendingProposalEntry) : Prop :=
  ∀ (i : Nat) p, ps[i]? = some p → p.status ≠ .pending → ps'[i]? = some p

theorem KeepsDecided.refl (ps : List PendingProposalEntry) : KeepsDecided ps ps :=
  fun _ _ hp _ => hp

theorem KeepsDecided.trans {ps ps' ps'' : List PendingProposalEntry} (h : KeepsDecided ps ps')
    (h' : KeepsDecided ps' ps'') : KeepsDecided ps ps'' := fun i p hp hs => h' i p (h i p hp hs) hs

theorem Agrees.mono {lib : AnnotateLib} {torn : Bool} {init tree : Tree} {d : EmittedDiff}
    {st : ProposalStatus} (h : Agrees lib torn init tree d st) :
    Agrees lib true init tree d st := by
  cases st with
  | accepted | frozen | curated => exact h
  | rejected | pending => exact h.imp_right fun hl => ⟨rfl, hl.2⟩

theorem set_of_getElem? {α : Type} {l : List α} {i : Nat} {a : α} (h : l[i]? = some a) :
    l.set i a = l := by
  obtain ⟨hi, rfl⟩ := List.getElem?_eq_some_iff.mp h
  exact List.set_getElem_self hi

section Steps

variable {lib : AnnotateLib} {torn : Bool} {init tree : Tree}
  {entries ps : List PendingProposalEntry} {ds : List EmittedDiff}

theorem ReviewAgrees.mono (h : ReviewAgrees lib torn init entries ds tree ps) :
    ReviewAgrees lib true init entries ds tree ps :=
  ⟨h.entries, fun i p d hp hd => (h.agrees i p d hp hd).mono, h.others⟩

/-- Positions whose entries have one key are one position. -/
theorem position_inj {α : Type} {l : List α} {key : α → String} (hn : (l.map key).Nodup)
    {i j : Nat} {a b : α} (hi : l[i]? = some a) (hj : l[j]? = some b) (heq : key a = key b) :
    i = j := by
  have hi' : (l.map key)[i]? = some (key a) := by simp [hi]
  have hj' : (l.map key)[j]? = some (key a) := by simp [hj, heq]
  exact (List.getElem?_inj (List.getElem?_eq_some_iff.mp hi').1 hn).mp (hi'.trans hj'.symm)

/-- An entry is found by its id. -/
theorem findIdx_id (hn : (ps.map (·.id)).Nodup) {i : Nat} {p : PendingProposalEntry}
    (hp : ps[i]? = some p) : ps.findIdx (fun q => q.id == p.id) = i := by
  obtain ⟨hi, rfl⟩ := List.getElem?_eq_some_iff.mp hp
  rw [List.findIdx_eq hi]
  refine ⟨by simp, fun j hj => ?_⟩
  have hne : ps[j].id ≠ ps[i].id := fun heq =>
    hj.ne (position_inj hn (List.getElem?_eq_getElem (hj.trans hi)) hp heq)
  simpa using hne

theorem setStatus_eq (hn : (ps.map (·.id)).Nodup) {i : Nat} {p : PendingProposalEntry}
    (hp : ps[i]? = some p) (st : ProposalStatus) :
    setStatus ps p st = ps.set i { p with status := st } := by
  rw [setStatus, findIdx_id hn hp]

theorem ids_of_entries (h : ps.map (·.unreviewed) = entries) :
    ps.map (·.id) = entries.map (·.id) := by
  rw [← h, List.map_map]
  rfl

/-- A write to the target of one diff does not touch those of the others. -/
theorem target_ne (hd : (ds.map (·.target)).Nodup) {i j : Nat} {d d' : EmittedDiff}
    (hi : ds[i]? = some d) (hj : ds[j]? = some d') (hne : j ≠ i) : d'.target ≠ d.target :=
  fun heq => hne (position_inj hd hj hi heq)

/-- A content that agrees with a new status for one proposal, its tree and its note. -/
theorem ReviewAgrees.decide (h : ReviewAgrees lib torn init entries ds tree ps)
    (hd : (ds.map (·.target)).Nodup) {i : Nat} {p : PendingProposalEntry} {d : EmittedDiff}
    (hp : ps[i]? = some p) (hdi : ds[i]? = some d) {torn' : Bool}
    (htorn : torn = true → torn' = true) {tree' : Tree}
    (hothers : ∀ f, f ≠ d.target → tree' f = tree f) {st : ProposalStatus}
    (hagrees : Agrees lib torn' init tree' d st) :
    ReviewAgrees lib torn' init entries ds tree' (ps.set i { p with status := st }) := by
  have hi := (List.getElem?_eq_some_iff.mp hp).1
  refine ⟨?_, fun j q d' hq hd' => ?_, fun f hf => ?_⟩
  · rw [← h.entries, List.map_set]
    refine set_of_getElem? ?_
    rw [List.getElem?_map, hp]
    rfl
  · by_cases hj : j = i
    · subst hj
      obtain rfl : d' = d := Option.some.inj (hd'.symm.trans hdi)
      rw [List.getElem?_set_self hi] at hq
      obtain rfl := Option.some.inj hq
      exact hagrees
    · rw [List.getElem?_set_ne (Ne.symm hj)] at hq
      have hne := target_ne hd hdi hd' hj
      have hold := h.agrees j q d' hq hd'
      cases hst : q.status with
      | accepted | frozen | curated =>
          rw [hst] at hold
          exact (hothers _ hne).trans hold
      | rejected | pending =>
          rw [hst] at hold
          simp only [Agrees] at hold ⊢
          rw [hothers _ hne]
          exact hold.imp_right fun hl => ⟨htorn hl.1, hl.2⟩
  · rw [hothers f fun heq => hf d (List.mem_of_getElem? hdi) heq.symm, h.others f hf]

/-- A file that an interrupted decision leaves, while the proposal is pending. -/
theorem ReviewAgrees.leave (h : ReviewAgrees lib torn init entries ds tree ps)
    (hd : (ds.map (·.target)).Nodup) {i : Nat} {p : PendingProposalEntry} {d : EmittedDiff}
    (hp : ps[i]? = some p) (hdi : ds[i]? = some d) (hpending : p.status = .pending) {tree' : Tree}
    (hothers : ∀ f, f ≠ d.target → tree' f = tree f) (hleft : Leftover lib d (tree' d.target)) :
    ReviewAgrees lib true init entries ds tree' ps := by
  have hset : ps.set i { p with status := .pending } = ps := by
    refine set_of_getElem? ?_
    rw [hp, ← hpending]
  rw [← hset]
  exact h.decide hd hp hdi (fun _ => rfl) hothers (Or.inr ⟨rfl, hleft⟩)

end Steps

/-! ## Writes -/

/-- The tree after some writes to one file. -/
def treeAfter (tree : Tree) (target : String) (cs : List (Option String)) : Tree := fun f =>
  if f = target then cs.getLast?.getD (tree target) else tree f

theorem foldl_file (now : Int) (target : String) (cs : List (Option String)) (s : ReviewState) :
    (cs.map (ReviewWrite.file target)).foldl (ReviewWrite.apply now) s =
      { s with tree := treeAfter s.tree target cs } := by
  induction cs using List.reverseRecOn with
  | nil =>
      have htree : treeAfter s.tree target [] = s.tree := by
        funext f
        by_cases hf : f = target <;> simp [treeAfter, hf]
      rw [htree]
      rfl
  | append_singleton cs c ih =>
      rw [List.map_append, List.foldl_append, ih]
      simp only [List.map_cons, List.map_nil, List.foldl_cons, List.foldl_nil, ReviewWrite.apply,
        ReviewState.mk.injEq, and_true]
      funext f
      by_cases hf : f = target <;> simp [treeAfter, hf]

/-- No write of a session touches the report. -/
theorem report_foldl (now : Int) (es : List ReviewWrite) (s : ReviewState) :
    (es.foldl (ReviewWrite.apply now) s).dir.report = s.dir.report := by
  induction es generalizing s with
  | nil => rfl
  | cons e es ih =>
      rw [List.foldl_cons, ih]
      cases e <;> rfl

/-- Decisions that are noted in a state whose tree agrees with them. -/
structure Resting (lib : AnnotateLib) (torn : Bool) (init : Tree)
    (entries : List PendingProposalEntry) (ds : List EmittedDiff) (s : ReviewState) : Prop where
  noted : s.dir.status.isSome = true
  agrees : ReviewAgrees lib torn init entries ds s.tree s.proposals

theorem proposals_status {now : Int} {s : ReviewState} (h : s.dir.status.isSome = true)
    (ps : List PendingProposalEntry) :
    (ReviewWrite.apply now s (.status ps)).dir.status.isSome = true ∧
      (ReviewWrite.apply now s (.status ps)).proposals = ps ∧
      (ReviewWrite.apply now s (.status ps)).tree = s.tree := by
  obtain ⟨st, hst⟩ := Option.isSome_iff_exists.mp h
  simp [ReviewWrite.apply, ReviewState.proposals, hst]

/-! ## One proposal -/

/-- The diff a proposal finds is the one at its position. -/
theorem diffFor_eq {run : PendingRun} (hn : (run.proposals.map (·.id)).Nodup) {i : Nat}
    {p : PendingProposalEntry} (hp : run.proposals[i]? = some p) :
    run.diffFor p = run.diffs[i]? := by
  rw [PendingRun.diffFor, findIdx_id hn hp]

/-- The writes of `apply_entry` go to the target of the diff; each is one that an interrupted
decision leaves, and the last one is the decision. -/
theorem applyEntry_spec (lib : AnnotateLib) {run : PendingRun} {p : PendingProposalEntry}
    {d : EmittedDiff} (hd : run.diffFor p = some d) (freeze curate : Bool) :
    ∃ cs : List (Option String), (applyEntry lib run p freeze curate).1 =
      cs.map (ReviewWrite.file d.target) ∧ (∀ c ∈ cs, Leftover lib d c) ∧
        ((applyEntry lib run p freeze curate).2 = true →
          cs.getLast? = some (decided lib freeze curate d)) := by
  unfold applyEntry
  rw [hd]
  dsimp only
  cases ha : annotation lib freeze curate d with
  | error e =>
      exact ⟨[d.outcome], rfl, by simp [Leftover], fun h => by cases h⟩
  | ok written =>
      cases written with
      | none =>
          refine ⟨[d.outcome], rfl, by simp [Leftover], fun _ => ?_⟩
          simp [decided, ha]
      | some text =>
          have hdecided : decided lib freeze curate d = some text := by simp [decided, ha]
          refine ⟨[d.outcome, some text], rfl, ?_, fun _ => by simp [hdecided]⟩
          refine List.forall_mem_cons.mpr ⟨Or.inl rfl, List.forall_mem_singleton.mpr ?_⟩
          exact Or.inr ⟨freeze, curate, hdecided.symm⟩

/-- Without an annotation the decision is the diff. -/
theorem decided_plain (lib : AnnotateLib) (d : EmittedDiff) :
    decided lib false false d = d.outcome := by
  simp [decided, annotation]

/-- What an action writes, and what the tree holds of it once all is written. -/
theorem writes_spec (lib : AnnotateLib) {run : PendingRun} {p : PendingProposalEntry}
    {d : EmittedDiff} (hd : run.diffFor p = some d) {a : ReviewAction} (hquit : a ≠ .quit)
    (hskip : a ≠ .skip) : ∃ cs : List (Option String),
      (a.writes lib run p).1 = cs.map (ReviewWrite.file d.target) ∧ (∀ c ∈ cs, Leftover lib d c) ∧
        ((a.writes lib run p).2 = true → ∀ {torn : Bool} {init tree : Tree},
          Agrees lib torn init tree d .pending →
            Agrees lib torn init (treeAfter tree d.target cs) d a.status) := by
  have happlied : ∀ freeze curate, ∀ st : ProposalStatus,
      (∀ torn init tree, Agrees lib torn init tree d st ↔
        tree d.target = decided lib freeze curate d) →
      ∃ cs : List (Option String), (applyEntry lib run p freeze curate).1 =
        cs.map (ReviewWrite.file d.target) ∧ (∀ c ∈ cs, Leftover lib d c) ∧
          ((applyEntry lib run p freeze curate).2 = true → ∀ {torn : Bool} {init tree : Tree},
            Agrees lib torn init tree d .pending →
              Agrees lib torn init (treeAfter tree d.target cs) d st) := by
    intro freeze curate st hst
    obtain ⟨cs, hcs, hleft, hlast⟩ := applyEntry_spec lib hd freeze curate
    refine ⟨cs, hcs, hleft, fun hdone torn init tree _ => (hst torn init _).mpr ?_⟩
    simp [treeAfter, hlast hdone]
  cases a with
  | accept => exact happlied false false .accepted fun _ _ _ => by rw [decided_plain]; rfl
  | freeze => exact happlied true false .frozen fun _ _ _ => Iff.rfl
  | curate => exact happlied false true .curated fun _ _ _ => Iff.rfl
  | reject =>
      refine ⟨[], rfl, by simp, fun _ torn init tree hagrees => ?_⟩
      simpa [Agrees, treeAfter, ReviewAction.status] using hagrees
  | skip => exact absurd rfl hskip
  | quit => exact absurd rfl hquit

/-! ## Loops -/

section Loops

variable {lib : AnnotateLib} {run : PendingRun} {present : String → Bool} {init : Tree}
  {entries : List PendingProposalEntry} {now : Int}

/-- The writes of a decision that was cut off before it was noted. -/
theorem Resting.torn_writes {torn : Bool} {s : ReviewState}
    (h : Resting lib torn init entries run.diffs s)
    (hd : (run.diffs.map (·.target)).Nodup) {i : Nat} {p : PendingProposalEntry} {d : EmittedDiff}
    (hp : s.proposals[i]? = some p) (hdi : run.diffs[i]? = some d) (hpending : p.status = .pending)
    {cs : List (Option String)} (hleft : ∀ c ∈ cs, Leftover lib d c) :
    Resting lib true init entries run.diffs
      ((cs.map (ReviewWrite.file d.target)).foldl (ReviewWrite.apply now) s) := by
  rw [foldl_file]
  refine ⟨h.noted, ?_⟩
  show ReviewAgrees lib true init entries run.diffs (treeAfter s.tree d.target cs) s.proposals
  cases hlast : cs.getLast? with
  | none =>
      have hsame : treeAfter s.tree d.target cs = s.tree := by
        funext f
        by_cases hf : f = d.target <;> simp [treeAfter, hlast, hf]
      rw [hsame]
      exact h.agrees.mono
  | some c =>
      refine h.agrees.leave hd hp hdi hpending (fun f hf => by simp [treeAfter, hf]) ?_
      simpa [treeAfter, hlast] using hleft c (List.mem_of_getLast? hlast)

/-- What a sequence of writes does when it is cut off anywhere, and when it is not. -/
structure Rests (lib : AnnotateLib) (torn : Bool) (init : Tree)
    (entries : List PendingProposalEntry) (ds : List EmittedDiff) (now : Int)
    (writes : List ReviewWrite × Bool) (s : ReviewState) : Prop where
  cut : ∀ n, Resting lib true init entries ds ((writes.1.take n).foldl (ReviewWrite.apply now) s)
  keeps : ∀ n, KeepsDecided s.proposals
    ((writes.1.take n).foldl (ReviewWrite.apply now) s).proposals
  done : writes.2 = true →
    Resting lib torn init entries ds (writes.1.foldl (ReviewWrite.apply now) s)

theorem Resting.rests_nil {torn : Bool} {s : ReviewState} {ds : List EmittedDiff}
    (h : Resting lib torn init entries ds s) :
    Rests lib torn init entries ds now ([], true) s := by
  refine ⟨fun n => ?_, fun n => ?_, fun _ => h⟩
  · rw [List.take_nil]
    exact ⟨h.noted, h.agrees.mono⟩
  · rw [List.take_nil]
    exact KeepsDecided.refl _

/-- A decision that could not be carried out is not noted. -/
theorem Resting.rests_failed {torn torn' : Bool} {s : ReviewState}
    (h : Resting lib torn init entries run.diffs s)
    (hd : (run.diffs.map (·.target)).Nodup) {i : Nat} {p : PendingProposalEntry} {d : EmittedDiff}
    (hp : s.proposals[i]? = some p) (hdi : run.diffs[i]? = some d) (hpending : p.status = .pending)
    {cs : List (Option String)} (hleft : ∀ c ∈ cs, Leftover lib d c) :
    Rests lib torn' init entries run.diffs now (cs.map (ReviewWrite.file d.target), false) s := by
  refine ⟨fun n => ?_, fun n => ?_, fun hdone => by cases hdone⟩
  · rw [← List.map_take]
    exact h.torn_writes hd hp hdi hpending fun c hc => hleft c (List.mem_of_mem_take hc)
  · rw [← List.map_take, foldl_file]
    exact KeepsDecided.refl _

/-- Noting a decision on a pending proposal keeps the others. -/
theorem KeepsDecided.set {ps ps' : List PendingProposalEntry} (h : KeepsDecided ps ps') {i : Nat}
    {p : PendingProposalEntry} (hp : ps[i]? = some p) (hpending : p.status = .pending)
    (q : PendingProposalEntry) : KeepsDecided ps (ps'.set i q) := by
  intro j r hr hresolved
  have hj : j ≠ i := by
    rintro rfl
    obtain rfl := Option.some.inj (hr.symm.trans hp)
    exact hresolved hpending
  rw [List.getElem?_set_ne (Ne.symm hj)]
  exact h j r hr hresolved

/-- A decision that is carried out and noted, before the rest of a session. -/
theorem Resting.rests_decided {torn : Bool} {s : ReviewState}
    (h : Resting lib torn init entries run.diffs s)
    (hd : (run.diffs.map (·.target)).Nodup) (hn : (entries.map (·.id)).Nodup) {i : Nat}
    {p : PendingProposalEntry} {d : EmittedDiff} (hp : s.proposals[i]? = some p)
    (hdi : run.diffs[i]? = some d) (hpending : p.status = .pending) {cs : List (Option String)}
    (hleft : ∀ c ∈ cs, Leftover lib d c) {st : ProposalStatus}
    (hagrees : Agrees lib torn init (treeAfter s.tree d.target cs) d st)
    {rest : List ReviewWrite × Bool}
    (hrest : ∀ s' : ReviewState, Resting lib torn init entries run.diffs s' →
      s'.proposals = s.proposals.set i { p with status := st } →
        Rests lib torn init entries run.diffs now rest s') :
    Rests lib torn init entries run.diffs now
      (cs.map (ReviewWrite.file d.target) ++ .status (setStatus s.proposals p st) :: rest.1, rest.2)
      s := by
  have hids : (s.proposals.map (·.id)).Nodup := by rwa [ids_of_entries h.agrees.entries]
  rw [setStatus_eq hids hp]
  -- the state after the decision is noted
  obtain ⟨s', hs'⟩ : ∃ s', s' = ReviewWrite.apply now
      ((cs.map (ReviewWrite.file d.target)).foldl (ReviewWrite.apply now) s)
      (.status (s.proposals.set i { p with status := st })) := ⟨_, rfl⟩
  obtain ⟨hnoted, hproposals, htree⟩ : s'.dir.status.isSome = true ∧
      s'.proposals = s.proposals.set i { p with status := st } ∧
      s'.tree = treeAfter s.tree d.target cs := by
    rw [hs', foldl_file]
    exact proposals_status (s := ⟨treeAfter s.tree d.target cs, s.dir⟩) h.noted _
  have hs : Rests lib torn init entries run.diffs now rest s' := by
    refine hrest s' ⟨hnoted, ?_⟩ hproposals
    rw [hproposals, htree]
    exact h.agrees.decide hd hp hdi id (fun f hf => by simp [treeAfter, hf]) hagrees
  have hcut : ∀ n, n ≤ cs.length →
      ((cs.map (ReviewWrite.file d.target) ++
        .status (s.proposals.set i { p with status := st }) :: rest.1).take n) =
          (cs.take n).map (ReviewWrite.file d.target) := by
    intro n hle
    rw [List.take_append_of_le_length (by simpa using hle), List.map_take]
  have hlater : ∀ m, ((cs.map (ReviewWrite.file d.target) ++
      .status (s.proposals.set i { p with status := st }) :: rest.1).take
        (cs.length + 1 + m)).foldl (ReviewWrite.apply now) s =
          (rest.1.take m).foldl (ReviewWrite.apply now) s' := by
    intro m
    have hm : cs.length + 1 + m - cs.length = m + 1 := by omega
    rw [List.take_append, List.length_map, hm, List.take_of_length_le (by simp; omega),
      List.foldl_append, List.take_succ_cons, List.foldl_cons, ← hs']
  have hsplit : ∀ n, n ≤ cs.length ∨ ∃ m, n = cs.length + 1 + m := fun n => by
    rcases Nat.lt_or_ge cs.length n with hlt | hle
    · exact Or.inr ⟨n - (cs.length + 1), by omega⟩
    · exact Or.inl hle
  refine ⟨fun n => ?_, fun n => ?_, fun hdone => ?_⟩
  · rcases hsplit n with hle | ⟨m, rfl⟩
    · rw [hcut n hle]
      exact h.torn_writes hd hp hdi hpending fun c hc => hleft c (List.mem_of_mem_take hc)
    · rw [hlater m]
      exact hs.cut m
  · rcases hsplit n with hle | ⟨m, rfl⟩
    · rw [hcut n hle, foldl_file]
      exact KeepsDecided.refl _
    · rw [hlater m]
      exact (hproposals ▸ (KeepsDecided.refl _).set hp hpending _).trans (hs.keeps m)
  · rw [List.foldl_append, List.foldl_cons, ← hs']
    exact hs.done hdone

/-- The loop of `review`. Every proposal it comes to is still as it was loaded. -/
theorem reviewLoop_rests (hd : (run.diffs.map (·.target)).Nodup)
    (hn : (run.proposals.map (·.id)).Nodup) (hentries : (entries.map (·.id)).Nodup) {torn : Bool}
    (pending : List PendingProposalEntry) (answers : List ReviewAction) {s : ReviewState}
    (h : Resting lib torn init entries run.diffs s)
    (hpending : ∀ p ∈ pending, p.status = .pending ∧
      ∃ i : Nat, s.proposals[i]? = some p ∧ run.proposals[i]? = some p)
    (hdistinct : (pending.map (·.id)).Nodup) :
    Rests lib torn init entries run.diffs now
      (reviewLoop lib run present s.proposals pending answers) s := by
  -- the state moves on with each decision, while the run that was loaded stays
  induction pending generalizing s answers with
  | nil => exact h.rests_nil
  | cons p pending ih =>
      cases answers with
      | nil => exact h.rests_nil
      | cons a answers =>
          rw [List.map_cons, List.nodup_cons] at hdistinct
          obtain ⟨hstatus, i, hp, hpi⟩ := hpending p List.mem_cons_self
          have hrest := fun q hq => hpending q (List.mem_cons_of_mem p hq)
          rw [reviewLoop]
          by_cases hquit : (!present p.diffFile || a == .quit) = true
          · rw [if_pos hquit]
            exact h.rests_nil
          rw [if_neg hquit]
          by_cases hskip : (a == .skip) = true
          · rw [if_pos hskip]
            exact ih answers h hrest hdistinct.2
          rw [if_neg hskip]
          obtain ⟨d, hdi⟩ : ∃ d, run.diffs[i]? = some d :=
            ⟨_, List.getElem?_eq_getElem (run.aligned ▸ (List.getElem?_eq_some_iff.mp hpi).1)⟩
          obtain ⟨cs, hcs, hleft, hdone⟩ := writes_spec lib ((diffFor_eq hn hpi).trans hdi)
            (a := a) (fun ha => hquit (by simp [ha])) (fun ha => hskip (by simp [ha]))
          dsimp only
          by_cases hreturned : (a.writes lib run p).2 = true
          · rw [if_pos hreturned, hcs]
            have hagrees := h.agrees.agrees i p d hp hdi
            rw [hstatus] at hagrees
            have hids : (s.proposals.map (·.id)).Nodup := by
              rwa [ids_of_entries h.agrees.entries]
            refine h.rests_decided hd hentries hp hdi hstatus hleft (hdone hreturned hagrees)
              fun s' hs' hproposals => ?_
            rw [setStatus_eq hids hp, ← hproposals]
            refine ih answers hs' (fun q hq => ?_) hdistinct.2
            -- the decision was noted at another position than those still to come
            obtain ⟨hq', j, hj, hjrun⟩ := hrest q hq
            have hne : i ≠ j := by
              rintro rfl
              obtain rfl := Option.some.inj (hp.symm.trans hj)
              exact hdistinct.1 (List.mem_map_of_mem hq)
            exact ⟨hq', j, by rw [hproposals, List.getElem?_set_ne hne, hj], hjrun⟩
          · rw [if_neg hreturned]
            have hpair : a.writes lib run p = (cs.map (ReviewWrite.file d.target), false) :=
              Prod.ext hcs (by simpa using hreturned)
            rw [hpair]
            exact h.rests_failed hd hp hdi hstatus hleft

/-- A decision of `apply` that is carried out, before the rest of the session; it is noted at the
end. -/
theorem Rests.after_files {torn : Bool} {s : ReviewState} {i : Nat} {p : PendingProposalEntry}
    {d : EmittedDiff} {cs : List (Option String)} {rest : List ReviewWrite × Bool}
    (h : Resting lib true init entries run.diffs s)
    (hd : (run.diffs.map (·.target)).Nodup) (hp : s.proposals[i]? = some p)
    (hdi : run.diffs[i]? = some d) (hpending : p.status = .pending)
    (hleft : ∀ c ∈ cs, Leftover lib d c)
    (hrest : Rests lib torn init entries run.diffs now rest
      ((cs.map (ReviewWrite.file d.target)).foldl (ReviewWrite.apply now) s)) :
    Rests lib torn init entries run.diffs now (cs.map (ReviewWrite.file d.target) ++ rest.1, rest.2)
      s := by
  have hlater : ∀ n, cs.length ≤ n → ((cs.map (ReviewWrite.file d.target) ++ rest.1).take n).foldl
      (ReviewWrite.apply now) s = (rest.1.take (n - cs.length)).foldl (ReviewWrite.apply now)
        ((cs.map (ReviewWrite.file d.target)).foldl (ReviewWrite.apply now) s) := by
    intro n hle
    rw [List.take_append, List.length_map, List.take_of_length_le (by simpa using hle),
      List.foldl_append]
  have hcut : ∀ n, n ≤ cs.length → (cs.map (ReviewWrite.file d.target) ++ rest.1).take n =
      (cs.take n).map (ReviewWrite.file d.target) := by
    intro n hle
    rw [List.take_append_of_le_length (by simpa using hle), List.map_take]
  have hsame : ((cs.map (ReviewWrite.file d.target)).foldl (ReviewWrite.apply now) s).proposals =
      s.proposals := by
    rw [foldl_file]
    rfl
  refine ⟨fun n => ?_, fun n => ?_, fun hdone => ?_⟩
  · rcases le_total n cs.length with hle | hle
    · rw [hcut n hle]
      exact h.torn_writes hd hp hdi hpending fun c hc => hleft c (List.mem_of_mem_take hc)
    · rw [hlater n hle]
      exact hrest.cut _
  · rcases le_total n cs.length with hle | hle
    · rw [hcut n hle, foldl_file]
      exact KeepsDecided.refl _
    · rw [hlater n hle]
      exact hsame ▸ hrest.keeps _
  · rw [List.foldl_append]
    exact hrest.done hdone

/-- A proposal that `apply` comes to is pending. -/
theorem pending_of_not_skipped {p : PendingProposalEntry} {gone : Bool}
    (h : ¬ (decide (p.status ≠ .pending) || gone) = true) : p.status = .pending := by
  by_contra hresolved
  exact h (by simp [hresolved])

/-- At the end of the loop the notes are written at once. -/
theorem Resting.rests_status {torn : Bool} {s : ReviewState} {updated : List PendingProposalEntry}
    {ds : List EmittedDiff} (h : Resting lib true init entries ds s)
    (hupdated : ReviewAgrees lib torn init entries ds s.tree updated)
    (hkeeps : KeepsDecided s.proposals updated) :
    Rests lib torn init entries ds now ([.status updated], true) s := by
  have hwritten : (ReviewWrite.apply now s (.status updated)).dir.status.isSome = true ∧
      (ReviewWrite.apply now s (.status updated)).proposals = updated ∧
      (ReviewWrite.apply now s (.status updated)).tree = s.tree :=
    proposals_status h.noted updated
  obtain ⟨hnoted, hps, htree⟩ := hwritten
  have hdone : Resting lib torn init entries ds (ReviewWrite.apply now s (.status updated)) :=
    ⟨hnoted, by rw [hps, htree]; exact hupdated⟩
  have hcut : ∀ n, ([ReviewWrite.status updated].take (n + 1)).foldl (ReviewWrite.apply now) s =
      ReviewWrite.apply now s (.status updated) := fun n => by
    rw [List.take_of_length_le (by simp)]
    rfl
  refine ⟨fun n => ?_, fun n => ?_, fun _ => hdone⟩
  · cases n with
    | zero => exact h
    | succ n =>
        dsimp only
        rw [hcut n]
        exact ⟨hdone.noted, hdone.agrees.mono⟩
  · cases n with
    | zero => exact KeepsDecided.refl _
    | succ n =>
        dsimp only
        rw [hcut n, hps]
        exact hkeeps

/-- The loop of `apply`: until its end the notes on disk are those that were loaded. -/
theorem applyLoop_rests (hd : (run.diffs.map (·.target)).Nodup)
    (hn : (run.proposals.map (·.id)).Nodup) (hentries : (entries.map (·.id)).Nodup) {torn : Bool}
    (proposals : List PendingProposalEntry) {s : ReviewState}
    {updated : List PendingProposalEntry} (h : Resting lib true init entries run.diffs s)
    (hupdated : ReviewAgrees lib torn init entries run.diffs s.tree updated)
    (hkeeps : KeepsDecided s.proposals updated)
    (hproposals : ∀ p ∈ proposals, ∃ i : Nat, s.proposals[i]? = some p ∧
      updated[i]? = some p ∧ run.proposals[i]? = some p)
    (hdistinct : (proposals.map (·.id)).Nodup) :
    Rests lib torn init entries run.diffs now (applyLoop lib run present updated proposals) s := by
  -- on the proposals still to come: each is skipped, or written and marked before the next
  induction proposals generalizing s updated with
  | nil =>
      rw [applyLoop]
      exact h.rests_status hupdated hkeeps
  | cons p proposals ih =>
      rw [List.map_cons, List.nodup_cons] at hdistinct
      obtain ⟨i, hp, hpu, hpi⟩ := hproposals p List.mem_cons_self
      have hrest := fun q hq => hproposals q (List.mem_cons_of_mem p hq)
      rw [applyLoop]
      by_cases hskip : (decide (p.status ≠ .pending) || !present p.diffFile) = true
      · rw [if_pos hskip]
        exact ih h hupdated hkeeps hrest hdistinct.2
      rw [if_neg hskip]
      have hstatus := pending_of_not_skipped hskip
      obtain ⟨d, hdi⟩ : ∃ d, run.diffs[i]? = some d :=
        ⟨_, List.getElem?_eq_getElem (run.aligned ▸ (List.getElem?_eq_some_iff.mp hpi).1)⟩
      obtain ⟨cs, hcs, hleft, hdone⟩ := writes_spec lib
        ((diffFor_eq hn hpi).trans hdi) (a := .accept) (by decide) (by decide)
      dsimp only
      by_cases hreturned : (applyEntry lib run p false false).2 = true
      · rw [if_pos hreturned, show (applyEntry lib run p false false).1 = _ from hcs]
        refine Rests.after_files h hd hp hdi hstatus hleft ?_
        have hids : (updated.map (·.id)).Nodup := by rwa [ids_of_entries hupdated.entries]
        have hagrees := hupdated.agrees i p d hpu hdi
        rw [hstatus] at hagrees
        have hnext := hupdated.decide hd hpu hdi id
          (fun f hf => by simp [treeAfter, hf]) (hdone hreturned hagrees)
        have htorn : Resting lib true init entries run.diffs
            ((cs.map (ReviewWrite.file d.target)).foldl (ReviewWrite.apply now) s) :=
          h.torn_writes hd hp hdi hstatus hleft
        rw [setStatus_eq hids hpu]
        rw [foldl_file] at htorn ⊢
        refine ih htorn hnext (hkeeps.set hp hstatus _) (fun q hq => ?_)
          hdistinct.2
        obtain ⟨j, hj, hju, hjrun⟩ := hrest q hq
        have hne : i ≠ j := by
          rintro rfl
          obtain rfl := Option.some.inj (hp.symm.trans hj)
          exact hdistinct.1 (List.mem_map_of_mem hq)
        exact ⟨j, hj, by rw [List.getElem?_set_ne hne, hju], hjrun⟩
      -- a failed write ends the loop, before the mark
      · rw [if_neg hreturned]
        have hpair : applyEntry lib run p false false =
            (cs.map (ReviewWrite.file d.target), false) :=
          Prod.ext hcs (by simpa using hreturned)
        rw [hpair]
        exact h.rests_failed hd hp hdi hstatus hleft

end Loops

/-! ## Visits -/

section Visits

variable {emit : EmitLib} {lib : AnnotateLib} {init : Tree} {entries : List PendingProposalEntry}

/-- Deleting diff files changes neither the notes nor the tree. -/
theorem Resting.found {torn : Bool} {ds : List EmittedDiff} {s : ReviewState}
    (h : Resting lib torn init entries ds s) (v : Visit) :
    Resting lib torn init entries ds { s with dir := v.found s.dir } := ⟨h.noted, h.agrees⟩

/-- A run whose notes have an entry for every diff is loaded, with the notes on disk. -/
theorem Resting.load {torn : Bool} {ds : List EmittedDiff} {s : ReviewState}
    (h : Resting lib torn init entries ds s) (hds : emitDiffs emit s.dir.report = ds)
    (hlen : entries.length = ds.length) :
    ∃ run, PendingRun.load emit s.dir = .ok run ∧ run.proposals = s.proposals ∧ run.diffs = ds := by
  obtain ⟨st, hst⟩ := Option.isSome_iff_exists.mp h.noted
  have hps : s.proposals = st.proposals := by simp [ReviewState.proposals, hst]
  have hlength : st.proposals.length = (emitDiffs emit s.dir.report).length := by
    rw [hds, ← hlen, ← h.agrees.entries, List.length_map, hps]
  refine ⟨⟨st.proposals, emitDiffs emit s.dir.report, hlength⟩, ?_, hps.symm, hds⟩
  rw [PendingRun.load, hst]
  exact dif_pos hlength

/-- The writes of a session, wherever they are cut off. -/
theorem Session.rests (session : Session) {torn : Bool} {s : ReviewState} {ds : List EmittedDiff}
    (hds : emitDiffs emit s.dir.report = ds) (hlen : entries.length = ds.length)
    (hd : (ds.map (·.target)).Nodup) (hentries : (entries.map (·.id)).Nodup) (now : Int)
    (h : Resting lib torn init entries ds s) :
    Rests lib torn init entries ds now (session.writes emit lib s.dir) s := by
  obtain ⟨run, hload, hps, rfl⟩ := h.load hds hlen
  have hids : (run.proposals.map (·.id)).Nodup := by
    rw [hps, ids_of_entries h.agrees.entries]
    exact hentries
  -- the entries of the run that was loaded are those on disk
  have hfound : ∀ p ∈ run.proposals, ∃ i : Nat, s.proposals[i]? = some p ∧
      run.proposals[i]? = some p := by
    intro p hp
    obtain ⟨i, hi⟩ := List.mem_iff_getElem?.mp hp
    exact ⟨i, hps ▸ hi, hi⟩
  cases session with
  | review answers =>
      have hloop : Rests lib torn init entries run.diffs now
          (reviewLoop lib run (fun f => f ∈ s.dir.patches) s.proposals
            (run.proposals.filter fun p => p.status = .pending)
            (answers.filterMap ReviewAction.parse)) s := by
        refine reviewLoop_rests hd hids hentries _ _ h (fun p hp => ?_)
          (hids.sublist (List.filter_sublist.map _))
        obtain ⟨hmem, hstatus⟩ := List.mem_filter.mp hp
        exact ⟨of_decide_eq_true hstatus, hfound p hmem⟩
      rw [← hps] at hloop
      simpa only [Session.writes, hload] using hloop
  | apply =>
      have hagrees := h.agrees
      have hkeeps := KeepsDecided.refl s.proposals
      rw [← hps] at hagrees
      have hloop : Rests lib torn init entries run.diffs now
          (applyLoop lib run (fun f => f ∈ s.dir.patches) run.proposals run.proposals) s := by
        refine applyLoop_rests hd hids hentries run.proposals ⟨h.noted, h.agrees.mono⟩ hagrees
          (hps ▸ hkeeps) (fun p hp => ?_) hids
        obtain ⟨i, hi, hi'⟩ := hfound p hp
        exact ⟨i, hi, hi', hi'⟩
      simpa only [Session.writes, hload] using hloop

/-- What one session preserves: the report, the agreement of the tree with the notes, and the
decisions that were noted before. -/
theorem Visit.rests (v : Visit) {torn : Bool} {s : ReviewState} {ds : List EmittedDiff}
    (hds : emitDiffs emit s.dir.report = ds) (hlen : entries.length = ds.length)
    (hd : (ds.map (·.target)).Nodup) (hentries : (entries.map (·.id)).Nodup)
    (h : Resting lib torn init entries ds s) :
    emitDiffs emit (v.run emit lib s).dir.report = ds ∧
      Resting lib (torn || v.torn emit lib s.dir) init entries ds (v.run emit lib s) ∧
      KeepsDecided s.proposals (v.run emit lib s).proposals := by
  have hrests : Rests lib torn init entries ds v.now (v.session.writes emit lib (v.found s.dir))
      { s with dir := v.found s.dir } :=
    v.session.rests (s := { s with dir := v.found s.dir }) hds hlen hd hentries v.now (h.found v)
  refine ⟨by rw [Visit.run, report_foldl]; exact hds, ?_⟩
  -- a session that is not killed is cut off after all of its writes
  obtain ⟨n, hdone, hn⟩ : ∃ n, v.done (v.session.writes emit lib (v.found s.dir)).1 =
      (v.session.writes emit lib (v.found s.dir)).1.take n ∧
        (v.torn emit lib s.dir = false →
          (v.session.writes emit lib (v.found s.dir)).2 = true ∧
            (v.session.writes emit lib (v.found s.dir)).1.length ≤ n) := by
    cases hcut : v.cut with
    | none =>
        refine ⟨(v.session.writes emit lib (v.found s.dir)).1.length,
          by simp [Visit.done, hcut], fun ht => ⟨?_, le_rfl⟩⟩
        simpa [Visit.torn, hcut] using ht
    | some n =>
        refine ⟨n, by simp [Visit.done, hcut], fun ht => ?_⟩
        simpa [Visit.torn, hcut] using ht
  rw [Visit.run, hdone]
  refine ⟨?_, hrests.keeps n⟩
  cases htorn : v.torn emit lib s.dir with
  | true =>
      rw [Bool.or_true]
      exact hrests.cut n
  | false =>
      obtain ⟨hreturned, hall⟩ := hn htorn
      rw [Bool.or_false, List.take_of_length_le hall]
      exact hrests.done hreturned

/-- What a sequence of sessions preserves. -/
theorem runVisits_rests (visits : List Visit) {torn : Bool} {s : ReviewState}
    {ds : List EmittedDiff} (hds : emitDiffs emit s.dir.report = ds)
    (hlen : entries.length = ds.length) (hd : (ds.map (·.target)).Nodup)
    (hentries : (entries.map (·.id)).Nodup) (h : Resting lib torn init entries ds s) :
    emitDiffs emit (runVisits emit lib (s, torn) visits).1.dir.report = ds ∧
      Resting lib (runVisits emit lib (s, torn) visits).2 init entries ds
        (runVisits emit lib (s, torn) visits).1 ∧
      KeepsDecided s.proposals (runVisits emit lib (s, torn) visits).1.proposals := by
  induction visits generalizing s torn with
  | nil => exact ⟨hds, h, KeepsDecided.refl _⟩
  | cons v visits ih =>
      obtain ⟨hds', h', hkeeps⟩ := v.rests hds hlen hd hentries h
      obtain ⟨hds'', h'', hkeeps'⟩ := ih hds' h'
      exact ⟨hds'', h'', hkeeps.trans hkeeps'⟩

end Visits

/-- A run that was just written, before any review. -/
theorem resting_written (emit : EmitLib) (lib : AnnotateLib) (now : Int) (runId name : String)
    (report : Report) (init : Tree) :
    Resting lib false init ((emitDiffs emit report).mapIdx (pendingEntry name))
      (emitDiffs emit report) ⟨init, writtenRun emit now runId name report⟩ := by
  refine ⟨rfl, ?_, fun i p d hp hd => ?_, fun f _ => rfl⟩
  · show (((emitDiffs emit report).mapIdx (pendingEntry name)).map (·.unreviewed)) = _
    refine List.ext_getElem (by simp) fun i _ _ => ?_
    simp only [List.getElem_map, List.getElem_mapIdx]
    rfl
  · have hp' : ((emitDiffs emit report).mapIdx (pendingEntry name))[i]? = some p := hp
    rw [List.getElem?_mapIdx, hd] at hp'
    obtain rfl := Option.some.inj hp'
    exact Or.inl rfl

/-- After any sessions over a run, killed after any of their writes or not, the noted decisions are
what the working tree holds, all other files are as they were, and no later session takes back a
decision. A file of a proposal that is pending or rejected has changed only if a session was torn,
and then to what an accepted decision would have written. -/
theorem review_agrees (emit : EmitLib) (lib : AnnotateLib) (now : Int) (runId name : String)
    (report : Report) (init : Tree) (before after : List Visit)
    (hd : ((emitDiffs emit report).map (·.target)).Nodup) :
    let s := runVisits emit lib (⟨init, writtenRun emit now runId name report⟩, false) before
    ReviewAgrees lib s.2 init ((emitDiffs emit report).mapIdx (pendingEntry name))
        (emitDiffs emit report) s.1.tree s.1.proposals ∧
      KeepsDecided s.1.proposals (runVisits emit lib s after).1.proposals := by
  intro s
  have hlen : ((emitDiffs emit report).mapIdx (pendingEntry name)).length =
      (emitDiffs emit report).length := List.length_mapIdx
  obtain ⟨hds, hrests, -⟩ := runVisits_rests before
    (s := ⟨init, writtenRun emit now runId name report⟩) rfl hlen hd (nodup_ids name _)
    (resting_written emit lib now runId name report init)
  obtain ⟨-, -, hkeeps⟩ := runVisits_rests after hds hlen hd (nodup_ids name _) hrests
  exact ⟨hrests.agrees, hkeeps⟩

/-! ### A review that is killed before it notes its decision

Two drafted sources, which the store of runs takes up as well. -/

def draftedLib : EmitLib where
  py := .plain
  schema _ := raise "ValidationError"
  usage _ := raise "ValidationError"
  doc _ := .error "Field required"
  definitions _ _ := .ok { forRelation := fun _ => {} }
  columnsOf _ := .ok []
  definitionDigest _ := ""
  titleDigest _ := ""
  isWordChar c := c.isAlphanum || c == '_'
  drafter := nullLLMDrafter
  render _ _ _ := .ok ⟨"", "", []⟩
  semantic _ := none
  dumpPage page := page.text
  root := "/project"
  dumpYaml content := String.intercalate ", " (content.map (·.1))

def draftedEntry (target : String) : Entry where
  decision := .add
  target := target
  proposal := { target := target, op := .add, content := [("name", .str target)]
                confidence := .one }

def draftedReport : Report :=
  [draftedEntry "semantics/shop/orders.yaml", draftedEntry "semantics/shop/items.yaml"]

def annotateLib : AnnotateLib := ⟨some, fun _ _ text => some text⟩

def killedReview : Visit :=
  { session := .review ["a", "r"], cut := some 1 }

/-- The killed session has written `orders` without a note; `apply` takes it up again. -/
theorem review_agrees_killed :
    let s := runVisits draftedLib annotateLib
      (⟨fun _ => none, writtenRun draftedLib 0 "20260101T000000Z" "20260101T000000Z" draftedReport⟩,
        false) [killedReview]
    ReviewAgrees annotateLib s.2 (fun _ => none)
        ((emitDiffs draftedLib draftedReport).mapIdx (pendingEntry "20260101T000000Z"))
        (emitDiffs draftedLib draftedReport) s.1.tree s.1.proposals ∧
      KeepsDecided s.1.proposals
        (runVisits draftedLib annotateLib s [{ session := .apply }]).1.proposals :=
  review_agrees draftedLib annotateLib 0 "20260101T000000Z" "20260101T000000Z" draftedReport
    (fun _ => none) [killedReview] [{ session := .apply }] (by decide)

end Canonic
