import Canonic.Json

set_option autoImplicit false

/-! # The assertion history of a binding

`feedback/assertion_history.py`: a harness run leaves one verdict for each binding its assertions
cover, in a file that the next run overwrites, and trust scoring reads the verdicts back.

An assertion covers every binding of its query, so several outcomes of a run may cover one binding.
The loop of the code merges them in the order of the run. What it arrives at depends on that order
only in the assertion it names: `harnessVerdict` says it without the loop. The file is taken as the
JSON value it spells. -/

namespace Canonic

/-! ## Outcomes and records -/

/-- `AssertionOutcome`. -/
structure AssertionOutcome where
  assertionId : String
  passed : Bool
  detail : String := ""
  bindings : List String := []
  deriving DecidableEq, Repr

/-- `AssertionRecord`. -/
structure AssertionRecord where
  ts : String
  assertionId : String
  passed : Bool
  deriving DecidableEq, Repr

/-- `AssertionHistory`: the latest verdict of each binding. -/
abbrev AssertionHistory := Dict AssertionRecord

/-- `status_for`. -/
def AssertionHistory.statusFor (h : AssertionHistory) (binding : String) :
    Option AssertionRecord :=
  Dict.get h binding

/-! ## The code -/

/-- One outcome and one of its bindings in the loop of `write_assertion_results`. -/
def recordOutcome (now : String) (o : AssertionOutcome) (perBinding : Dict AssertionRecord)
    (binding : String) : Dict AssertionRecord :=
  match perBinding.get binding with
  | none => perBinding.set binding ⟨now, o.assertionId, o.passed⟩
  | some existing =>
      if !o.passed && existing.passed then perBinding.set binding ⟨now, o.assertionId, false⟩
      else if !o.passed && !existing.passed then
        perBinding.set binding ⟨now, existing.assertionId, false⟩
      else perBinding

/-- The records of a run. -/
def assertionResults (now : String) (outcomes : List AssertionOutcome) : Dict AssertionRecord :=
  outcomes.foldl (fun d o => o.bindings.foldl (recordOutcome now o) d) []

/-- One entry of the file, with its keys sorted. -/
def AssertionRecord.dump (r : AssertionRecord) : Json :=
  .obj [("assertion_id", .str r.assertionId), ("passed", .bool r.passed), ("ts", .str r.ts)]

/-- `write_assertion_results`: the file a run leaves. -/
def writeAssertionResults (now : String) (outcomes : List AssertionOutcome) : Json :=
  .obj (((assertionResults now outcomes).map fun p => (p.1, p.2.dump)).insertionSort
    fun p q => p.1 ≤ q.1)

/-- An entry of the file as a record; an entry that is no object or lacks a key is skipped. -/
def AssertionRecord.load (py : PyLib) : Json → Option AssertionRecord
  | .obj entry => do
      let ts ← Dict.get entry "ts"
      let id ← Dict.get entry "assertion_id"
      let passed ← Dict.get entry "passed"
      return ⟨py.str ts, py.str id, passed.truthy⟩
  | _ => none

/-- `from_project`; `none` is a file that is absent or no JSON. -/
def AssertionHistory.fromProject (py : PyLib) : Option Json → AssertionHistory
  | some (.obj entries) => entries.foldl (fun d e => match AssertionRecord.load py e.2 with
      | some r => Dict.set d e.1 r
      | none => d) []
  | _ => []

/-- The file after a sequence of harness runs, each with its time and its outcomes. -/
def fileAfterRuns (file : Option Json) (runs : List (String × List AssertionOutcome)) :
    Option Json :=
  runs.foldl (fun _ run => some (writeAssertionResults run.1 run.2)) file

/-! ## The verdict of a run -/

/-- The outcomes that cover a binding. -/
def covering (binding : String) (outcomes : List AssertionOutcome) : List AssertionOutcome :=
  outcomes.filter fun o => binding ∈ o.bindings

/-- The verdict on a binding: it names the first outcome that failed, or else the first one. -/
def harnessVerdict (now binding : String) (outcomes : List AssertionOutcome) :
    Option AssertionRecord :=
  (((covering binding outcomes).find? fun o => !o.passed).or
    (covering binding outcomes).head?).map fun o => ⟨now, o.assertionId, o.passed⟩

/-- What a covering outcome makes of the record before it. -/
def mergeRecord (now : String) (o : AssertionOutcome) : Option AssertionRecord → AssertionRecord
  | none => ⟨now, o.assertionId, o.passed⟩
  | some r => if !o.passed && r.passed then ⟨now, o.assertionId, o.passed⟩ else r

theorem mergeRecord_idem (now : String) (o : AssertionOutcome) (r : Option AssertionRecord) :
    mergeRecord now o (some (mergeRecord now o r)) = mergeRecord now o r := by
  cases r with
  | none => cases ho : o.passed <;> simp [mergeRecord, ho]
  | some r => cases ho : o.passed <;> cases hr : r.passed <;> simp [mergeRecord, ho, hr]

/-! ### One outcome -/

/-- The records of a run carry its time. -/
def Stamped (now : String) (d : Dict AssertionRecord) : Prop :=
  ∀ b r, d.get b = some r → r.ts = now

/-- What one outcome does to the record of one of its bindings, and to the others. -/
theorem get_recordOutcome {now : String} {d : Dict AssertionRecord} (hd : Stamped now d)
    (o : AssertionOutcome) (b b' : String) : (recordOutcome now o d b).get b' =
      if b' = b then some (mergeRecord now o (d.get b)) else d.get b' := by
  unfold recordOutcome
  cases hr : d.get b with
  | none => exact Dict.get_set d b b' _
  | some r =>
      have hts : r.ts = now := hd b r hr
      cases ho : o.passed with
      | true =>
          -- a passing outcome leaves the record
          by_cases hb : b' = b
          · simp [mergeRecord, ho, hb, hr]
          · simp [hb]
      | false =>
          cases hp : r.passed with
          | true => simp [mergeRecord, ho, hp, Dict.get_set]
          | false =>
              have hsame : (⟨now, r.assertionId, false⟩ : AssertionRecord) = r := by
                rw [← hts, ← hp]
              simp [mergeRecord, hp, Dict.get_set, hsame]

theorem Stamped.recordOutcome {now : String} {d : Dict AssertionRecord} (hd : Stamped now d)
    (o : AssertionOutcome) (b : String) : Stamped now (recordOutcome now o d b) := by
  intro b' r hr
  rw [get_recordOutcome hd] at hr
  by_cases hb : b' = b
  · rw [if_pos hb] at hr
    obtain rfl := Option.some.inj hr
    cases h : d.get b with
    | none => rfl
    | some r' =>
        simp only [mergeRecord]
        split_ifs
        · rfl
        · exact hd b r' h
  · rw [if_neg hb] at hr
    exact hd b' r hr

/-- What an outcome does to the record of a binding, however often it lists it. -/
theorem get_foldl_recordOutcome (now : String) (o : AssertionOutcome) (bs : List String)
    {d : Dict AssertionRecord} (hd : Stamped now d) (b : String) :
    Stamped now (bs.foldl (recordOutcome now o) d) ∧
      (bs.foldl (recordOutcome now o) d).get b =
        if b ∈ bs then some (mergeRecord now o (d.get b)) else d.get b := by
  induction bs generalizing d with
  | nil => exact ⟨hd, by simp⟩
  | cons b' bs ih =>
      obtain ⟨hstamped, hget⟩ := ih (hd.recordOutcome o b')
      refine ⟨hstamped, ?_⟩
      rw [List.foldl_cons, hget, get_recordOutcome hd]
      by_cases hb : b = b'
      · by_cases hbs : b ∈ bs
        · simp [hb, hb ▸ hbs, mergeRecord_idem]
        · simp [hb, hb ▸ hbs]
      · simp [hb]

/-! ### A run -/

theorem covering_concat (b : String) (outcomes : List AssertionOutcome) (o : AssertionOutcome) :
    covering b (outcomes ++ [o]) =
      if b ∈ o.bindings then covering b outcomes ++ [o] else covering b outcomes := by
  by_cases h : b ∈ o.bindings <;> simp [covering, h]

/-- One more covering outcome on the verdict before it. -/
theorem harnessVerdict_concat (now b : String) (outcomes : List AssertionOutcome)
    (o : AssertionOutcome) : harnessVerdict now b (outcomes ++ [o]) =
      if b ∈ o.bindings then some (mergeRecord now o (harnessVerdict now b outcomes))
      else harnessVerdict now b outcomes := by
  by_cases hb : b ∈ o.bindings
  · rw [if_pos hb, harnessVerdict, harnessVerdict, covering_concat, if_pos hb, List.find?_append]
    cases hf : (covering b outcomes).find? fun o => !o.passed with
    | some f =>
        have hfail : f.passed = false := by simpa using List.find?_some hf
        simp [mergeRecord, hfail]
    | none =>
        cases hc : covering b outcomes with
        | nil => cases ho : o.passed <;> simp [mergeRecord, ho]
        | cons c cs =>
            have hpass : c.passed = true := by
              have := List.find?_eq_none.mp hf c (hc ▸ List.mem_cons_self)
              simpa using this
            cases ho : o.passed <;> simp [mergeRecord, ho, hpass]
  · rw [if_neg hb, harnessVerdict, harnessVerdict, covering_concat, if_neg hb]

/-- The loop of the code gives every binding the verdict of the run. -/
theorem get_assertionResults (now : String) (outcomes : List AssertionOutcome) (b : String) :
    Stamped now (assertionResults now outcomes) ∧
      (assertionResults now outcomes).get b = harnessVerdict now b outcomes := by
  induction outcomes using List.reverseRecOn with
  | nil => exact ⟨fun b r h => (by simp [assertionResults, Dict.get] at h), rfl⟩
  | append_singleton outcomes o ih =>
      have hfold : assertionResults now (outcomes ++ [o]) =
          o.bindings.foldl (recordOutcome now o) (assertionResults now outcomes) := by
        simp [assertionResults]
      obtain ⟨hstamped, hget⟩ := get_foldl_recordOutcome now o o.bindings ih.1 b
      exact ⟨hfold ▸ hstamped, by rw [hfold, hget, harnessVerdict_concat, ih.2]⟩

theorem nodup_recordOutcome {d : Dict AssertionRecord} (hd : (d.map (·.1)).Nodup) (now : String)
    (o : AssertionOutcome) (b : String) : ((recordOutcome now o d b).map (·.1)).Nodup := by
  unfold recordOutcome
  cases d.get b with
  | none => exact Dict.nodup_set hd
  | some r =>
      dsimp only
      split_ifs
      · exact Dict.nodup_set hd
      · exact Dict.nodup_set hd
      · exact hd

theorem nodup_assertionResults (now : String) (outcomes : List AssertionOutcome) :
    ((assertionResults now outcomes).map (·.1)).Nodup := by
  have hinner : ∀ (o : AssertionOutcome) (bs : List String) (d : Dict AssertionRecord),
      (d.map (·.1)).Nodup → ((bs.foldl (recordOutcome now o) d).map (·.1)).Nodup := by
    intro o bs
    induction bs with
    | nil => exact fun d hd => hd
    | cons b bs ih => exact fun d hd => ih _ (nodup_recordOutcome hd now o b)
  induction outcomes using List.reverseRecOn with
  | nil => exact List.nodup_nil
  | append_singleton outcomes o ih =>
      have hfold : assertionResults now (outcomes ++ [o]) =
          o.bindings.foldl (recordOutcome now o) (assertionResults now outcomes) := by
        simp [assertionResults]
      rw [hfold]
      exact hinner o o.bindings _ ih

/-! ## Reading the file back -/

@[simp] theorem AssertionRecord.load_dump (py : PyLib) (r : AssertionRecord) :
    AssertionRecord.load py r.dump = some r := by
  simp [AssertionRecord.load, AssertionRecord.dump, Dict.get, List.lookup_cons, py.str_text,
    Json.truthy]

/-- Entries that all load are read in their order. -/
theorem foldl_load (py : PyLib) (entries : Dict AssertionRecord) (d : Dict AssertionRecord) :
    (entries.map fun p => (p.1, p.2.dump)).foldl (fun d e => match AssertionRecord.load py e.2 with
      | some r => Dict.set d e.1 r
      | none => d) d = entries.foldl (fun d p => Dict.set d p.1 p.2) d := by
  induction entries generalizing d with
  | nil => rfl
  | cons p entries ih =>
      rw [List.map_cons, List.foldl_cons, List.foldl_cons, AssertionRecord.load_dump]
      exact ih _

/-- Assigning the entries of a dictionary one by one gives its values. -/
theorem Dict.get_foldl_set {α : Type} (entries : Dict α) (hn : (entries.map (·.1)).Nodup)
    (d : Dict α) (k : String) : Dict.get (entries.foldl (fun d p => Dict.set d p.1 p.2) d) k =
      (Dict.get entries k).or (d.get k) := by
  induction entries generalizing d with
  | nil => rfl
  | cons p entries ih =>
      rw [List.map_cons, List.nodup_cons] at hn
      rw [List.foldl_cons, ih hn.2, Dict.get_set, Dict.get_cons]
      by_cases hk : p.1 = k
      · have hnone : Dict.get entries k = none := by
          cases h : Dict.get entries k with
          | none => rfl
          | some v => exact absurd (Dict.has_iff.mp (Dict.has_of_get h)) (hk ▸ hn.1)
        simp [hk, hnone]
      · simp [hk, Ne.symm hk]

/-- A value is found under its key wherever the entry stands. -/
theorem Dict.get_perm {α : Type} {d e : Dict α} (h : d.Perm e) (hd : (d.map (·.1)).Nodup)
    (k : String) : Dict.get d k = Dict.get e k := by
  have he : (e.map (·.1)).Nodup := (h.map (·.1)).nodup_iff.mp hd
  cases hk : Dict.get d k with
  | some v => exact (Dict.get_of_mem he (h.mem_iff.mp (Dict.get_eq_some_mem hk))).symm
  | none =>
      cases hk' : Dict.get e k with
      | none => rfl
      | some v =>
          rw [Dict.get_of_mem hd (h.mem_iff.mpr (Dict.get_eq_some_mem hk'))] at hk
          cases hk

/-- What is read back of the file a run leaves. -/
theorem statusFor_fromProject (py : PyLib) (now : String) (outcomes : List AssertionOutcome)
    (b : String) :
    (AssertionHistory.fromProject py (some (writeAssertionResults now outcomes))).statusFor b =
      harnessVerdict now b outcomes := by
  have hsort : ((assertionResults now outcomes).map fun p => (p.1, p.2.dump)).insertionSort
      (fun p q => p.1 ≤ q.1) =
        ((assertionResults now outcomes).insertionSort fun p q => p.1 ≤ q.1).map
          fun p => (p.1, p.2.dump) :=
    (List.map_insertionSort (r := fun p q : String × AssertionRecord => p.1 ≤ q.1)
      (s := fun p q : String × Json => p.1 ≤ q.1) (fun p => (p.1, p.2.dump)) _
      (fun _ _ _ _ => Iff.rfl)).symm
  have hperm := List.perm_insertionSort
    (fun p q : String × AssertionRecord => p.1 ≤ q.1) (assertionResults now outcomes)
  have hnodup := nodup_assertionResults now outcomes
  have hsorted := (hperm.map (·.1)).nodup_iff.mpr hnodup
  rw [writeAssertionResults, hsort, AssertionHistory.fromProject, foldl_load,
    AssertionHistory.statusFor, Dict.get_foldl_set _ hsorted, Dict.get_perm hperm hsorted,
    (get_assertionResults now outcomes b).2]
  simp [Dict.get]

/-- Of a sequence of runs only the last one is in the file. -/
theorem fileAfterRuns_concat (file : Option Json) (runs : List (String × List AssertionOutcome))
    (now : String) (outcomes : List AssertionOutcome) :
    fileAfterRuns file (runs ++ [(now, outcomes)]) =
      some (writeAssertionResults now outcomes) := by
  simp [fileAfterRuns]

/-! ### What the verdict says -/

theorem mem_covering {b : String} {outcomes : List AssertionOutcome} {o : AssertionOutcome} :
    o ∈ covering b outcomes ↔ o ∈ outcomes ∧ b ∈ o.bindings := by
  simp [covering]

theorem harnessVerdict_eq_none {now b : String} {outcomes : List AssertionOutcome} :
    harnessVerdict now b outcomes = none ↔ ∀ o ∈ outcomes, b ∉ o.bindings := by
  rw [harnessVerdict, Option.map_eq_none_iff, Option.or_eq_none_iff, List.find?_eq_none,
    List.head?_eq_none_iff]
  constructor
  · rintro ⟨-, hnil⟩ o ho hb
    have hmem : o ∈ covering b outcomes := mem_covering.mpr ⟨ho, hb⟩
    simp [hnil] at hmem
  · intro h
    have hnil : covering b outcomes = [] :=
      List.eq_nil_iff_forall_not_mem.mpr fun o ho =>
        h o (mem_covering.mp ho).1 (mem_covering.mp ho).2
    exact ⟨by simp [hnil], hnil⟩

/-- The worst outcome wins. -/
theorem harnessVerdict_passed {now b : String} {outcomes : List AssertionOutcome}
    {r : AssertionRecord} (h : harnessVerdict now b outcomes = some r) :
    r.passed = true ↔ ∀ o ∈ outcomes, b ∈ o.bindings → o.passed = true := by
  rw [harnessVerdict, Option.map_eq_some_iff] at h
  obtain ⟨o, ho, rfl⟩ := h
  rcases Option.or_eq_some_iff.mp ho with hf | ⟨hnone, hhead⟩
  · have hfail : o.passed = false := by simpa using List.find?_some hf
    have hmem := mem_covering.mp (List.mem_of_find?_eq_some hf)
    constructor
    · intro hp
      exact absurd hp (by simp [hfail])
    · intro hall
      exact absurd (hall o hmem.1 hmem.2) (by simp [hfail])
  · have hall : ∀ c ∈ covering b outcomes, c.passed = true := fun c hc => by
      simpa using List.find?_eq_none.mp hnone c hc
    exact ⟨fun _ o' ho' hb => hall o' (mem_covering.mpr ⟨ho', hb⟩),
      fun _ => hall o (List.mem_of_head? hhead)⟩

/-- The verdict is that of an outcome that covers the binding. -/
theorem harnessVerdict_names {now b : String} {outcomes : List AssertionOutcome}
    {r : AssertionRecord} (h : harnessVerdict now b outcomes = some r) :
    r.ts = now ∧ ∃ o ∈ outcomes, b ∈ o.bindings ∧ r.assertionId = o.assertionId ∧
      r.passed = o.passed := by
  rw [harnessVerdict, Option.map_eq_some_iff] at h
  obtain ⟨o, ho, rfl⟩ := h
  have hmem : o ∈ covering b outcomes := by
    rcases Option.or_eq_some_iff.mp ho with hf | ⟨-, hhead⟩
    · exact List.mem_of_find?_eq_some hf
    · exact List.mem_of_head? hhead
  exact ⟨rfl, o, (mem_covering.mp hmem).1, (mem_covering.mp hmem).2, rfl, rfl⟩

/-- After any sequence of harness runs, the history read from the project says of each binding what
the last run found: nothing when no assertion of it covers the binding, else a verdict that is
passing exactly when every covering assertion passed, and that names one of them. -/
theorem assertion_history_is_last_run (py : PyLib) (file : Option Json)
    (runs : List (String × List AssertionOutcome)) (now : String)
    (outcomes : List AssertionOutcome) (binding : String) :
    let status := (AssertionHistory.fromProject py
      (fileAfterRuns file (runs ++ [(now, outcomes)]))).statusFor binding
    (status = none ↔ ∀ o ∈ outcomes, binding ∉ o.bindings) ∧
      ∀ r, status = some r →
        (r.passed = true ↔ ∀ o ∈ outcomes, binding ∈ o.bindings → o.passed = true) ∧
          r.ts = now ∧ ∃ o ∈ outcomes, binding ∈ o.bindings ∧
            r.assertionId = o.assertionId ∧ r.passed = o.passed := by
  dsimp only
  rw [fileAfterRuns_concat, statusFor_fromProject]
  exact ⟨harnessVerdict_eq_none, fun r hr =>
    ⟨harnessVerdict_passed hr, harnessVerdict_names hr⟩⟩

end Canonic
