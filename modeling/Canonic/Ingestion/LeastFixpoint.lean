import Canonic.Closure
import Canonic.Ingestion.Decisions

set_option autoImplicit false

/-! # Contract candidates and the state a run leaves

A contract candidate should be added when everything it refers to exists in the state that the
whole report leaves behind, and only then; since candidates refer to each other, that state is
a least fixpoint (`Closure.Derives`).

The resolver decides the candidates in rounds (`Closure.turns`): every candidate after those it
refers to, and at the end, in the order of the list, those that refer to each other in a circle. The
resolver also takes the accepted facts as they are, although the run may still prune some of them,
and does not look at the columns that a conversion matches on. `candidates_least_fixpoint` says when
the decisions are those of the least fixpoint all the same. -/

namespace Canonic

variable {py : PyLib} {policy : AutoApplyConfig} {accepted : AcceptedStore}

/-! ## What a candidate refers to -/

/-- What a candidate refers to, other than a metric. -/
inductive Reference where
  | source (name : String)
  /-- A name under one of the fields of a source. -/
  | listed (source : String) (fields : List String) (name : String)
  /-- A dimension of any source. -/
  | dimension (name : String)
  /-- A column or dimension of any source. -/
  | column (name : String)
  deriving DecidableEq

namespace CandidateBinding

/-- The metrics a candidate is computed from. -/
def needs : CandidateBinding → List String
  | ratio n d => [n, d]
  | offset b _ _ => [b]
  | derived _ inputs => inputs.map (·.metric)
  | conversion b c _ _ _ _ _ _ => [b, c]
  | single _ _ | distinctCount _ _ | cumulative _ _ _ _ _ _ => []

/-- The references the resolver looks up. -/
def checked : CandidateBinding → List Reference
  | single s m => [.source s, .listed s ["measures"] m]
  | cumulative s m order _ _ _ =>
      .source s :: .listed s ["measures"] m :: order.map (.listed s ["dimensions"])
  | distinctCount s c => [.source s, .listed s ["columns", "dimensions"] c]
  | offset _ t _ => [.dimension t]
  | conversion _ _ _ bt ct _ _ _ => [.column bt, .column ct]
  | ratio _ _ | derived _ _ => []

/-- The columns a conversion matches on. -/
def matched : CandidateBinding → List Reference
  | conversion _ _ entity _ _ _ _ properties =>
      (entity ++ properties.flatten).map fun f => .column f.2
  | _ => []

/-- Everything a candidate refers to, its metrics apart. -/
def references (b : CandidateBinding) : List Reference := b.checked ++ b.matched

end CandidateBinding

/-! ## The state after a run -/

/-- The name of a source, as the run keys it. -/
def sourceName (py : PyLib) (source : Content) : String := py.str (Dict.getD source "name" .null)

/-- The name of an item of a list. -/
def itemName : Json → Option Json
  | .obj fields => Dict.get fields "name"
  | _ => none

/-- The names under a field of a source. -/
def listedNames (source : Content) (field : String) : List Json :=
  match Dict.get source field with
  | some (.arr items) => items.filterMap itemName
  | _ => []

/-- The sources and the metrics of a state. -/
structure RunState where
  sources : List Content
  metrics : List String

/-- Whether some sources have what is referred to. -/
def Reference.ExistsIn (py : PyLib) (sources : List Content) : Reference → Prop
  | .source s => ∃ c ∈ sources, sourceName py c = s
  | .listed s fields n =>
      ∃ c ∈ sources, sourceName py c = s ∧ ∃ f ∈ fields, .str n ∈ listedNames c f
  | .dimension n => ∃ c ∈ sources, .str n ∈ listedNames c "dimensions"
  | .column n =>
      n ≠ "" ∧ ∃ c ∈ sources, ∃ f ∈ ["columns", "dimensions"], .str n ∈ listedNames c f

/-- The contents of the files under a directory after the run: accepted ones that it neither writes
nor prunes, and the written ones. -/
def contentsAfter (accepted : AcceptedStore) (entries : List Entry) (pruned : List String)
    (directory : String) : List Content :=
  let written := entries.filter fun e => e.decision.isAdding
  ((accepted.facts.filter fun f => startsWith f.target directory &&
      decide (f.target ∉ pruned) && decide (f.target ∉ written.map (·.target))).map (·.content)) ++
    ((written.filter fun e => startsWith e.target directory).map (·.proposal.content))

/-- The state the run leaves behind, the candidates apart. -/
def stateAfter (py : PyLib) (accepted : AcceptedStore) (entries : List Entry)
    (pruned : List String) : RunState where
  sources := contentsAfter accepted entries pruned "semantics/"
  metrics := (contentsAfter accepted entries pruned "contracts/metrics/").map fun c =>
    py.str (Dict.getD c "metric" .null)

/-- The state the resolver reads. -/
def stateRead (py : PyLib) (accepted : AcceptedStore) (entries : List Entry) : RunState where
  sources := (finalSources py accepted entries).map (·.2)
  metrics := acceptedBound py accepted

/-- A candidate that may be added to a state, as far as its metrics do not matter. -/
def Addable (py : PyLib) (accepted : AcceptedStore) (state : RunState) (c : Candidate) : Prop :=
  accepted.get (c.target py) = none ∧ ∀ r ∈ c.binding.references, r.ExistsIn py state.sources

/-- The metrics of the least state that has those of `state` and those of every candidate whose
references it has. -/
def LeastMetrics (py : PyLib) (accepted : AcceptedStore) (state : RunState)
    (candidates : List Candidate) : String → Prop :=
  Closure.Derives Candidate.metric (fun c => c.binding.needs) (Addable py accepted state)
    (· ∈ state.metrics) candidates

/-- Everything a candidate refers to is in the least state. -/
def ReferencesExist (py : PyLib) (accepted : AcceptedStore) (state : RunState)
    (candidates : List Candidate) (c : Candidate) : Prop :=
  (∀ k ∈ c.binding.needs, LeastMetrics py accepted state candidates k) ∧
    ∀ r ∈ c.binding.references, r.ExistsIn py state.sources

/-! ## Reading the proposals back -/

theorem inTexts_str (names : List String) (n : String) :
    inTexts names (.str n) = decide (n ∈ names) := rfl

theorem metricReferences_dump (b : CandidateBinding) :
    metricReferences b.dump = .ok (b.needs.map Json.str) := by
  cases b with
  | offset base t o => rfl
  | derived expr inputs =>
      have hinputs : (inputs.map fun i : DerivedInput => Json.obj (("metric", .str i.metric) ::
          (i.alias_.elim [] fun a => if a = "" then [] else [("alias", .str a)]))).mapM
          (fun i => do (← i.item "metric").hashed) =
          .ok (inputs.map fun i => Json.str i.metric) := by
        rw [mapM_eq_ok, List.forall₂_map_right_iff, List.forall₂_map_left_iff, List.forall₂_same]
        intro i _
        rfl
      have hread : metricReferences (CandidateBinding.derived expr inputs).dump =
          (inputs.map fun i : DerivedInput => Json.obj (("metric", .str i.metric) ::
            (i.alias_.elim [] fun a => if a = "" then [] else [("alias", .str a)]))).mapM
            (fun i => do (← i.item "metric").hashed) := rfl
      rw [hread, hinputs, CandidateBinding.needs, List.map_map]
      rfl
  | cumulative s m order w g p => rfl
  | single s m => rfl
  | distinctCount s c => rfl
  | ratio n d => rfl
  | conversion b c e bt ct calculation w props => rfl

/-- The kind of a proposed binding, as its file spells it. -/
def CandidateBinding.kindText : CandidateBinding → String
  | single _ _ => "single" | distinctCount _ _ => "distinct_count"
  | cumulative _ _ _ _ _ _ => "cumulative" | ratio _ _ => "ratio" | offset _ _ _ => "offset"
  | derived _ _ => "derived" | conversion _ _ _ _ _ _ _ _ => "conversion"

theorem item_kind_dump (b : CandidateBinding) :
    b.dump.item "kind" = .ok (.str b.kindText) := by
  cases b with
  | single s m => rfl
  | distinctCount s c => rfl
  | cumulative s m order w g p => rfl
  | ratio n d => rfl
  | offset base t o => rfl
  | derived expr inputs => rfl
  | conversion b c e bt ct calculation w props => rfl

/-- The fields of a stripped candidate that the resolver reads. -/
theorem item_canonical_strip (c : Candidate) :
    Dict.item (c.proposal py).strip.content "canonical" = .ok c.binding.dump := by
  rfl

theorem candidateMetric_strip (c : Candidate) :
    candidateMetric py (c.proposal py).strip.content = .ok c.metric := by
  have hitem : Dict.item (c.proposal py).strip.content "metric" = .ok (.str c.metric) := rfl
  rw [candidateMetric, hitem, ok_bind, py.str_text]
  rfl

theorem candidateMetric_proposal (c : Candidate) :
    candidateMetric py (c.proposal py).content = .ok c.metric := by
  have hitem : Dict.item (c.proposal py).content "metric" = .ok (.str c.metric) := rfl
  rw [candidateMetric, hitem, ok_bind, py.str_text]
  rfl

/-- What is read off a list with an element is not empty. -/
theorem ne_nil_of_mapM {α β : Type} {f : α → Option β} {x : α} {xs : List α} {ys : List β}
    (h : (x :: xs).mapM f = some ys) : ys ≠ [] := by
  simp only [List.mapM_cons, Option.pure_def, Option.bind_eq_bind, Option.bind_eq_some_iff,
    Option.some.injEq] at h
  obtain ⟨y, -, ys', -, rfl⟩ := h
  simp

theorem head?_sort_ne_none {α : Type} {r : α → α → Prop} [DecidableRel r] {xs : List α}
    (h : xs ≠ []) : (xs.insertionSort r).head? ≠ none := by
  intro hnone
  have hnil : xs.insertionSort r = [] := by simpa using hnone
  have hlen := List.length_insertionSort r xs
  rw [hnil] at hlen
  exact h (List.length_eq_zero_iff.mp hlen.symm)

theorem firstSorted_eq_none {xs : List Json} : firstSorted xs = .ok none ↔ xs = [] := by
  rcases xs with _ | ⟨x, _ | ⟨y, xs⟩⟩
  · simp [firstSorted]
  · simp [firstSorted]
  · simp only [firstSorted, reduceCtorEq, iff_false]
    intro h
    split at h
    · rename_i texts _ htexts
      simp only [Except.ok.injEq, Option.map_eq_none_iff] at h
      exact head?_sort_ne_none (ne_nil_of_mapM htexts) h
    · rename_i numbers _ hnumbers
      simp only [Except.ok.injEq, Option.map_eq_none_iff] at h
      exact head?_sort_ne_none (ne_nil_of_mapM hnumbers) h
    · simp [raise] at h

theorem distinct_eq_nil {xs : List Json} : distinct xs = [] ↔ xs = [] := by
  cases xs with
  | nil => simp [distinct]
  | cons x xs => simp [distinct]

theorem firstMissing_eq_none {α : Type} {check : α → Reads (Option String)} {xs : List α} :
    firstMissing check xs = .ok none ↔ ∀ x ∈ xs, check x = .ok none := by
  induction xs with
  | nil => simp [firstMissing]
  | cons x xs ih =>
      rw [firstMissing, bind_eq_ok, List.forall_mem_cons, ← ih]
      constructor
      · rintro ⟨o, ho, h⟩
        cases o with
        | none => exact ⟨ho, h⟩
        | some reason => simp at h
      · rintro ⟨ho, h⟩
        exact ⟨none, ho, h⟩

/-- Whether the resolver finds what a candidate refers to, its metrics apart. -/
def StateChecked (py : PyLib) (sources : Dict Content) (b : CandidateBinding) : Prop :=
  b.kindText = "ratio" ∨ missingInState py sources b.dump (.str b.kindText) = .ok none

/-- The check of a candidate: its metrics are bound, and the state has the rest. -/
theorem missingReference_eq_none {sources : Dict Content} {bound : List String} (c : Candidate) :
    missingReference py sources bound (c.proposal py).strip.content = .ok none ↔
      (∀ k ∈ c.binding.needs, k ∈ bound) ∧ StateChecked py sources c.binding := by
  rw [missingReference, item_canonical_strip, ok_bind, item_kind_dump, ok_bind]
  by_cases hratio : c.binding.kindText = "ratio"
  · obtain ⟨n, d, hb⟩ : ∃ n d, c.binding = .ratio n d := by
      cases hb : c.binding with
      | ratio n d => exact ⟨n, d, rfl⟩
      | _ => simp [hb, CandidateBinding.kindText] at hratio
    have hn : (CandidateBinding.ratio n d).dump.item "numerator" = .ok (.str n) := rfl
    have hd : (CandidateBinding.ratio n d).dump.item "denominator" = .ok (.str d) := rfl
    rw [hratio, if_pos rfl, firstMissing_eq_none, hb]
    simp only [List.forall_mem_cons, List.not_mem_nil, false_imp_iff, implies_true, and_true, hn,
      hd, ok_bind, Json.hashed, CandidateBinding.needs, StateChecked, CandidateBinding.kindText,
      true_or, inTexts]
    constructor
    · rintro ⟨hn', hd'⟩
      constructor
      · by_contra hno
        simp_all [pure, Except.pure]
      · by_contra hno
        simp_all [pure, Except.pure]
    · rintro ⟨hn', hd'⟩
      simp_all [pure, Except.pure]
  · have hne : ¬ (Json.str c.binding.kindText = .str "ratio") := by simpa using hratio
    rw [if_neg hne, metricReferences_dump, ok_bind]
    have hmissing : firstSorted (distinct ((c.binding.needs.map Json.str).filter
        fun r => !inTexts bound r)) = .ok none ↔ ∀ k ∈ c.binding.needs, k ∈ bound := by
      rw [firstSorted_eq_none, distinct_eq_nil, List.filter_eq_nil_iff, List.forall_mem_map]
      simp only [inTexts_str, Bool.not_eq_true', decide_eq_false_iff_not, not_not]
    rw [StateChecked, ← hmissing, bind_eq_ok]
    constructor
    · rintro ⟨o, ho, h⟩
      cases o with
      | none => exact ⟨ho, .inr h⟩
      | some metric => simp at h
    · rintro ⟨ho, h⟩
      exact ⟨none, ho, h.resolve_left hratio⟩

/-! ## Looking names up -/

theorem pyEq_str {n : String} {x : Json} : Json.pyEq (.str n) x = true ↔ x = .str n := by
  cases x with
  | str m =>
      rw [Json.pyEq, beq_iff_eq, Json.str.injEq]
      exact eq_comm
  | null => simp [Json.pyEq]
  | bool b => simp [Json.pyEq]
  | num q => simp [Json.pyEq]
  | arr xs => simp [Json.pyEq]
  | obj xs => simp [Json.pyEq]

theorem inValues_str {names : List Json} {n : String} :
    inValues names (.str n) = true ↔ .str n ∈ names := by
  rw [inValues, List.any_eq_true]
  constructor
  · rintro ⟨x, hx, heq⟩
    rwa [pyEq_str.mp heq] at hx
  · intro h
    exact ⟨.str n, h, pyEq_str.mpr rfl⟩

/-- The names that a loop over a field reads, where it does not raise. -/
theorem str_mem_of_field {items names : List Json}
    (h : items.mapM (fun x => x.field "name") = .ok names) {n : String} :
    .str n ∈ names ↔ .str n ∈ items.filterMap itemName := by
  have hall := mapM_eq_ok.mp h
  rw [List.mem_filterMap]
  constructor
  · intro hn
    obtain ⟨x, hx, hfield⟩ := forall₂_mem_right hall hn
    refine ⟨x, hx, ?_⟩
    cases x with
    | obj fields =>
        simp only [Json.field, Except.ok.injEq, Dict.getD] at hfield
        cases hget : Dict.get fields "name" with
        | none => simp [hget] at hfield
        | some v => simpa [hget, itemName] using hfield
    | _ => simp [Json.field, raise] at hfield
  · rintro ⟨x, hx, hname⟩
    obtain ⟨v, hv, hfield⟩ := forall₂_mem_left hall hx
    cases x with
    | obj fields =>
        simp only [itemName] at hname
        obtain rfl : .str n = v := by simpa [Json.field, Dict.getD, hname] using hfield
        exact hv
    | _ => simp [itemName] at hname

theorem mem_of_hashed {values names : List Json} (h : values.mapM (·.hashed) = .ok names)
    {x : Json} : x ∈ names ↔ x ∈ values := by
  have heq : names = values := by
    have hall := mapM_eq_ok.mp h
    clear h
    induction hall with
    | nil => rfl
    | @cons v w vs ws hvw _ ih =>
        have hw : w = v := by
          cases v with
          | arr xs => simp [Json.hashed, raise] at hvw
          | obj xs => simp [Json.hashed, raise] at hvw
          | null => simpa [Json.hashed] using hvw.symm
          | bool b => simpa [Json.hashed] using hvw.symm
          | num q => simpa [Json.hashed] using hvw.symm
          | str s => simpa [Json.hashed] using hvw.symm
        rw [hw, ih]
  rw [heq]

/-- A field that a loop reads is a list, or it has no items. -/
theorem listedNames_of_loop {source : Content} {field : String} {items names : List Json}
    (hloop : (Dict.getD source field (.arr [])).loop = .ok items)
    (hnames : items.mapM (fun x => x.field "name") = .ok names) {n : String} :
    .str n ∈ names ↔ .str n ∈ listedNames source field := by
  rw [str_mem_of_field hnames, listedNames]
  cases hget : Dict.get source field with
  | none =>
      rw [Dict.getD, hget] at hloop
      obtain rfl := Except.ok.inj hloop
      simp
  | some v =>
      rw [Dict.getD, hget, Option.getD_some] at hloop
      cases v with
      | arr xs =>
          obtain rfl := Except.ok.inj hloop
          rfl
      | obj fields =>
          obtain rfl := Except.ok.inj hloop
          simp [List.filterMap_map, itemName]
      | str text =>
          obtain rfl := Except.ok.inj hloop
          simp [List.filterMap_map, itemName]
      | _ => simp [Json.loop, Json.iter, raise] at hloop

theorem mapM_bind_eq_ok {α β γ : Type} {f : α → Reads β} {g : β → Reads γ} {xs : List α}
    {zs : List γ} (h : xs.mapM (fun x => f x >>= g) = .ok zs) :
    ∃ ys, xs.mapM f = .ok ys ∧ ys.mapM g = .ok zs := by
  induction xs generalizing zs with
  | nil =>
      obtain rfl : [] = zs := by simpa using h
      exact ⟨[], rfl, rfl⟩
  | cons x xs ih =>
      simp only [List.mapM_cons, bind_eq_ok, pure_eq_ok] at h
      obtain ⟨z, ⟨y, hy, hz⟩, zs', hzs, rfl⟩ := h
      obtain ⟨ys, hys, hzs'⟩ := ih hzs
      exact ⟨y :: ys, by simp [List.mapM_cons, hy, hys, pure, Except.pure],
        by simp [List.mapM_cons, hz, hzs', pure, Except.pure]⟩

theorem namesIn_eq_ok {source : Content} {field : String} {names : List Json}
    (h : namesIn source field = .ok names) {n : String} :
    .str n ∈ names ↔ .str n ∈ listedNames source field := by
  obtain ⟨items, hitems, h⟩ := bind_eq_ok.mp h
  obtain ⟨values, hvalues, hhashed⟩ := mapM_bind_eq_ok h
  rw [mem_of_hashed hhashed, listedNames_of_loop hitems hvalues]

theorem timeNames_eq_ok {source : Content} {names : List Json}
    (h : timeNames source = .ok names) {n : String} :
    .str n ∈ names ↔ n ≠ "" ∧ ∃ f ∈ ["columns", "dimensions"], .str n ∈ listedNames source f := by
  obtain ⟨columns, hcolumns, h⟩ := bind_eq_ok.mp h
  obtain ⟨dimensions, hdimensions, h⟩ := bind_eq_ok.mp h
  obtain ⟨values, hvalues, h⟩ := bind_eq_ok.mp h
  obtain ⟨cs, ds, hcs, hds, rfl⟩ : ∃ cs ds, columns.mapM (fun x => x.field "name") = .ok cs ∧
      dimensions.mapM (fun x => x.field "name") = .ok ds ∧ values = cs ++ ds := by
    rw [List.mapM_append] at hvalues
    obtain ⟨cs, hcs, hvalues⟩ := bind_eq_ok.mp hvalues
    obtain ⟨ds, hds, hvalues⟩ := bind_eq_ok.mp hvalues
    exact ⟨cs, ds, hcs, hds, (pure_eq_ok.mp hvalues).symm⟩
  rw [mem_of_hashed h, List.mem_filter, List.mem_append, listedNames_of_loop hcolumns hcs,
    listedNames_of_loop hdimensions hds]
  simp [Json.truthy, and_comm]

/-- The sources of a run are keyed by their names. -/
structure Keyed (py : PyLib) (sources : Dict Content) : Prop where
  nodup : (sources.map (·.1)).Nodup
  named : ∀ p ∈ sources, p.1 = sourceName py p.2

theorem finalSources_keyed (entries : List Entry) :
    Keyed py (finalSources py accepted entries) := by
  have hstep : ∀ (contents : List Content) (d : Dict Content), Keyed py d →
      Keyed py (contents.foldl (setSource py) d) := by
    intro contents
    induction contents with
    | nil => exact fun d h => h
    | cons c contents ih =>
        intro d h
        refine ih _ ⟨Dict.nodup_set h.nodup, ?_⟩
        rintro ⟨k, v⟩ hp
        rcases Dict.mem_set.mp hp with ⟨rfl, rfl⟩ | ⟨-, hmem⟩
        · rfl
        · exact h.named _ hmem
  exact hstep _ [] ⟨by simp, by simp⟩

/-- The source found under a name. -/
theorem Keyed.get_eq_some {sources : Dict Content} (h : Keyed py sources) {s : String}
    {c : Content} : sources.get s = some c ↔
      c ∈ sources.map (·.2) ∧ sourceName py c = s := by
  constructor
  · intro hget
    have hmem := Dict.get_eq_some_mem hget
    exact ⟨List.mem_map_of_mem hmem, (h.named _ hmem).symm⟩
  · rintro ⟨hmem, rfl⟩
    obtain ⟨⟨k, c'⟩, hp, rfl⟩ := List.mem_map.mp hmem
    have hk : k = sourceName py c' := h.named _ hp
    exact Dict.get_of_mem h.nodup (hk ▸ hp)

theorem missingName_str {what n rest : String} {names : List Json} {o : Option String}
    (h : missingName py what names (.str n) rest = .ok o) : o = none ↔ .str n ∈ names := by
  have hhashed : (Json.str n).hashed = .ok (.str n) := rfl
  rw [missingName, hhashed, ok_bind] at h
  rw [← inValues_str]
  split at h
  · rename_i hin
    simp [← pure_eq_ok.mp h, hin]
  · rename_i hin
    simp [← pure_eq_ok.mp h, hin]

theorem firstMissing_ok {α : Type} {check : α → Reads (Option String)} {P : α → Prop}
    {xs : List α} (hcheck : ∀ x ∈ xs, ∀ o, check x = .ok o → (o = none ↔ P x))
    {o : Option String} (h : firstMissing check xs = .ok o) : o = none ↔ ∀ x ∈ xs, P x := by
  induction xs with
  | nil =>
      obtain rfl := Except.ok.inj h
      simp
  | cons x xs ih =>
      obtain ⟨first, hfirst, h⟩ := bind_eq_ok.mp h
      have hx := hcheck x List.mem_cons_self first hfirst
      rw [List.forall_mem_cons, ← hx]
      cases first with
      | none =>
          rw [ih (fun y hy => hcheck y (List.mem_cons_of_mem x hy)) h]
          simp
      | some reason =>
          obtain rfl := pure_eq_ok.mp h
          simp

/-- The names of several sources. -/
theorem mem_flatten_of_mapM {sources : List Content} {f : Content → Reads (List Json)}
    {names : List (List Json)} {P : Content → Prop} {x : Json} (h : sources.mapM f = .ok names)
    (hf : ∀ c ns, f c = .ok ns → (x ∈ ns ↔ P c)) : x ∈ names.flatten ↔ ∃ c ∈ sources, P c := by
  have hall := mapM_eq_ok.mp h
  rw [List.mem_flatten]
  constructor
  · rintro ⟨ns, hns, hx⟩
    obtain ⟨c, hc, hfc⟩ := forall₂_mem_right hall hns
    exact ⟨c, hc, (hf c ns hfc).mp hx⟩
  · rintro ⟨c, hc, hP⟩
    obtain ⟨ns, hns, hfc⟩ := forall₂_mem_left hall hc
    exact ⟨ns, hns, (hf c ns hfc).mpr hP⟩

section Check

variable {sources : Dict Content}

theorem Keyed.has_source (h : Keyed py sources) {s : String} :
    Reference.ExistsIn py (sources.map (·.2)) (.source s) ↔ ∃ c, sources.get s = some c :=
  exists_congr fun _ => h.get_eq_some.symm

theorem Keyed.has_listed (h : Keyed py sources) {s n : String} {fields : List String}
    {source : Content} (hget : sources.get s = some source) :
    Reference.ExistsIn py (sources.map (·.2)) (.listed s fields n) ↔
      ∃ f ∈ fields, .str n ∈ listedNames source f := by
  constructor
  · rintro ⟨c, hc, hname, hn⟩
    have hsame : source = c :=
      Option.some.inj (hget.symm.trans (h.get_eq_some.mpr ⟨hc, hname⟩))
    rw [hsame]
    exact hn
  · intro hn
    obtain ⟨hmem, hname⟩ := h.get_eq_some.mp hget
    exact ⟨source, hmem, hname, hn⟩

/-- The check of a measure on its source, and of the dimensions it is ordered by. -/
theorem missingInSource_measure (hkeyed : Keyed py sources) {fields : Content} {s m : String}
    {order : List String} {kind : Json}
    (hkind : kind = .str "single" ∨ kind = .str "cumulative")
    (hsource : (Json.obj fields).item "source" = .ok (.str s))
    (hmeasure : (Json.obj fields).item "measure" = .ok (.str m))
    (horder : (Dict.getD fields "order_by" (.arr [])).loop = .ok (order.map .str))
    {o : Option String} (h : missingInSource py sources (.obj fields) kind = .ok o) :
    o = none ↔ Reference.ExistsIn py (sources.map (·.2)) (.source s) ∧
      Reference.ExistsIn py (sources.map (·.2)) (.listed s ["measures"] m) ∧
      ∀ d ∈ order, Reference.ExistsIn py (sources.map (·.2)) (.listed s ["dimensions"] d) := by
  have hhashed : (Json.str s).hashed = .ok (.str s) := rfl
  rw [missingInSource, hsource, ok_bind, hhashed, ok_bind] at h
  rw [hkeyed.has_source]
  cases hget : Dict.get sources s with
  | none =>
      simp only [hget] at h
      obtain rfl := pure_eq_ok.mp h
      simp
  | some source =>
      simp only [hget, if_pos hkind, hmeasure, ok_bind] at h
      obtain ⟨measures, hmeasures, h⟩ := bind_eq_ok.mp h
      obtain ⟨first, hfirst, h⟩ := bind_eq_ok.mp h
      have hm := missingName_str hfirst
      simp only [hkeyed.has_listed hget, List.mem_singleton, exists_eq_left,
        ← namesIn_eq_ok hmeasures, ← hm]
      cases first with
      | some reason =>
          obtain rfl := pure_eq_ok.mp h
          simp
      | none =>
          obtain ⟨dimensions, hdimensions, h⟩ := bind_eq_ok.mp h
          obtain ⟨orderBy, horderBy, h⟩ := bind_eq_ok.mp h
          rw [horder] at horderBy
          obtain rfl := Except.ok.inj horderBy
          have hcheck : ∀ x ∈ order.map Json.str, ∀ o', missingName py "dimension" dimensions x
              s!" on {py.repr (.str s)}" = .ok o' → (o' = none ↔ x ∈ dimensions) := by
            intro x hx o' ho'
            obtain ⟨d, -, rfl⟩ := List.mem_map.mp hx
            exact missingName_str ho'
          rw [firstMissing_ok hcheck h, List.forall_mem_map]
          simp only [← namesIn_eq_ok hdimensions]
          simp

/-- The check of a column on its source. -/
theorem missingInSource_column (hkeyed : Keyed py sources) {s c : String} {o : Option String}
    (h : missingInSource py sources (CandidateBinding.distinctCount s c).dump
      (.str "distinct_count") = .ok o) :
    o = none ↔ Reference.ExistsIn py (sources.map (·.2)) (.source s) ∧
      Reference.ExistsIn py (sources.map (·.2)) (.listed s ["columns", "dimensions"] c) := by
  have hsource : (CandidateBinding.distinctCount s c).dump.item "source" = .ok (.str s) := rfl
  have hcolumn : (CandidateBinding.distinctCount s c).dump.item "distinct_on" =
      .ok (.str c) := rfl
  have hhashed : (Json.str s).hashed = .ok (.str s) := rfl
  have hkind : ¬ ((Json.str "distinct_count") = .str "single" ∨
      (Json.str "distinct_count") = .str "cumulative") := by simp
  rw [missingInSource, hsource, ok_bind, hhashed, ok_bind] at h
  rw [hkeyed.has_source]
  cases hget : Dict.get sources s with
  | none =>
      simp only [hget] at h
      obtain rfl := pure_eq_ok.mp h
      simp
  | some source =>
      simp only [hget, if_neg hkind, hcolumn, ok_bind] at h
      obtain ⟨columns, hcolumns, h⟩ := bind_eq_ok.mp h
      obtain ⟨dimensions, hdimensions, h⟩ := bind_eq_ok.mp h
      rw [missingName_str h, List.mem_append, namesIn_eq_ok hcolumns, namesIn_eq_ok hdimensions,
        hkeyed.has_listed hget]
      simp

/-- The check of a candidate against the sources, where it does not raise. -/
theorem missingInState_iff (hkeyed : Keyed py sources) {b : CandidateBinding}
    (hkind : b.kindText ≠ "ratio") {o : Option String}
    (h : missingInState py sources b.dump (.str b.kindText) = .ok o) :
    o = none ↔ ∀ r ∈ b.checked, r.ExistsIn py (sources.map (·.2)) := by
  -- each kind checks the fields it has
  cases b with
  | single s m =>
      have hcheck : missingInSource py sources (CandidateBinding.single s m).dump (.str "single") =
          .ok o := h
      have horder : (Dict.getD [("kind", Json.str "single"), ("source", .str s),
          ("measure", .str m)] "order_by" (.arr [])).loop = .ok (([] : List String).map .str) := rfl
      rw [missingInSource_measure hkeyed (.inl rfl) rfl rfl horder hcheck]
      simp [CandidateBinding.checked]
  | cumulative s m order w g p =>
      have hcheck : missingInSource py sources (CandidateBinding.cumulative s m order w g p).dump
          (.str "cumulative") = .ok o := h
      rw [missingInSource_measure hkeyed (.inr rfl) rfl rfl rfl hcheck]
      simp [CandidateBinding.checked]
  | distinctCount s c =>
      have hcheck : missingInSource py sources (CandidateBinding.distinctCount s c).dump
          (.str "distinct_count") = .ok o := h
      rw [missingInSource_column hkeyed hcheck]
      simp [CandidateBinding.checked]
  | ratio n d => exact absurd rfl hkind
  | derived expr inputs =>
      obtain rfl : none = o := pure_eq_ok.mp h
      simp [CandidateBinding.checked]
  | offset base t shift =>
      obtain ⟨names, hnames, h⟩ : ∃ names, (sources.map (·.2)).mapM
          (fun source => namesIn source "dimensions") = .ok names ∧
          missingName py "dimension" names.flatten (.str t) "" = .ok o := bind_eq_ok.mp h
      rw [missingName_str h, mem_flatten_of_mapM hnames fun c ns hns => namesIn_eq_ok hns]
      simp [CandidateBinding.checked, Reference.ExistsIn]
  | conversion bm cm entity bt ct calculation w properties =>
      obtain ⟨names, hnames, h⟩ := bind_eq_ok.mp
        (show ((sources.map (·.2)).mapM timeNames >>= fun names =>
          firstMissing (fun field => do
            missingName py "dimension" names.flatten
              (← (CandidateBinding.conversion bm cm entity bt ct calculation w
                properties).dump.item field) "") ["base_time", "conversion_time"]) = .ok o from h)
      have htime : ∀ n, .str n ∈ names.flatten ↔
          (Reference.column n).ExistsIn py (sources.map (·.2)) := by
        intro n
        rw [mem_flatten_of_mapM hnames fun c ns hns => timeNames_eq_ok hns]
        simp only [Reference.ExistsIn]
        constructor
        · rintro ⟨c, hc, hne, hn⟩
          exact ⟨hne, c, hc, hn⟩
        · rintro ⟨hne, c, hc, hn⟩
          exact ⟨c, hc, hne, hn⟩
      obtain ⟨first, hfirst, h⟩ := bind_eq_ok.mp h
      have hb := missingName_str (show missingName py "dimension" names.flatten (.str bt) "" =
        .ok first from hfirst)
      rw [htime] at hb
      simp only [CandidateBinding.checked, List.forall_mem_cons, List.not_mem_nil, false_imp_iff,
        implies_true, and_true, ← hb]
      cases first with
      | some reason =>
          obtain rfl := pure_eq_ok.mp h
          simp
      | none =>
          obtain ⟨second, hsecond, h⟩ := bind_eq_ok.mp h
          have hc := missingName_str (show missingName py "dimension" names.flatten (.str ct) "" =
            .ok second from hsecond)
          rw [htime] at hc
          rw [← hc]
          cases second with
          | some reason =>
              obtain rfl := pure_eq_ok.mp h
              simp
          | none =>
              obtain rfl := Except.ok.inj h
              simp

end Check

/-! ## One candidate -/

/-- A candidate that the resolver adds once its metrics are bound. -/
def Readable (py : PyLib) (accepted : AcceptedStore) (sources : Dict Content) (c : Candidate) :
    Prop :=
  accepted.get (c.target py) = none ∧ ∀ r ∈ c.binding.checked, r.ExistsIn py (sources.map (·.2))

/-- The metrics bound after a candidate, which is added where it can be. -/
noncomputable def boundAfter (py : PyLib) (accepted : AcceptedStore) (sources : Dict Content)
    (bound : List String) (cs : List Candidate) : List String :=
  letI := Classical.decPred (Readable py accepted sources)
  Closure.fireAll Candidate.metric (fun c => c.binding.needs) (Readable py accepted sources) bound
    cs

/-- The decision for a candidate. -/
structure CandidateEntry (py : PyLib) (accepted : AcceptedStore) (sources : Dict Content)
    (bound : List String) (c : Candidate) (e : Entry) : Prop where
  target : e.target = c.target py
  added : Readable py accepted sources c → (∀ k ∈ c.binding.needs, k ∈ bound) →
    e.decision = .add
  skipped : ¬ (Readable py accepted sources c ∧ ∀ k ∈ c.binding.needs, k ∈ bound) →
    e.decision = .noOp

theorem has_outcome_strip (c : Candidate) :
    Dict.has (c.proposal py).strip.content answerOutcomeSentinel = false := by
  rw [Bool.eq_false_iff]
  intro h
  obtain ⟨p, hp, hkey⟩ := List.mem_map.mp (Dict.has_iff.mp h)
  have hmem : p ∈ (c.proposal py).content := (List.mem_filter.mp hp).1
  have hkeys : p.1 ∈ (c.proposal py).content.map (·.1) := List.mem_map_of_mem hmem
  rw [hkey] at hkeys
  simp only [Candidate.proposal, List.map_append, List.mem_append] at hkeys
  rcases hkeys with hkeys | hkeys
  · simp [answerOutcomeSentinel, candidateSentinel] at hkeys
  · split at hkeys
    · simp at hkeys
    · simp [answerOutcomeSentinel] at hkeys

/-- Once its metrics are bound, a candidate is checked against the sources. -/
theorem missingReference_of_needs {sources : Dict Content} (hkeyed : Keyed py sources)
    {bound : List String} {c : Candidate} (hneeds : ∀ k ∈ c.binding.needs, k ∈ bound)
    {o : Option String}
    (h : missingReference py sources bound (c.proposal py).strip.content = .ok o) :
    o = none ↔ ∀ r ∈ c.binding.checked, r.ExistsIn py (sources.map (·.2)) := by
  by_cases hratio : c.binding.kindText = "ratio"
  · have hnone : missingReference py sources bound (c.proposal py).strip.content = .ok none :=
      (missingReference_eq_none c).mpr ⟨hneeds, Or.inl hratio⟩
    obtain rfl := Except.ok.inj (h.symm.trans hnone)
    cases hb : c.binding with
    | ratio n d => simp [CandidateBinding.checked]
    | _ => simp [hb, CandidateBinding.kindText] at hratio
  · have hne : ¬ (Json.str c.binding.kindText = .str "ratio") := by simpa using hratio
    have hnil : (c.binding.needs.map Json.str).filter (fun r => !inTexts bound r) = [] := by
      rw [List.filter_eq_nil_iff, List.forall_mem_map]
      simpa [inTexts_str] using hneeds
    rw [missingReference, item_canonical_strip, ok_bind, item_kind_dump, ok_bind, if_neg hne,
      metricReferences_dump, ok_bind, hnil] at h
    exact missingInState_iff hkeyed hratio h

theorem boundAfter_singleton {sources : Dict Content} {bound : List String} {c : Candidate} :
    boundAfter py accepted sources bound [c] =
      letI := Classical.decPred (Readable py accepted sources)
      Closure.fire Candidate.metric (fun c => c.binding.needs) (Readable py accepted sources)
        bound c :=
  rfl

/-- One candidate: the metrics bound after it, and its entry. -/
theorem resolveCandidate_fire {sources : Dict Content} (hkeyed : Keyed py sources)
    {bound bound' : List String} {c : Candidate} {e : Entry}
    (h : resolveCandidate py accepted sources (fun p => reconcileOne py policy p none) bound
      (c.proposal py) = .ok (e, bound')) :
    bound' = boundAfter py accepted sources bound [c] ∧
      CandidateEntry py accepted sources bound c e := by
  rw [boundAfter_singleton, Closure.fire]
  unfold resolveCandidate at h
  -- an accepted file keeps the candidate out, else its references decide
  cases hget : accepted.get (c.proposal py).target with
  | some f =>
      rw [hget] at h
      obtain ⟨rfl, rfl⟩ := Prod.mk.inj (pure_eq_ok.mp h)
      have hno : ¬ Readable py accepted sources c := by
        rintro ⟨hnone, -⟩
        have hget' : accepted.get (c.target py) = some f := hget
        simp [hnone] at hget'
      exact ⟨(if_neg fun hand => hno hand.1).symm, rfl, fun hr => absurd hr hno, fun _ => rfl⟩
  | none =>
      rw [hget] at h
      obtain ⟨missing, hmissing, h⟩ := bind_eq_ok.mp h
      cases missing with
      | some reason =>
          obtain ⟨rfl, rfl⟩ := Prod.mk.inj (pure_eq_ok.mp h)
          have hno : ¬ (Readable py accepted sources c ∧ ∀ k ∈ c.binding.needs, k ∈ bound) := by
            rintro ⟨⟨-, hchecked⟩, hneeds⟩
            simpa using (missingReference_of_needs hkeyed hneeds hmissing).mpr hchecked
          exact ⟨(if_neg hno).symm, rfl, fun hr hneeds => absurd ⟨hr, hneeds⟩ hno, fun _ => rfl⟩
      | none =>
          have hneeds := ((missingReference_eq_none c).mp hmissing).1
          have hr : Readable py accepted sources c :=
            ⟨hget, (missingReference_of_needs hkeyed hneeds hmissing).mp rfl⟩
          obtain ⟨entry, hentry, h⟩ := bind_eq_ok.mp h
          obtain ⟨metric, hmetric, h⟩ := bind_eq_ok.mp h
          obtain ⟨rfl, rfl⟩ := Prod.mk.inj (pure_eq_ok.mp h)
          rw [candidateMetric_strip] at hmetric
          obtain rfl := Except.ok.inj hmetric
          have hnew : reconcileOne py policy (c.proposal py).strip none = .ok entry := hentry
          have htarget := (reconcileOne_decided hnew).1
          have hadd : entry.decision = .add := by
            simp only [reconcileOne, has_outcome_strip, Bool.false_eq_true, if_false,
              pure_eq_ok] at hnew
            rw [← hnew]
          exact ⟨(if_pos ⟨hr, hneeds⟩).symm, htarget, fun _ _ => hadd,
            fun hno => absurd ⟨hr, hneeds⟩ hno⟩

/-! ## Candidates in a row -/

theorem resolveReady_append {sources : Dict Content} {reconcileNew : Proposal → Reads Entry}
    {bound mid bound' : List String} {ps qs : List Proposal} {es fs : List Entry}
    (hps : resolveReady py accepted sources reconcileNew bound ps = .ok (es, mid))
    (hqs : resolveReady py accepted sources reconcileNew mid qs = .ok (fs, bound')) :
    resolveReady py accepted sources reconcileNew bound (ps ++ qs) = .ok (es ++ fs, bound') := by
  induction ps generalizing bound es with
  | nil =>
      obtain ⟨rfl, rfl⟩ := Prod.mk.inj (Except.ok.inj hps)
      exact hqs
  | cons p ps ih =>
      obtain ⟨⟨e, b⟩, hone, hps⟩ := bind_eq_ok.mp hps
      obtain ⟨⟨es', b'⟩, hrest, hps⟩ := bind_eq_ok.mp hps
      obtain ⟨rfl, rfl⟩ := Prod.mk.inj (pure_eq_ok.mp hps)
      rw [List.cons_append, resolveReady, hone, ok_bind]
      simp only [ih hrest, ok_bind]
      rfl

/-- Each candidate of a row is decided with the metrics bound by those before it. -/
theorem resolveReady_entry {sources : Dict Content} (hkeyed : Keyed py sources)
    {bound bound' : List String} {cs : List Candidate} {es : List Entry}
    (h : resolveReady py accepted sources (fun p => reconcileOne py policy p none) bound
      (cs.map (·.proposal py)) = .ok (es, bound')) :
    (∀ pre c post, cs = pre ++ c :: post → ∃ e ∈ es,
      CandidateEntry py accepted sources (boundAfter py accepted sources bound pre) c e) ∧
    ∀ e ∈ es, ∃ pre c post, cs = pre ++ c :: post ∧
      CandidateEntry py accepted sources (boundAfter py accepted sources bound pre) c e := by
  induction cs generalizing bound es with
  | nil =>
      obtain ⟨rfl, -⟩ := Prod.mk.inj (Except.ok.inj h)
      exact ⟨by simp, by simp⟩
  | cons d cs ih =>
      obtain ⟨⟨e, mid⟩, hone, h⟩ := bind_eq_ok.mp h
      obtain ⟨⟨es', last⟩, hrest, h⟩ := bind_eq_ok.mp h
      obtain ⟨rfl, rfl⟩ := Prod.mk.inj (pure_eq_ok.mp h)
      obtain ⟨rfl, hentry⟩ := resolveCandidate_fire hkeyed hone
      obtain ⟨hall, hentries⟩ := ih hrest
      constructor
      · intro pre c post hsplit
        cases pre with
        | nil =>
            obtain ⟨rfl, rfl⟩ := List.cons.inj hsplit
            exact ⟨e, List.mem_cons_self, hentry⟩
        | cons d' pre =>
            obtain ⟨rfl, rfl⟩ := List.cons.inj hsplit
            obtain ⟨e', he', hentry'⟩ := hall pre c post rfl
            exact ⟨e', List.mem_cons_of_mem e he', hentry'⟩
      · intro x hx
        rcases List.mem_cons.mp hx with rfl | hx
        · exact ⟨[], d, cs, rfl, hentry⟩
        · obtain ⟨pre, c, post, rfl, hentry'⟩ := hentries x hx
          exact ⟨d :: pre, c, post, rfl, hentry'⟩

/-! ## Rounds -/

/-- A candidate refers to a metric that another one of the list binds. -/
abbrev Waits (cs : List Candidate) (c : Candidate) : Prop :=
  Closure.Waits Candidate.metric (fun c => c.binding.needs) cs c

theorem waitsForAnother_proposal {cs : List Candidate} {i : Nat} {c : Candidate} :
    waitsForAnother py (cs.map (·.proposal py)) (c.proposal py) i =
      .ok (decide (∃ d ∈ cs.eraseIdx i, d.metric ∈ c.binding.needs)) := by
  have hmetrics : ((cs.map (·.proposal py)).eraseIdx i).mapM
      (fun q => candidateMetric py q.content) = .ok ((cs.eraseIdx i).map (·.metric)) := by
    rw [List.eraseIdx_map, mapM_eq_ok, List.forall₂_map_right_iff, List.forall₂_map_left_iff,
      List.forall₂_same]
    exact fun d _ => candidateMetric_proposal d
  have hitem : Dict.item (c.proposal py).content "canonical" = .ok c.binding.dump := rfl
  rw [waitsForAnother, hmetrics, ok_bind, hitem, ok_bind, metricReferences_dump, ok_bind]
  congr 1
  rw [Bool.eq_iff_iff, List.any_map, List.any_eq_true, decide_eq_true_iff]
  simp only [Function.comp_apply, inTexts_str, decide_eq_true_eq, List.mem_map]
  constructor
  · rintro ⟨k, hk, d, hd, rfl⟩
    exact ⟨d, hd, hk⟩
  · rintro ⟨d, hd, hk⟩
    exact ⟨d.metric, hk, d, hd, rfl⟩

theorem filter_zip_map {α β : Type} (f : α → Bool) (g : α → β) (xs : List α) :
    (((xs.map g).zip (xs.map f)).filter (·.2)).map (·.1) = (xs.filter f).map g := by
  induction xs with
  | nil => rfl
  | cons x xs ih =>
      rw [List.map_cons, List.map_cons, List.zip_cons_cons, List.filter_cons, List.filter_cons]
      cases hx : f x with
      | true => simp [ih]
      | false => simpa using ih

theorem waitingOf_proposals {cs : List Candidate} (hnd : cs.Nodup) :
    waitingOf py (cs.map (·.proposal py)) =
      .ok ((cs.filter fun c => decide (Waits cs c)).map (·.proposal py)) := by
  have hflags : (cs.map (·.proposal py)).zipIdx.mapM (fun q =>
      waitsForAnother py (cs.map (·.proposal py)) q.1 q.2) =
      .ok (cs.map fun c => decide (Waits cs c)) := by
    have hcs : ∀ f : Candidate → Bool, cs.map f = cs.zipIdx.map fun q => f q.1 := by
      intro f
      conv_lhs => rw [← List.zipIdx_map_fst 0 cs, List.map_map]
      rfl
    rw [hcs, List.zipIdx_map, mapM_eq_ok, List.forall₂_map_right_iff,
      List.forall₂_map_left_iff, List.forall₂_same]
    rintro ⟨c, i⟩ hq
    obtain ⟨hi, hc⟩ : ∃ hi : i < cs.length, cs[i] = c := by
      obtain ⟨hi, hget⟩ := List.mem_zipIdx_iff_getElem?.mp hq |> List.getElem?_eq_some_iff.mp
      exact ⟨hi, hget⟩
    show waitsForAnother py (cs.map (·.proposal py)) (c.proposal py) i = _
    rw [waitsForAnother_proposal]
    congr 2
    rw [← hnd.erase_getElem i hi, hc]
    simp only [Closure.Waits, hnd.mem_erase_iff, and_assoc, eq_iff_iff]
    exact exists_congr fun d => and_left_comm
  rw [waitingOf, hflags, ok_bind]
  congr 1
  exact filter_zip_map _ _ cs

/-- Candidates at distinct files are distinct proposals. -/
def DistinctTargets (py : PyLib) (cs : List Candidate) : Prop := (cs.map (·.target py)).Nodup

theorem DistinctTargets.nodup {cs : List Candidate} (h : DistinctTargets py cs) : cs.Nodup :=
  h.of_map _

theorem DistinctTargets.eq_of_target {cs : List Candidate} (h : DistinctTargets py cs)
    {c d : Candidate} (hc : c ∈ cs) (hd : d ∈ cs) (ht : c.target py = d.target py) : c = d :=
  List.inj_on_of_nodup_map h hc hd ht

theorem DistinctTargets.filter {cs : List Candidate} (h : DistinctTargets py cs)
    (f : Candidate → Bool) : DistinctTargets py (cs.filter f) :=
  h.sublist (List.filter_sublist.map _)

theorem isIn_proposals {cs ws : List Candidate} (h : DistinctTargets py cs)
    (hws : ∀ d ∈ ws, d ∈ cs) {c : Candidate} (hc : c ∈ cs) :
    (c.proposal py).isIn (ws.map (·.proposal py)) = true ↔ c ∈ ws := by
  rw [Proposal.isIn, List.any_eq_true]
  constructor
  · rintro ⟨q, hq, hsame⟩
    obtain ⟨d, hd, rfl⟩ := List.mem_map.mp hq
    have ht : c.target py = d.target py := by
      rcases Bool.or_eq_true_iff.mp hsame with heq | heq
      · exact congrArg (·.target) (decide_eq_true_iff.mp heq)
      · simp only [Proposal.pyEq, Bool.and_eq_true, beq_iff_eq] at heq
        exact heq.1.1.1.1.1.1.1
    rw [h.eq_of_target hc (hws d hd) ht]
    exact hd
  · intro hmem
    exact ⟨c.proposal py, List.mem_map_of_mem hmem, by simp⟩

/-- The candidates of a round that are not among the waiting ones are those that do not wait. -/
theorem ready_proposals {cs : List Candidate} (h : DistinctTargets py cs) :
    (cs.map (·.proposal py)).filter (fun p => !p.isIn
      ((cs.filter fun c => decide (Waits cs c)).map (·.proposal py))) =
      (cs.filter fun c => decide (¬ Waits cs c)).map (·.proposal py) := by
  rw [List.filter_map]
  congr 1
  refine List.filter_congr fun c hc => ?_
  have hin : (c.proposal py).isIn ((cs.filter fun c => decide (Waits cs c)).map
      (·.proposal py)) = true ↔ c ∈ cs.filter fun c => decide (Waits cs c) :=
    isIn_proposals h (fun d hd => (List.mem_filter.mp hd).1) hc
  rw [Function.comp_apply, Bool.eq_iff_iff, Bool.not_eq_true', ← Bool.not_eq_true, hin]
  simp [hc]

/-- Where some candidate does not wait, a round takes those that do not. -/
theorem roundOf_proposals {cs : List Candidate} (h : DistinctTargets py cs)
    (hready : cs.filter (fun c => decide (¬ Waits cs c)) ≠ []) :
    roundOf (cs.map (·.proposal py))
      ((cs.filter fun c => decide (Waits cs c)).map (·.proposal py)) =
      ((cs.filter fun c => decide (¬ Waits cs c)).map (·.proposal py),
        (cs.filter fun c => decide (Waits cs c)).map (·.proposal py)) := by
  have hne : ((cs.filter fun c => decide (¬ Waits cs c)).map (·.proposal py)).isEmpty = false := by
    rw [List.isEmpty_eq_false_iff]
    exact fun hnil => hready (List.map_eq_nil_iff.mp hnil)
  simp only [roundOf, ready_proposals h, hne, Bool.false_eq_true, if_false]

/-- Where every candidate waits, a round takes them all. -/
theorem roundOf_waiting {cs : List Candidate} (h : DistinctTargets py cs)
    (hready : cs.filter (fun c => decide (¬ Waits cs c)) = []) :
    roundOf (cs.map (·.proposal py))
      ((cs.filter fun c => decide (Waits cs c)).map (·.proposal py)) =
      ((cs.filter fun c => decide (Waits cs c)).map (·.proposal py), []) := by
  simp only [roundOf, ready_proposals h, hready, List.map_nil, List.isEmpty_nil, if_true]

theorem resolveRounds_succ {sources : Dict Content} {reconcileNew : Proposal → Reads Entry}
    {n : Nat} {bound : List String} {pending waiting now later : List Proposal} {es : List Entry}
    (hpending : pending ≠ []) (hwaiting : waitingOf py pending = .ok waiting)
    (hround : roundOf pending waiting = (now, later))
    (h : resolveRounds py accepted sources reconcileNew (n + 1) bound pending = .ok es) :
    ∃ es₁ mid es₂, resolveReady py accepted sources reconcileNew bound now = .ok (es₁, mid) ∧
      resolveRounds py accepted sources reconcileNew n mid later = .ok es₂ ∧ es = es₁ ++ es₂ := by
  rw [resolveRounds, hwaiting, ok_bind, hround] at h
  · obtain ⟨⟨es₁, mid⟩, hfirst, h⟩ := bind_eq_ok.mp h
    obtain ⟨es₂, hrest, h⟩ := bind_eq_ok.mp h
    exact ⟨es₁, mid, es₂, hfirst, hrest, (pure_eq_ok.mp h).symm⟩
  · exact hpending

/-- The candidates in the order of their turns: round by round those that refer to no other pending
one, and a remainder in which each one does as it stands. -/
abbrev turns (n : Nat) (cs : List Candidate) : List Candidate :=
  Closure.turns Candidate.metric (fun c => c.binding.needs) n cs

/-- The rounds decide the candidates one after the other, in the order of their turns. -/
theorem resolveRounds_turns {sources : Dict Content} {reconcileNew : Proposal → Reads Entry}
    {n : Nat} {bound : List String} {cs : List Candidate} {es : List Entry}
    (hn : cs.length ≤ n) (hnd : DistinctTargets py cs)
    (h : resolveRounds py accepted sources reconcileNew n bound (cs.map (·.proposal py)) = .ok es) :
    ∃ bound', resolveReady py accepted sources reconcileNew bound
      ((turns n cs).map (·.proposal py)) = .ok (es, bound') := by
  induction n generalizing bound cs es with
  | zero =>
      obtain rfl : cs = [] := List.length_eq_zero_iff.mp (Nat.le_zero.mp hn)
      obtain rfl := Except.ok.inj h
      exact ⟨bound, rfl⟩
  | succ n ih =>
      by_cases hnil : cs = []
      · subst hnil
        obtain rfl := Except.ok.inj h
        exact ⟨bound, rfl⟩
      · have hpending : cs.map (·.proposal py) ≠ [] := fun h => hnil (List.map_eq_nil_iff.mp h)
        have hwaiting : waitingOf py (cs.map (·.proposal py)) = _ := waitingOf_proposals hnd.nodup
        rw [turns, Closure.turns]
        by_cases hready : cs.filter (fun c => decide (¬ Waits cs c)) = []
        · -- every candidate waits, so the round takes them all
          have hall : cs.filter (fun c => decide (Waits cs c)) = cs := by
            rw [List.filter_eq_self]
            intro c hc
            simpa using List.filter_eq_nil_iff.mp hready c hc
          obtain ⟨es₁, mid, es₂, hfirst, hrest, rfl⟩ :=
            resolveRounds_succ hpending hwaiting (roundOf_waiting hnd hready) h
          obtain rfl : es₂ = [] := by
            cases n with
            | zero => exact (Except.ok.inj hrest).symm
            | succ n => exact (Except.ok.inj hrest).symm
          rw [hall] at hfirst
          rw [if_pos hready, List.append_nil]
          exact ⟨mid, hfirst⟩
        · obtain ⟨es₁, mid, es₂, hfirst, hrest, rfl⟩ :=
            resolveRounds_succ hpending hwaiting (roundOf_proposals hnd hready) h
          have hlen : (cs.filter fun c => decide (Waits cs c)).length < cs.length :=
            Closure.length_waiting_lt hready
          obtain ⟨bound', hlater⟩ := ih (by omega) (hnd.filter _) hrest
          rw [if_neg hready, List.map_append]
          exact ⟨bound', resolveReady_append hfirst hlater⟩

/-! ## The least fixpoint -/

/-- Everything the resolver looks up for a candidate without a file is in the least state that has
the facts as the resolver reads them: the accepted ones, and the sources that land. -/
def FoundByResolver (py : PyLib) (accepted : AcceptedStore) (entries : List Entry)
    (cs : List Candidate) (c : Candidate) : Prop :=
  Closure.CanFire Candidate.metric (fun c => c.binding.needs)
    (Readable py accepted (finalSources py accepted entries)) (· ∈ acceptedBound py accepted) cs c

/-- What a candidate refers to is in the least state the run leaves exactly where it is in the one
that the resolver reads. -/
def SameReferences (py : PyLib) (accepted : AcceptedStore) (entries : List Entry)
    (pruned : List String) (cs : List Candidate) : Prop :=
  ∀ c ∈ cs, accepted.get (c.target py) = none → (FoundByResolver py accepted entries cs c ↔
    ReferencesExist py accepted (stateAfter py accepted entries pruned) cs c)

/-- Of the candidates that refer to each other in a circle, or to one that does, no two that the
resolver finds everything of need each other, unless the metric is bound already. -/
def NoCircularNeed (py : PyLib) (accepted : AcceptedStore) (entries : List Entry)
    (cs : List Candidate) : Prop :=
  Closure.NoStuckNeed Candidate.metric (fun c => c.binding.needs)
    (Readable py accepted (finalSources py accepted entries)) (acceptedBound py accepted) cs

/-- In every order, a candidate without a file is added if everything it refers to is in the least
state the run leaves, and is a no-op otherwise, as is one with a file. -/
def LeastDecisions (py : PyLib) (policy : AutoApplyConfig) (accepted : AcceptedStore)
    (entries : List Entry) (pruned : List String) (cs : List Candidate) : Prop :=
  ∀ cs' es, cs.Perm cs' →
    resolveCandidates py accepted entries (fun p => reconcileOne py policy p none)
      (cs'.map (·.proposal py)) = .ok es →
    ∀ c ∈ cs, (∃ e ∈ es, e.target = c.target py) ∧ ∀ e ∈ es, e.target = c.target py →
      (accepted.get (c.target py) = none ∧ ReferencesExist py accepted
        (stateAfter py accepted entries pruned) cs c → e.decision = .add) ∧
      (¬ (accepted.get (c.target py) = none ∧ ReferencesExist py accepted
        (stateAfter py accepted entries pruned) cs c) → e.decision = .noOp)

/-- What the candidates without a file refer to is in the state the run leaves exactly where the
resolver finds it: nothing they refer to is only in a fact that the run prunes or overwrites, and a
conversion whose times exist matches on columns that do. -/
structure KeepsReferences (py : PyLib) (accepted : AcceptedStore) (entries : List Entry)
    (pruned : List String) (cs : List Candidate) : Prop where
  metrics : ∀ c ∈ cs, accepted.get (c.target py) = none → ∀ k ∈ c.binding.needs,
    k ∈ (stateRead py accepted entries).metrics ↔
      k ∈ (stateAfter py accepted entries pruned).metrics
  sources : ∀ c ∈ cs, accepted.get (c.target py) = none → ∀ r ∈ c.binding.checked,
    r.ExistsIn py (stateRead py accepted entries).sources ↔
      r.ExistsIn py (stateAfter py accepted entries pruned).sources
  matched : ∀ c ∈ cs, accepted.get (c.target py) = none →
    (∀ r ∈ c.binding.checked, r.ExistsIn py (stateAfter py accepted entries pruned).sources) →
    ∀ r ∈ c.binding.matched, r.ExistsIn py (stateAfter py accepted entries pruned).sources

section Main

variable {entries : List Entry} {pruned : List String} {cs : List Candidate}

theorem KeepsReferences.readable_iff (h : KeepsReferences py accepted entries pruned cs)
    {c : Candidate} (hc : c ∈ cs) : Readable py accepted (finalSources py accepted entries) c ↔
      Addable py accepted (stateAfter py accepted entries pruned) c := by
  refine and_congr_right fun hnone => ?_
  have hchecked : (∀ r ∈ c.binding.checked,
      r.ExistsIn py ((finalSources py accepted entries).map (·.2))) ↔
      ∀ r ∈ c.binding.checked, r.ExistsIn py (stateAfter py accepted entries pruned).sources :=
    forall₂_congr fun r hr => h.sources c hc hnone r hr
  rw [hchecked, CandidateBinding.references, List.forall_mem_append]
  exact ⟨fun hall => ⟨hall, h.matched c hc hnone hall⟩, fun hall => hall.1⟩

/-- The resolver and the state the run leaves derive the same metrics. -/
theorem KeepsReferences.derives_iff (h : KeepsReferences py accepted entries pruned cs)
    {c : Candidate} (hc : c ∈ cs) (hnone : accepted.get (c.target py) = none) {k : String}
    (hk : k ∈ c.binding.needs) :
    Closure.Derives Candidate.metric (fun c => c.binding.needs)
        (Readable py accepted (finalSources py accepted entries)) (· ∈ acceptedBound py accepted)
        cs k ↔
      LeastMetrics py accepted (stateAfter py accepted entries pruned) cs k := by
  constructor
  · intro hd
    exact hd.congr_needed (fun d hd hnone k hk => (h.metrics d hd hnone k hk).mp)
      (fun d hd hr => ⟨hr.1, (h.readable_iff hd).mp hr⟩) ⟨c, hc, hnone, hk⟩
  · intro hd
    exact hd.congr_needed (fun d hd hnone k hk => (h.metrics d hd hnone k hk).mpr)
      (fun d hd hr => ⟨hr.1, (h.readable_iff hd).mpr hr⟩) ⟨c, hc, hnone, hk⟩

/-- Where nothing is referred to that the run takes away, the resolver finds what exists. -/
theorem KeepsReferences.sameReferences (h : KeepsReferences py accepted entries pruned cs) :
    SameReferences py accepted entries pruned cs := by
  intro c hc hnone
  have hneeds : (∀ k ∈ c.binding.needs, Closure.Derives Candidate.metric
      (fun c => c.binding.needs) (Readable py accepted (finalSources py accepted entries))
        (· ∈ acceptedBound py accepted) cs k) ↔
      ∀ k ∈ c.binding.needs,
        LeastMetrics py accepted (stateAfter py accepted entries pruned) cs k :=
    forall₂_congr fun k hk => h.derives_iff hc hnone hk
  rw [FoundByResolver, Closure.CanFire, h.readable_iff hc, hneeds]
  exact ⟨fun ⟨haddable, hmetrics⟩ => ⟨hmetrics, haddable.2⟩,
    fun ⟨hmetrics, hrefs⟩ => ⟨⟨hnone, hrefs⟩, hmetrics⟩⟩

/-! ## Entries and turns -/

/-- A candidate is added if it finds its metrics bound at its turn, and is a no-op otherwise. -/
theorem resolveCandidates_fires [DecidablePred (Readable py accepted
      (finalSources py accepted entries))] {es : List Entry}
    (h : resolveCandidates py accepted entries (fun p => reconcileOne py policy p none)
      (cs.map (·.proposal py)) = .ok es) (hnd : DistinctTargets py cs) {c : Candidate}
    (hc : c ∈ cs) :
    (∃ e ∈ es, e.target = c.target py) ∧ ∀ e ∈ es, e.target = c.target py →
      (Closure.FiresIn Candidate.metric (fun c => c.binding.needs)
        (Readable py accepted (finalSources py accepted entries)) (acceptedBound py accepted)
        (turns cs.length cs) c → e.decision = .add) ∧
      (¬ Closure.FiresIn Candidate.metric (fun c => c.binding.needs)
        (Readable py accepted (finalSources py accepted entries)) (acceptedBound py accepted)
        (turns cs.length cs) c → e.decision = .noOp) := by
  obtain ⟨bound', hready⟩ := resolveRounds_turns (by simp) hnd h
  rw [List.length_map] at hready
  have hperm : (turns cs.length cs).Perm cs := Closure.turns_perm _ cs
  have hnd' : DistinctTargets py (turns cs.length cs) := (hperm.map _).nodup_iff.mpr hnd
  obtain ⟨hall, hentries⟩ := resolveReady_entry (finalSources_keyed entries) hready
  constructor
  · obtain ⟨pre, post, hsplit⟩ := List.append_of_mem (hperm.mem_iff.mpr hc)
    obtain ⟨e, he, hentry⟩ := hall pre c post hsplit
    exact ⟨e, he, hentry.target⟩
  · intro e he htarget
    obtain ⟨pre, d, post, hsplit, hentry⟩ := hentries e he
    obtain rfl : d = c := hnd'.eq_of_target (by simp [hsplit]) (hperm.mem_iff.mpr hc) (by
      rw [← hentry.target, htarget])
    -- the turn is the only one of the candidate
    have hnotMem := (List.nodup_cons.mp (List.nodup_middle.mp (hsplit ▸ hnd'.nodup))).1
    rw [List.mem_append, not_or] at hnotMem
    have hbound : boundAfter py accepted (finalSources py accepted entries)
        (acceptedBound py accepted) pre = Closure.fireAll Candidate.metric
          (fun c => c.binding.needs) (Readable py accepted (finalSources py accepted entries))
          (acceptedBound py accepted) pre := by
      unfold boundAfter
      congr
    rw [hbound] at hentry
    constructor
    · rintro ⟨pre', post', hsplit', hreadable, hneeds⟩
      obtain ⟨rfl, -, -⟩ := (List.append_cons_inj_of_notMem hnotMem.1 hnotMem.2).mp
        (hsplit.symm.trans hsplit')
      exact hentry.added hreadable hneeds
    · exact fun hno => hentry.skipped fun hyes => hno ⟨pre, post, hsplit, hyes⟩

/-- The decisions are the least state's in every order exactly when the rules of the candidates fire
so in every order. -/
theorem leastDecisions_iff_fires [DecidablePred (Readable py accepted
      (finalSources py accepted entries))] (hnd : DistinctTargets py cs)
    (hall : ∀ cs', cs.Perm cs' → ∃ es, resolveCandidates py accepted entries
      (fun p => reconcileOne py policy p none) (cs'.map (·.proposal py)) = .ok es) :
    LeastDecisions py policy accepted entries pruned cs →
    Closure.FireInEveryOrder Candidate.metric (fun c => c.binding.needs)
      (Readable py accepted (finalSources py accepted entries)) (acceptedBound py accepted) cs
      fun c => accepted.get (c.target py) = none ∧
        ReferencesExist py accepted (stateAfter py accepted entries pruned) cs c := by
  intro h cs' hperm c hc
  obtain ⟨es, hes⟩ := hall cs' hperm
  obtain ⟨⟨e, he, htarget⟩, hdecided⟩ := h cs' es hperm hes c hc
  obtain ⟨hadd, hskip⟩ := hdecided e he htarget
  have hnd' : DistinctTargets py cs' := (hperm.map _).nodup_iff.mp hnd
  obtain ⟨hfires, hno⟩ := (resolveCandidates_fires hes hnd' (hperm.mem_iff.mp hc)).2 e he htarget
  constructor
  · intro hyes
    by_contra hnot
    rw [hskip hnot] at hfires
    cases hfires hyes
  · intro hyes
    by_contra hnot
    rw [hadd hyes] at hno
    cases hno hnot

theorem SameReferences.canFire_iff (h : SameReferences py accepted entries pruned cs)
    {c : Candidate} (hc : c ∈ cs) :
    (accepted.get (c.target py) = none ∧
      ReferencesExist py accepted (stateAfter py accepted entries pruned) cs c) ↔
      FoundByResolver py accepted entries cs c := by
  constructor
  · rintro ⟨hnone, hrefs⟩
    exact (h c hc hnone).mpr hrefs
  · intro hfound
    exact ⟨hfound.1.1, (h c hc hfound.1.1).mp hfound⟩

end Main

/-- **Contract candidates resolve to the least fixpoint** in every order exactly when the run leaves
what they refer to as the resolver reads it, and no two that are found complete need each other in a
circle. -/
theorem candidates_least_fixpoint {entries : List Entry} {addressed : List String}
    {cs : List Candidate} (hnd : DistinctTargets py cs) :
    let pruned := (pruneDisappeared accepted addressed).map (·.target)
    (KeepsReferences py accepted entries pruned cs →
      SameReferences py accepted entries pruned cs) ∧
    (SameReferences py accepted entries pruned cs ∧ NoCircularNeed py accepted entries cs →
      LeastDecisions py policy accepted entries pruned cs) ∧
    ((∀ cs', cs.Perm cs' → ∃ es, resolveCandidates py accepted entries
        (fun p => reconcileOne py policy p none) (cs'.map (·.proposal py)) = .ok es) →
      LeastDecisions py policy accepted entries pruned cs →
        SameReferences py accepted entries pruned cs ∧ NoCircularNeed py accepted entries cs) := by
  intro pruned
  let _ := Classical.decPred (Readable py accepted (finalSources py accepted entries))
  have hinj : ∀ c ∈ cs, ∀ d ∈ cs, c.metric = d.metric → c = d := fun c hc d hd heq =>
    hnd.eq_of_target hc hd (congrArg (bindingTarget py) heq)
  refine ⟨KeepsReferences.sameReferences, ?_, ?_⟩
  · rintro ⟨hsame, hno⟩ cs' es hperm hes c hc
    have hnd' : DistinctTargets py cs' := (hperm.map _).nodup_iff.mp hnd
    obtain ⟨hex, hdecided⟩ := resolveCandidates_fires hes hnd' (hperm.mem_iff.mp hc)
    have hfires := (Closure.fires_in_every_order_iff hnd.nodup hinj).mpr
      ⟨fun d hd => hsame.canFire_iff hd, hno⟩ cs' hperm c hc
    refine ⟨hex, fun e he htarget => ?_⟩
    obtain ⟨hadd, hskip⟩ := hdecided e he htarget
    exact ⟨fun hyes => hadd (hfires.mpr hyes), fun hnot => hskip fun hyes => hnot (hfires.mp hyes)⟩
  · intro hall hleast
    obtain ⟨hcan, hno⟩ := (Closure.fires_in_every_order_iff hnd.nodup hinj).mp
      (leastDecisions_iff_fires hnd hall hleast)
    refine ⟨fun c hc hnone => ?_, hno⟩
    exact ((hcan c hc).symm.trans (and_iff_right hnone))

/-! ### Margin, net and gross -/

private def derivedFrom (metric input : String) : Candidate where
  metric := metric
  binding := .derived "x" [⟨input, some "x"⟩]
  confidence := .one

private def grossAccepted : AcceptedStore where
  facts := [{
    target := "contracts/metrics/gross.yaml", provenance := .humanCurated
    content := [("metric", .str "gross")] }]
  nodup := List.nodup_singleton _

private def proposeOnly : AutoApplyConfig where
  minConfidence := .one

/-- `gross` is accepted, `net` needs `gross` and `margin` needs `net`. A candidate for `gross` that
needs `net` closes a circle, and `margin`, which stands first, is skipped. -/
theorem candidates_least_fixpoint_counterexample :
    ∃ es, resolveCandidates .plain grossAccepted []
      (fun p => reconcileOne .plain proposeOnly p none)
        ([derivedFrom "margin" "net", derivedFrom "net" "gross", derivedFrom "gross" "net"].map
          (·.proposal .plain)) = .ok es ∧
      (∃ e ∈ es, e.target = (derivedFrom "margin" "net").target .plain ∧ e.decision = .noOp) ∧
      grossAccepted.get ((derivedFrom "margin" "net").target .plain) = none ∧
      ReferencesExist .plain grossAccepted (stateAfter .plain grossAccepted []
        ((pruneDisappeared grossAccepted []).map (·.target)))
        [derivedFrom "margin" "net", derivedFrom "net" "gross", derivedFrom "gross" "net"]
        (derivedFrom "margin" "net") := by
  obtain ⟨es, hes, hskip⟩ : ∃ es, resolveCandidates .plain grossAccepted []
      (fun p => reconcileOne .plain proposeOnly p none)
      ([derivedFrom "margin" "net", derivedFrom "net" "gross", derivedFrom "gross" "net"].map
        (·.proposal .plain)) = .ok es ∧
      (es.any fun e => e.target == (derivedFrom "margin" "net").target .plain &&
        e.decision == .noOp) = true := exists_ok_of_any (by decide +kernel)
  refine ⟨es, hes, by simpa using hskip, by decide +kernel, ?_, by simp [derivedFrom,
    CandidateBinding.references, CandidateBinding.checked, CandidateBinding.matched]⟩
  intro k hk
  obtain rfl : k = "net" := by simpa [derivedFrom, CandidateBinding.needs] using hk
  have hnet : Addable .plain grossAccepted (stateAfter .plain grossAccepted []
      ((pruneDisappeared grossAccepted []).map (·.target))) (derivedFrom "net" "gross") :=
    ⟨by decide +kernel, by simp [derivedFrom, CandidateBinding.references,
      CandidateBinding.checked, CandidateBinding.matched]⟩
  refine Closure.Derives.rule (r := derivedFrom "net" "gross") (by simp) hnet fun k hk => .base ?_
  obtain rfl : k = "gross" := by simpa [derivedFrom, CandidateBinding.needs] using hk
  decide +kernel

/-- Without the candidate for `gross` the report leaves what the resolver reads, and no circle. -/
theorem candidates_least_fixpoint_margin :
    (∃ es, resolveCandidates .plain grossAccepted []
      (fun p => reconcileOne .plain proposeOnly p none)
      ([derivedFrom "margin" "net", derivedFrom "net" "gross"].map (·.proposal .plain)) =
        .ok es) ∧
    LeastDecisions .plain proposeOnly grossAccepted []
      ((pruneDisappeared grossAccepted []).map (·.target))
      [derivedFrom "margin" "net", derivedFrom "net" "gross"] := by
  refine ⟨exists_ok_of_isOk (by decide +kernel), ?_⟩
  have hnd : DistinctTargets .plain [derivedFrom "margin" "net", derivedFrom "net" "gross"] := by
    unfold DistinctTargets
    decide +kernel
  obtain ⟨hsame, hleast, -⟩ :=
    @candidates_least_fixpoint .plain proposeOnly grossAccepted [] [] _ hnd
  have hkeeps : KeepsReferences .plain grossAccepted []
      ((pruneDisappeared grossAccepted []).map (·.target))
      [derivedFrom "margin" "net", derivedFrom "net" "gross"] :=
    { metrics := by decide +kernel
      sources := by simp [derivedFrom, CandidateBinding.checked]
      matched := by simp [derivedFrom, CandidateBinding.matched] }
  refine hleast ⟨hsame hkeeps, ?_⟩
  -- no candidate gives `gross`, so `net` is in no circle
  have hnet : ¬ Closure.Stuck Candidate.metric (fun c => c.binding.needs)
      [derivedFrom "margin" "net", derivedFrom "net" "gross"] (derivedFrom "net" "gross") := by
    intro hstuck
    obtain ⟨d, hd, -, hneed⟩ := hstuck.waits
    have hmetric : d.metric = "gross" := by
      simpa [derivedFrom, CandidateBinding.needs] using hneed
    rcases List.mem_pair.mp hd with rfl | rfl
    · simp [derivedFrom] at hmetric
    · simp [derivedFrom] at hmetric
  intro c hc d hd hne hstuck hstuck'
  rcases List.mem_pair.mp hc with rfl | rfl
  · rcases List.mem_pair.mp hd with rfl | rfl
    · exact absurd rfl hne
    · exact absurd hstuck' hnet
  · exact absurd hstuck hnet

end Canonic
