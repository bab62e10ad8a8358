import Canonic.Compiler.Calls
import Canonic.Trust.Scorer

set_option autoImplicit false

/-! # The trust of a metric and of its components

`compiler/trust_inputs.py` and the `min_trust` stage of `compiler/pipeline.py`: a metric that is
computed from others is scored with the signals of all of them, down to the ones that read a source.

The tier of a metric is therefore the weakest among the metrics it uses, and a query that is planned
under a floor holds that floor for every one of them. -/

namespace Canonic

/-! ## What a metric uses -/

/-- A metric is computed from another, directly or through further metrics. -/
inductive Binding.Uses : Binding → Binding → Prop
  | direct {b c : Binding} (h : c ∈ b.dependencies) : Uses b c
  | through {b c d : Binding} (h : c ∈ b.dependencies) (hd : Uses c d) : Uses b d

theorem Binding.Uses.trans {b c d : Binding} (h : b.Uses c) (hd : c.Uses d) : b.Uses d := by
  induction h with
  | direct hc => exact .through hc hd
  | through hc _ ih => exact .through hc (ih hd)

theorem Binding.uses_iff {b d : Binding} :
    b.Uses d ↔ ∃ c ∈ b.dependencies, d = c ∨ c.Uses d := by
  constructor
  · intro h
    cases h with
    | direct hc => exact ⟨d, hc, Or.inl rfl⟩
    | through hc hd => exact ⟨_, hc, Or.inr hd⟩
  · rintro ⟨c, hc, rfl | hd⟩
    · exact .direct hc
    · exact .through hc hd

/-! ## Trust inputs -/

/-- What trust reads of the contracts besides the bindings. -/
structure TrustContracts where
  provenance : MetricBinding → Provenance
  assertions : List Assertion

/-- `assertions_for` a query of the wanted metrics. -/
def assertionsFor (py : PyLib) (assertions : List Assertion) (wanted : List String) :
    List Assertion :=
  if wanted.isEmpty then []
  else assertions.filter fun a => a.isExecutable &&
    decide ((∀ m ∈ a.metrics py, m ∈ wanted) ∧ ∀ m ∈ wanted, m ∈ a.metrics py)

section Inputs

variable (py : PyLib) (k : TrustContracts)

/-- `_input`. -/
def trustInput (name : String) (b : Binding) (owner : Option String) : TrustInput where
  metric := name
  provenance := (k.provenance b.binding).value
  hasAssertion := !(assertionsFor py k.assertions [name]).isEmpty
  binding := b.resolvedKey
  owner := owner

mutual
/-- `_component_inputs`. -/
def componentInputs (owner : String) : Binding → List TrustInput
  | .leaf _ => []
  | .composite _ n d =>
      trustInput py k n.metric n (some owner) :: componentInputs owner n ++
        (trustInput py k d.metric d (some owner) :: componentInputs owner d)
  | .offset _ b _ _ => trustInput py k b.metric b (some owner) :: componentInputs owner b
  | .derived _ _ _ inputs => componentInputsList owner inputs
  | .conversion _ b c _ =>
      trustInput py k b.metric b (some owner) :: componentInputs owner b ++
        (trustInput py k c.metric c (some owner) :: componentInputs owner c)

def componentInputsList (owner : String) : List Binding → List TrustInput
  | [] => []
  | b :: bs =>
      trustInput py k b.metric b (some owner) :: componentInputs owner b ++
        componentInputsList owner bs
end

/-- `trust_inputs_for_binding`. -/
def trustInputsForBinding (name : String) (b : Binding) : List TrustInput :=
  trustInput py k name b none :: componentInputs py k name b

/-- `_trust_inputs_for`. -/
def trustInputsFor (bindings : List (String × Binding)) : List TrustInput :=
  bindings.flatMap fun b => trustInputsForBinding py k b.1 b.2

/-- The tier of the signals known before a query is compiled. -/
def staticTier (history : Option AssertionHistory) (inputs : List TrustInput) : TrustTier :=
  (TrustScorer.score (staticSignalsFor inputs history)).tier

/-- The tier of a metric, as it is listed and enforced. -/
def metricTier (history : Option AssertionHistory) (name : String) (b : Binding) : TrustTier :=
  staticTier history (trustInputsForBinding py k name b)

/-- The tier a metric would have without its components. -/
def ownTier (history : Option AssertionHistory) (name : String) (b : Binding) : TrustTier :=
  staticTier history [trustInput py k name b none]

/-- Whether a query of the bindings meets a floor, as `_enforce_min_trust` decides it. -/
def trustMet (history : Option AssertionHistory) (bindings : List (String × Binding))
    (level : String) : Bool :=
  match TrustTier.ofValue? level with
  | some floor => tierMeets (staticTier history (trustInputsFor py k bindings)) floor
  | none => false

/-! ## The weakest tier -/

variable {py k}

theorem componentInputsList_eq (owner : String) (bs : List Binding) :
    componentInputsList py k owner bs = bs.flatMap fun c =>
      trustInput py k c.metric c (some owner) :: componentInputs py k owner c := by
  induction bs with
  | nil => rfl
  | cons b bs ih => rw [componentInputsList, ih, List.flatMap_cons]

/-- The loop of `_component_inputs` over the dependencies. -/
theorem componentInputs_eq (owner : String) (b : Binding) :
    componentInputs py k owner b = b.dependencies.flatMap fun c =>
      trustInput py k c.metric c (some owner) :: componentInputs py k owner c := by
  cases b with
  | leaf b => rfl
  | composite b n d => simp [componentInputs, Binding.dependencies]
  | offset b base dim off => simp [componentInputs, Binding.dependencies]
  | derived b expr names inputs => exact componentInputsList_eq owner inputs
  | conversion b base conv params => simp [componentInputs, Binding.dependencies]

theorem sizeOf_dependency {b c : Binding} (h : c ∈ b.dependencies) : sizeOf c < sizeOf b := by
  cases b with
  | leaf b => simp [Binding.dependencies] at h
  | composite b n d =>
      simp only [Binding.dependencies, List.mem_cons, List.not_mem_nil, or_false] at h
      rcases h with rfl | rfl <;> simp only [Binding.composite.sizeOf_spec] <;> omega
  | offset b base dim off =>
      simp only [Binding.dependencies, List.mem_singleton] at h
      subst h
      simp only [Binding.offset.sizeOf_spec]
      omega
  | derived b expr names inputs =>
      have := List.sizeOf_lt_of_mem (show c ∈ inputs from h)
      simp only [Binding.derived.sizeOf_spec]
      omega
  | conversion b base conv params =>
      simp only [Binding.dependencies, List.mem_cons, List.not_mem_nil, or_false] at h
      rcases h with rfl | rfl <;> simp only [Binding.conversion.sizeOf_spec] <;> omega

/-- The component inputs are those of the metrics that are used, each under its own name. -/
theorem mem_componentInputs {owner : String} {t : TrustInput} (b : Binding) :
    t ∈ componentInputs py k owner b ↔
      ∃ c, b.Uses c ∧ t = trustInput py k c.metric c (some owner) := by
  rw [componentInputs_eq, List.mem_flatMap]
  constructor
  · rintro ⟨c, hc, ht⟩
    rcases List.mem_cons.mp ht with rfl | ht
    · exact ⟨c, .direct hc, rfl⟩
    · have := sizeOf_dependency hc
      obtain ⟨d, hd, rfl⟩ := (mem_componentInputs c).mp ht
      exact ⟨d, .through hc hd, rfl⟩
  · rintro ⟨d, hd, rfl⟩
    obtain ⟨c, hc, rfl | hd⟩ := Binding.uses_iff.mp hd
    · exact ⟨d, hc, List.mem_cons_self⟩
    · have := sizeOf_dependency hc
      exact ⟨c, hc, List.mem_cons_of_mem _ ((mem_componentInputs c).mpr ⟨d, hd, rfl⟩)⟩
termination_by sizeOf b

variable {history : Option AssertionHistory}

/-- The static tier is the weakest of the tiers of its inputs. -/
theorem le_staticTier {inputs : List TrustInput} {t : TrustTier} :
    t ≤ staticTier history inputs ↔ ∀ i ∈ inputs, t ≤ staticTier history [i] := by
  simp only [staticTier, le_score_tier, staticSignalsFor, List.mem_flatMap,
    List.flatMap_singleton]
  constructor
  · intro h i hi v hv
    exact h v ⟨i, hi, hv⟩
  · rintro h v ⟨i, hi, hv⟩
    exact h i hi v hv

/-- The static tier of some inputs is the tier of one of them. -/
theorem exists_staticTier_eq {inputs : List TrustInput} (h : inputs ≠ []) :
    ∃ i ∈ inputs, staticTier history inputs = staticTier history [i] := by
  have hle := le_staticTier.mp (le_refl (staticTier history inputs))
  rcases (scores (staticSignalsFor inputs history)).attained with htop | ⟨v, hv, hcap⟩
  · -- every input is trusted
    have htop : staticTier history inputs = .trusted := htop
    obtain ⟨i, hi⟩ := List.exists_mem_of_ne_nil inputs h
    exact ⟨i, hi, le_antisymm (hle i hi) (htop ▸ TrustTier.le_trusted _)⟩
  · obtain ⟨i, hi, hv⟩ := List.mem_flatMap.mp hv
    refine ⟨i, hi, le_antisymm (hle i hi) ?_⟩
    have hv' : v ∈ staticSignalsFor [i] history := by simpa [staticSignalsFor] using hv
    exact (scores (staticSignalsFor [i] history)).le v hv' _ hcap

/-- The owner of an input is only named in the reasons. -/
theorem staticTier_owner (name : String) (b : Binding) (owner : Option String) :
    staticTier history [trustInput py k name b owner] = ownTier py k history name b := by
  have hcap : ∀ owner, (staticSignalsFor [trustInput py k name b owner] history).map (·.cap) =
      (staticSignalsFor [trustInput py k name b none] history).map (·.cap) := by
    intro owner
    have hrecord : recordOf (trustInput py k name b owner) history =
        recordOf (trustInput py k name b none) history := rfl
    simp only [staticSignalsFor, List.flatMap_singleton, List.map_cons, List.map_nil]
    congr 1
    · have hprovenance : (trustInput py k name b owner).provenance =
        (trustInput py k name b none).provenance := rfl
      unfold provenanceSignal
      rw [hprovenance]
      split_ifs <;> rfl
    · unfold assertionSignal
      rw [hrecord]
      have hassertion : (trustInput py k name b owner).hasAssertion =
        (trustInput py k name b none).hasAssertion := rfl
      rw [hassertion]
      split_ifs with ha
      · rfl
      · cases recordOf (trustInput py k name b none) history with
        | none => rfl
        | some r => cases hr : r.passed <;> simp [hr]
  refine eq_of_forall_le_iff fun t => ?_
  have hall : ∀ signals : List SignalVerdict, t ≤ (TrustScorer.score signals).tier ↔
      ∀ o ∈ signals.map (·.cap), ∀ cap, o = some cap → t ≤ cap := fun signals => by
    rw [le_score_tier, List.forall_mem_map]
  rw [ownTier, staticTier, staticTier, hall, hall, hcap]

/-- A metric is as trustworthy as the weakest of itself and all the metrics it is computed from,
through every level. -/
theorem le_metricTier {name : String} {b : Binding} {t : TrustTier} :
    t ≤ metricTier py k history name b ↔
      t ≤ ownTier py k history name b ∧ ∀ c, b.Uses c → t ≤ ownTier py k history c.metric c := by
  rw [metricTier, le_staticTier, trustInputsForBinding, List.forall_mem_cons, staticTier_owner]
  refine and_congr_right fun _ => ⟨fun h c hc => ?_, ?_⟩
  · have := h _ ((mem_componentInputs b).mpr ⟨c, hc, rfl⟩)
    rwa [staticTier_owner] at this
  · rintro h i hi
    obtain ⟨c, hc, rfl⟩ := (mem_componentInputs b).mp hi
    rw [staticTier_owner]
    exact h c hc

theorem metricTier_le_of_uses {b c : Binding} (h : b.Uses c) (name : String) :
    metricTier py k history name b ≤ metricTier py k history c.metric c := by
  obtain ⟨-, hall⟩ := le_metricTier.mp (le_refl (metricTier py k history name b))
  exact le_metricTier.mpr ⟨hall c h, fun d hd => hall d (h.trans hd)⟩

/-- The tier of a metric is the weakest among its own signals and those of every metric it is
computed from, through every level: it is attained at one of them, and no metric is scored above a
metric it uses. -/
theorem metric_tier_is_weakest (name : String) (b : Binding) :
    (metricTier py k history name b = ownTier py k history name b ∨
      ∃ c, b.Uses c ∧ metricTier py k history name b = ownTier py k history c.metric c) ∧
      metricTier py k history name b ≤ ownTier py k history name b ∧
      ∀ c, b.Uses c → metricTier py k history name b ≤ metricTier py k history c.metric c := by
  obtain ⟨hown, hall⟩ := le_metricTier.mp (le_refl (metricTier py k history name b))
  refine ⟨?_, hown, fun c hc => metricTier_le_of_uses hc name⟩
  obtain ⟨i, hi, htier⟩ : ∃ i ∈ trustInputsForBinding py k name b,
      metricTier py k history name b = staticTier history [i] :=
    exists_staticTier_eq (List.cons_ne_nil _ _)
  rcases List.mem_cons.mp hi with rfl | hi
  · exact Or.inl (htier.trans (staticTier_owner name b none))
  · obtain ⟨c, hc, rfl⟩ := (mem_componentInputs b).mp hi
    exact Or.inr ⟨c, hc, htier.trans (staticTier_owner c.metric c _)⟩

/-! ## Floors -/

/-- What the stage does with a floor that is not met: an error refuses the query, a warning is
reported. -/
theorem enforceMinTrust_eq_ok {r : ContractResolver} {context : Option String}
    {bindings : List (String × Binding)} {meets : String → Bool} {warnings : List String}
    (h : enforceMinTrust r context bindings meets = .ok warnings) {b : String × Binding}
    (hb : b ∈ bindings) {p : String × String} (hp : p ∈ sourceMeasurePairs b.2) {g : Guardrail}
    (hg : g ∈ r.minTrustFor p.1 p.2 context) {level : String} (hkind : g.kind = .minTrust level)
    (hfails : meets level = false) :
    g.severity = .warn ∧ s!"{g.id}: {g.rationale}" ∈ warnings := by
  unfold enforceMinTrust at h
  obtain ⟨w, hw, hblock⟩ : ∃ w ∈ warnings, blockOrWarn g [] = .ok w := by
    refine forall₂_mem_left (mapM_eq_ok.mp h) ?_
    refine List.mem_flatMap.mpr ⟨b, hb, List.mem_flatMap.mpr ⟨p, hp, List.mem_filter.mpr ⟨hg, ?_⟩⟩⟩
    simp [hkind, hfails]
  unfold blockOrWarn at hblock
  cases hs : g.severity with
  | error => simp [hs] at hblock
  | warn =>
      rw [hs] at hblock
      exact ⟨rfl, Except.ok.inj hblock ▸ hw⟩

theorem trustMet_iff {bindings : List (String × Binding)} {level : String} {floor : TrustTier}
    (h : TrustTier.ofValue? level = some floor) : trustMet py k history bindings level = true ↔
      ∀ b ∈ bindings, floor ≤ metricTier py k history b.1 b.2 := by
  rw [trustMet, h]
  dsimp only
  rw [tierMeets, decide_eq_true_iff, ge_iff_le, ← TrustTier.le_iff, le_staticTier, trustInputsFor,
    List.forall_mem_flatMap]
  exact forall₂_congr fun b _ => le_staticTier.symm

/-- A query that is planned clears every floor of severity error that matches one of its metrics or
of their components in its context: each of its metrics, and each metric these are computed from, is
scored at or above the floor. A floor of severity warn that is missed is in the warnings. -/
theorem planned_clears_floors {p : Project} (hp : p.trust = trustMet py k history)
    {q : SemanticQuery} {principal : Principal} {plan : Plan}
    (h : planQuery p q principal = .ok plan) {b : String × Binding} (hb : b ∈ plan.bindings)
    {pair : String × String} (hpair : pair ∈ sourceMeasurePairs b.2) {g : Guardrail}
    (hg : g ∈ p.resolver.minTrustFor pair.1 pair.2 q.context) {level : String}
    {floor : TrustTier} (hkind : g.kind = .minTrust level)
    (hfloor : TrustTier.ofValue? level = some floor) :
    (g.severity = .error → ∀ b' ∈ plan.bindings, floor ≤ metricTier py k history b'.1 b'.2 ∧
      ∀ c, b'.2.Uses c → floor ≤ metricTier py k history c.metric c) ∧
      ((∃ b' ∈ plan.bindings, metricTier py k history b'.1 b'.2 < floor) →
        s!"{g.id}: {g.rationale}" ∈ plan.warnings) := by
  simp only [planQuery, admitQuery, bind_eq_ok, pure_eq_ok] at h
  obtain ⟨query, hquery, stage0, -, bindings, -, admitted, ⟨trust, htrust, required, -, rfl⟩,
    planned, -, probes, -, single, -, restricted, -, rfl⟩ := h
  rw [(applyTimeRange_eq_ok hquery).2.2, hp] at htrust
  have hmiss := fun hfails => enforceMinTrust_eq_ok htrust hb hpair hg hkind hfails
  have hmet : trustMet py k history bindings level = true ↔
      ∀ b ∈ bindings, floor ≤ metricTier py k history b.1 b.2 := trustMet_iff hfloor
  constructor
  · intro hsev b' hb'
    have hcleared : trustMet py k history bindings level = true := by
      by_contra hnot
      have := (hmiss (by simpa using hnot)).1
      simp [hsev] at this
    have hle := hmet.mp hcleared b' hb'
    exact ⟨hle, fun c hc => hle.trans (metricTier_le_of_uses hc b'.1)⟩
  · rintro ⟨b', hb', hlt⟩
    have hfails : trustMet py k history bindings level = false := by
      by_contra hnot
      exact absurd (hmet.mp (by simpa using hnot) b' hb') (not_le.mpr hlt)
    simpa using Or.inr (Or.inl (hmiss hfails).2)

end Inputs

/-! ### The rate of returns -/

private def returnedParcels : SemanticSource where
  name := "parcels"
  connection := "wh"
  table := "parcels"
  columns := [⟨"returned", .int, true⟩, ⟨"shipped", .int, true⟩]
  measures := [{ name := "returned", expr := "SUM(returned)" },
    { name := "shipped", expr := "SUM(shipped)" }]
  measures_nodup := by decide

private def returnedTexts : List (String × Sql.Expr) :=
  [("SUM(returned)", .node (.agg .sum) [Sql.Expr.bare "returned"]),
   ("SUM(shipped)", .node (.agg .sum) [Sql.Expr.bare "shipped"])]

/-- Board figures may not rest on anything worse than provisional. -/
private def boardFloor : Guardrail where
  id := "board"
  appliesTo := .source "parcels" (some "returned")
  kind := .minTrust "provisional"
  context := some "board"

private def parcelContracts : TrustContracts where
  provenance _ := .humanCurated
  assertions := []

private def returnsProject : Project where
  lib := Lib.ofTexts returnedTexts
  sources := { list := [returnedParcels] }
  resolver := {
    bindings := [
      { metric := "returned", canonical := { of := .single "parcels" "returned" } },
      { metric := "shipped", canonical := { of := .single "parcels" "shipped" } },
      { metric := "return_rate", canonical := { of := .ratio "returned" "shipped" } }]
    guardrails := [boardFloor] }
  trust := trustMet .plain parcelContracts none

/-- The floor on the returned parcels holds for the rate and for both of its sides. -/
theorem planned_clears_floors_returns :
    ∃ plan b, planQuery returnsProject { metrics := ["return_rate"], context := some "board" } {} =
      .ok plan ∧ ("return_rate", b) ∈ plan.bindings ∧
        .provisional ≤ metricTier .plain parcelContracts none "return_rate" b ∧
        ∀ c, b.Uses c → .provisional ≤ metricTier .plain parcelContracts none c.metric c := by
  obtain ⟨plan, hplan⟩ := exists_ok_of_isOk (x := planQuery returnsProject
    { metrics := ["return_rate"], context := some "board" } {}) (by decide +kernel)
  obtain ⟨b, hb⟩ : ∃ b, returnsProject.resolver.resolveMetric "return_rate" = .ok b := ⟨_, rfl⟩
  have hmem : ("return_rate", b) ∈ plan.bindings :=
    (planQuery_eq_ok hplan).mem_bindings.mpr ⟨by simp, hb⟩
  have hpair : ("parcels", "returned") ∈ sourceMeasurePairs b := by
    obtain rfl := Except.ok.inj hb
    decide
  have hfloor : boardFloor ∈ returnsProject.resolver.minTrustFor "parcels" "returned"
      (some "board") := by
    decide
  obtain ⟨hrate, hsides⟩ := (planned_clears_floors (p := returnsProject) (k := parcelContracts)
    rfl hplan hmem hpair hfloor rfl rfl).1 rfl _ hmem
  exact ⟨plan, b, hplan, hmem, hrate, hsides⟩

end Canonic
