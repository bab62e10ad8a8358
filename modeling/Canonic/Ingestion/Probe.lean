import Canonic.Ingestion.Builder

set_option autoImplicit false

/-! # The probe of the validation gate

`ingestion/validation.py`, with `probe_schema` of `connectors/acquisition.py`: before a diff is
emitted, a schema that was declared, sampled or written by hand is compared with the live relation.

A proposal does not carry the evidence it was drafted from, only its fingerprint. The gate recovers
the evidence from a dictionary by fingerprint, and a fingerprint is a digest of the columns and
keys: neither the relation nor the connection is part of it. -/

namespace Canonic

/-! ## Probing one schema -/

/-- A column with one type declared and another one observed. -/
structure TypeConflict where
  column : String
  declared : String
  observed : String
  deriving DecidableEq, Repr

/-- What a probe found. -/
structure ProbeResult where
  relation : String
  ok : Bool
  missingColumns : List String := []
  extraColumns : List String := []
  typeConflicts : List TypeConflict := []
  deriving DecidableEq, Repr

/-- The types of a list of columns by their names; the last of a name stays. -/
def typesOf (columns : List ColumnInfo) : Dict String :=
  columns.foldl (fun d c => Dict.set d c.name c.type) []

/-- A connector, as far as it is probed: `describe_relation`, or the text of its failure. -/
abbrev Connector := String → Except String (List ColumnInfo)

/-- `probe_schema`. A relation that cannot be observed is a mismatch. -/
def probeSchema (connector : Connector) (schema : RelationSchema) : ProbeResult :=
  let declared := typesOf schema.columns
  match connector schema.relation with
  | .error _ => { relation := schema.relation, ok := false,
                  missingColumns := sortedSet (declared.map (·.1)) }
  | .ok columns =>
      let observed := typesOf columns
      let missing := sortedSet ((declared.map (·.1)).filter fun n => !Dict.has observed n)
      let extra := sortedSet ((observed.map (·.1)).filter fun n => !Dict.has declared n)
      let conflicts := (sortedSet ((declared.map (·.1)).filter fun n =>
        Dict.has observed n)).filterMap fun n =>
          let d := declared.getD n ""
          let o := observed.getD n ""
          if d = o then none else some ⟨n, d, o⟩
      { relation := schema.relation, ok := missing.isEmpty && conflicts.isEmpty,
        missingColumns := missing, extraColumns := extra, typeConflicts := conflicts }

/-- The message of `raise_for_status`. -/
def ProbeResult.diff (r : ProbeResult) : String :=
  let missing := if r.missingColumns.isEmpty then []
    else ["missing columns: " ++ ", ".intercalate r.missingColumns]
  let conflicts := if r.typeConflicts.isEmpty then []
    else ["type conflicts: " ++ ", ".intercalate (r.typeConflicts.map fun c =>
      s!"{c.column} (declared {c.declared}, observed {c.observed})")]
  let extra := if r.extraColumns.isEmpty then []
    else ["extra columns: " ++ ", ".intercalate r.extraColumns]
  r.relation ++ ": " ++ "; ".intercalate (missing ++ conflicts ++ extra)

/-! ## The gate -/

inductive ViolationKind where
  | schemaMismatch | validationFailed
  deriving DecidableEq, Repr

/-- One rejected check. -/
structure Violation where
  kind : ViolationKind
  target : String
  location : String
  detail : String
  deriving DecidableEq, Repr

/-- The two errors the gate raises. -/
inductive Rejection where
  | schemaMismatch (message : String) (candidates : List Violation)
  | validationFailed (message : String) (candidates : List Violation)
  deriving DecidableEq, Repr

def AcquisitionTier.value : AcquisitionTier → String
  | live => "live" | modeling => "modeling" | queryHistory => "query_history"
  | declarative => "declarative" | sample => "sample" | handAuthored => "hand_authored"

/-- `_PROBE_TIERS`: the tiers whose schema is unverified until it is probed. -/
def AcquisitionTier.isProbed : AcquisitionTier → Bool
  | declarative | sample | handAuthored => true
  | _ => false

/-- What the gate is given: the evidence of the run, the connectors by connection, and the
validation of a payload. -/
structure Gate where
  schema : Content → Reads RelationSchema
  connectors : String → Option Connector
  evidence : List EvidenceItem

namespace Gate

/-- `_evidence_by_fp.get(fingerprint)`: of the items of one fingerprint the last stays. -/
def evidenceByFp (g : Gate) (fingerprint : String) : Option EvidenceItem :=
  (g.evidence.filter fun item => item.sourceFingerprint = fingerprint).getLast?

/-- `_anchoring_evidence`. -/
def anchoringEvidence (g : Gate) (p : Proposal) : Option EvidenceItem :=
  p.anchoredTo.findSome? g.evidenceByFp

/-- The evidence whose schema is probed for a proposal, if one is. -/
def toProbe (g : Gate) (p : Proposal) : Option EvidenceItem :=
  if p.op = .prune then none
  else (g.anchoringEvidence p).filter fun item =>
    item.acquisitionTier.isProbed && item.kind == "relation_schema"

/-- The schema of an item compared with the live relation of its connection. -/
def probe (g : Gate) (p : Proposal) (item : EvidenceItem) : Reads (Option Violation) :=
  match g.connectors item.source with
  | none => return some ⟨.schemaMismatch, p.target, item.source,
      s!"no connector for source {pyRepr item.source}; cannot verify " ++
        s!"{item.acquisitionTier.value} schema against the live source"⟩
  | some connector => do
      let schema ← g.schema item.payload
      let result := probeSchema connector schema
      if result.ok then return none
      else return some ⟨.schemaMismatch, p.target, result.relation, result.diff⟩

/-- `_probe_violations`. -/
def probeViolations (g : Gate) (proposals : List Proposal) : Reads (List Violation) := do
  let found ← (proposals.filterMap fun p => (g.toProbe p).map fun item => (p, item)).mapM
    fun q => g.probe q.1 q.2
  return found.filterMap id

/-- `_raise`: the error of a report with violations. -/
def raised (violations : List Violation) : Rejection :=
  let message := "validation gate rejected the proposed state: " ++
    "; ".intercalate (violations.map (·.detail))
  if violations.all fun v => v.kind = .schemaMismatch then .schemaMismatch message violations
  else .validationFailed message violations

/-- `validate`: the probe, then the semantic and contract checks of the proposed tree, whose
violations are given by `checked`. Without a rejection the diff may be emitted. -/
def validate (g : Gate) (checked : List Proposal → List Violation) (proposals : List Proposal) :
    Reads (Option Rejection) := do
  let probed ← g.probeViolations proposals
  match probed ++ checked proposals with
  | [] => return none
  | violations => return some (raised violations)

end Gate

/-! ## What is probed for a proposal -/

/-- For a proposal, the gate probes a relation on a connection. -/
def Gate.Probes (g : Gate) (p : Proposal) (connection relation : String) : Prop :=
  ∃ item schema, g.toProbe p = some item ∧ item.source = connection ∧
    g.schema item.payload = .ok schema ∧ schema.relation = relation

/-- **A probe is not passed by a mismatch**: where the gate probes a relation for one of the
proposals, validation succeeds only if a connector observes it as declared. -/
theorem Gate.validate_probed {g : Gate} {checked : List Proposal → List Violation}
    {proposals : List Proposal} (h : g.validate checked proposals = .ok none) {p : Proposal}
    (hp : p ∈ proposals) {connection relation : String} (hprobes : g.Probes p connection relation) :
    ∃ connector schema, g.connectors connection = some connector ∧ schema.relation = relation ∧
      (probeSchema connector schema).ok = true := by
  obtain ⟨item, schema, hitem, rfl, hschema, rfl⟩ := hprobes
  simp only [validate, bind_eq_ok] at h
  obtain ⟨probed, hprobed, h⟩ := h
  have hnone : probed = [] := by
    split at h
    next hnil => exact (List.append_eq_nil_iff.mp hnil).1
    · simp [pure, Except.pure] at h
  simp only [probeViolations, bind_eq_ok, pure_eq_ok] at hprobed
  obtain ⟨found, hfound, hids⟩ := hprobed
  have hmem : (p, item) ∈ proposals.filterMap fun p => (g.toProbe p).map fun item => (p, item) :=
    List.mem_filterMap.mpr ⟨p, hp, by rw [hitem]; rfl⟩
  obtain ⟨v, hv, hone⟩ := forall₂_mem_left (mapM_eq_ok.mp hfound) hmem
  have hvnone : v = none := by
    cases v with
    | none => rfl
    | some w =>
        have hw : w ∈ found.filterMap id := List.mem_filterMap.mpr ⟨some w, hv, rfl⟩
        rw [hids, hnone] at hw
        simp at hw
  subst hvnone
  unfold probe at hone
  cases hconn : g.connectors item.source with
  | none => simp [hconn, pure, Except.pure] at hone
  | some connector =>
      refine ⟨connector, schema, rfl, rfl, ?_⟩
      simp only [hconn, hschema, ok_bind] at hone
      split at hone
      · assumption
      · simp [pure, Except.pure] at hone

/-- The proposal that a run of the builder drafts from an evidence item. -/
def BuiltFrom (lib : BuilderLib) (evidence : List EvidenceItem) (item : EvidenceItem)
    (p : Proposal) : Prop :=
  ∃ relations index, relationsOf lib evidence = .ok relations ∧
    lib.definitions evidence relations = .ok index ∧
    buildItem lib relations index item = .ok (.proposal p)

/-- The draft of a relation adds a file and is anchored to the fingerprint of its schema. -/
theorem BuiltFrom.anchored {lib : BuilderLib} {evidence : List EvidenceItem} {item : EvidenceItem}
    {p : Proposal} {schema : RelationSchema} (h : BuiltFrom lib evidence item p)
    (hkind : item.kind = "relation_schema") (hschema : lib.schema item.payload = .ok schema) :
    p.op = .add ∧ p.anchoredTo = (stated schema.sourceFingerprint).toList := by
  obtain ⟨relations, index, -, -, h⟩ := h
  have hknown : item.isKnown = true := by
    rw [EvidenceItem.isKnown, hkind]
    decide
  simp only [buildItem, hknown, Bool.not_true, Bool.false_eq_true, if_false, hkind, if_true,
    hschema, ok_bind, bind_eq_ok, pure_eq_ok, Built.proposal.injEq] at h
  obtain ⟨q, hq, rfl⟩ := h
  obtain ⟨grain, -, hq⟩ := bind_eq_ok.mp hq
  obtain ⟨dimensions, -, hq⟩ := bind_eq_ok.mp hq
  obtain ⟨covered, -, hq⟩ := bind_eq_ok.mp hq
  obtain ⟨drafts, -, hq⟩ := bind_eq_ok.mp hq
  obtain ⟨confidence, -, hq⟩ := bind_eq_ok.mp hq
  obtain rfl := pure_eq_ok.mp hq
  exact ⟨rfl, rfl⟩

/-- Every unverified schema of the evidence is probed against its own relation: for the proposal
drafted from it, the gate probes that relation on the connection of the item. -/
def SchemasProbed (lib : BuilderLib) (connectors : String → Option Connector)
    (evidence : List EvidenceItem) : Prop :=
  ∀ item ∈ evidence, item.kind = "relation_schema" → item.acquisitionTier.isProbed = true →
    ∀ p schema, BuiltFrom lib evidence item p → p.op ≠ .prune →
      lib.schema item.payload = .ok schema →
      Gate.Probes ⟨lib.schema, connectors, evidence⟩ p item.source schema.relation

/-- The last item of the evidence with a fingerprint. -/
def lastOf (evidence : List EvidenceItem) (fingerprint : String) : Option EvidenceItem :=
  (evidence.filter fun item => item.sourceFingerprint = fingerprint).getLast?

/-- The fingerprint of a schema leads back to it: the last item that carries the fingerprint is a
relation schema of an unverified tier, on the same connection and of the same relation. -/
def LeadsBack (lib : BuilderLib) (evidence : List EvidenceItem) (item : EvidenceItem)
    (schema : RelationSchema) : Prop :=
  ∃ fingerprint last lastSchema, stated schema.sourceFingerprint = some fingerprint ∧
    lastOf evidence fingerprint = some last ∧ last.kind = "relation_schema" ∧
    last.acquisitionTier.isProbed = true ∧ last.source = item.source ∧
    lib.schema last.payload = .ok lastSchema ∧ lastSchema.relation = schema.relation

/-- **What the gate probes is what the fingerprint leads back to.** -/
theorem probes_iff_leadsBack {lib : BuilderLib} {connectors : String → Option Connector}
    {evidence : List EvidenceItem} {item : EvidenceItem} {p : Proposal} {schema : RelationSchema}
    (hbuilt : BuiltFrom lib evidence item p) (hkind : item.kind = "relation_schema")
    (hschema : lib.schema item.payload = .ok schema) :
    Gate.Probes ⟨lib.schema, connectors, evidence⟩ p item.source schema.relation ↔
      LeadsBack lib evidence item schema := by
  obtain ⟨hop, hanchor⟩ := hbuilt.anchored hkind hschema
  have htoProbe (last : EvidenceItem) :
      Gate.toProbe ⟨lib.schema, connectors, evidence⟩ p = some last ↔
        ∃ fingerprint, stated schema.sourceFingerprint = some fingerprint ∧
          lastOf evidence fingerprint = some last ∧ last.acquisitionTier.isProbed = true ∧
          last.kind = "relation_schema" := by
    rw [Gate.toProbe, if_neg (by rw [hop]; decide), Option.filter_eq_some_iff,
      Gate.anchoringEvidence, hanchor]
    cases hstated : stated schema.sourceFingerprint with
    | none => simp
    | some fingerprint =>
        simp only [Option.toList_some, List.findSome?_cons, List.findSome?_nil, Bool.and_eq_true,
          beq_iff_eq, Option.some.injEq, exists_eq_left']
        have hlast : Gate.evidenceByFp ⟨lib.schema, connectors, evidence⟩ fingerprint =
            lastOf evidence fingerprint := rfl
        rw [hlast]
        cases lastOf evidence fingerprint <;> simp
  constructor
  · rintro ⟨last, lastSchema, hlast, hsource, hok, hrel⟩
    obtain ⟨fingerprint, hstated, hof, htier, hk⟩ := (htoProbe last).mp hlast
    exact ⟨fingerprint, last, lastSchema, hstated, hof, hk, htier, hsource, hok, hrel⟩
  · rintro ⟨fingerprint, last, lastSchema, hstated, hof, hk, htier, hsource, hok, hrel⟩
    exact ⟨last, lastSchema, (htoProbe last).mpr ⟨fingerprint, hstated, hof, htier, hk⟩, hsource,
      hok, hrel⟩

/-- **Exactly when every unverified schema is probed.** The fingerprint of each one leads back
to it. -/
theorem schemasProbed_iff (lib : BuilderLib) (connectors : String → Option Connector)
    (evidence : List EvidenceItem) :
    SchemasProbed lib connectors evidence ↔
      ∀ item ∈ evidence, item.kind = "relation_schema" → item.acquisitionTier.isProbed = true →
        ∀ p schema, BuiltFrom lib evidence item p → lib.schema item.payload = .ok schema →
          LeadsBack lib evidence item schema := by
  constructor
  · intro h item hmem hkind htier p schema hbuilt hschema
    have hop : p.op ≠ .prune := by
      rw [(hbuilt.anchored hkind hschema).1]
      decide
    exact (probes_iff_leadsBack hbuilt hkind hschema).mp
      (h item hmem hkind htier p schema hbuilt hop hschema)
  · intro h item hmem hkind htier p schema hbuilt _ hschema
    exact (probes_iff_leadsBack hbuilt hkind hschema).mpr
      (h item hmem hkind htier p schema hbuilt hschema)

/-! ### Two relations of one shape

`refunds` is introspected live, `orders` is declared by hand with the same columns and does not
exist. Both have one fingerprint, and the live item comes last. -/

private def twinColumns : List ColumnInfo :=
  [{ name := "id", type := "int", nullable := false }, { name := "amount", type := "decimal" }]

private def twinSchema (relation : String) (tier : AcquisitionTier) : RelationSchema where
  connection := "warehouse"
  relation := relation
  columns := twinColumns
  primaryKey := ["id"]
  acquisitionTier := tier
  sourceFingerprint := some "sha256:twin"

private def twinLib : BuilderLib where
  py := .plain
  schema payload := match Dict.get payload "relation" with
    | some (.str "public.orders") => .ok (twinSchema "public.orders" .handAuthored)
    | _ => .ok (twinSchema "public.refunds" .live)
  usage _ := raise "ValidationError"
  doc _ := .error "Field required"
  definitions _ _ := .ok { forRelation := fun _ => {} }
  columnsOf _ := .ok []
  definitionDigest _ := ""
  titleDigest _ := ""
  isWordChar c := c.isAlphanum || c == '_'
  drafter := nullLLMDrafter

private def twinItem (relation : String) (tier : AcquisitionTier) : EvidenceItem where
  source := "warehouse"
  kind := "relation_schema"
  acquisitionTier := tier
  payload := [("relation", .str relation)]
  sourceFingerprint := "sha256:twin"

private def twinEvidence : List EvidenceItem :=
  [twinItem "public.orders" .handAuthored, twinItem "public.refunds" .live]

/-- Only `refunds` can be observed. -/
private def twinConnectors (source : String) : Option Connector :=
  if source = "warehouse" then some fun relation =>
    if relation = "public.refunds" then .ok twinColumns
    else .error "relation does not exist"
  else none

/-- The schema of `orders` is not probed, and the gate passes its draft. -/
theorem schemasProbed_counterexample :
    ¬ SchemasProbed twinLib twinConnectors twinEvidence ∧
      ∃ built, build twinLib twinEvidence = .ok built ∧
        "semantics/warehouse/orders.yaml" ∈ built.proposals.map (·.target) ∧
        Gate.validate ⟨twinLib.schema, twinConnectors, twinEvidence⟩ (fun _ => [])
          built.proposals = .ok none := by
  constructor
  · intro h
    obtain ⟨b, hb, hdrafted⟩ := exists_ok_of_any (x := do
        let relations ← relationsOf twinLib twinEvidence
        buildItem twinLib relations { forRelation := fun _ => {} }
          (twinItem "public.orders" .handAuthored))
      (P := fun b => b.toProposal.isSome) (by decide +kernel)
    obtain ⟨relations, hrelations, hb⟩ := bind_eq_ok.mp hb
    obtain ⟨built, rfl⟩ : ∃ p, b = .proposal p := by
      cases b with
      | proposal p => exact ⟨p, rfl⟩
      | skipped reason => simp [Built.toProposal] at hdrafted
      | folded => simp [Built.toProposal] at hdrafted
    have hfrom : BuiltFrom twinLib twinEvidence (twinItem "public.orders" .handAuthored) built :=
      ⟨relations, _, hrelations, rfl, hb⟩
    have hop : built.op ≠ .prune := by
      rw [(hfrom.anchored rfl rfl).1]
      decide
    obtain ⟨fingerprint, last, lastSchema, hstated, hof, -, htier, -⟩ :=
      (probes_iff_leadsBack hfrom rfl rfl).mp
        (h _ List.mem_cons_self rfl rfl built _ hfrom hop rfl)
    obtain rfl : "sha256:twin" = fingerprint := Option.some.inj hstated
    obtain rfl : twinItem "public.refunds" .live = last := Option.some.inj hof
    exact Bool.false_ne_true htier
  · obtain ⟨built, hbuilt, hpass⟩ := exists_ok_of_any (x := build twinLib twinEvidence)
      (P := fun built =>
        built.proposals.any (fun p => p.target == "semantics/warehouse/orders.yaml") &&
        (Gate.validate ⟨twinLib.schema, twinConnectors, twinEvidence⟩ (fun _ => [])
          built.proposals).toOption == some none) (by decide +kernel)
    obtain ⟨htarget, hvalid⟩ := Bool.and_eq_true_iff.mp hpass
    obtain ⟨p, hp, heq⟩ := List.any_eq_true.mp htarget
    refine ⟨built, hbuilt, List.mem_map.mpr ⟨p, hp, by simpa using heq⟩, ?_⟩
    have hvalid := eq_of_beq hvalid
    cases hv : Gate.validate ⟨twinLib.schema, twinConnectors, twinEvidence⟩ (fun _ => [])
        built.proposals with
    | error e => simp [hv, Except.toOption] at hvalid
    | ok r => simpa [hv, Except.toOption] using hvalid

end Canonic
