import Canonic.Json
import Canonic.Text
import Canonic.Exc
import Canonic.Contracts.Models

set_option autoImplicit false

/-! # Ingestion data models

`ingestion/models.py` and the accepted facts of `ingestion/reconciliation.py`: evidence, the
proposals drafted from it, the files accepted so far, and the decisions of a run.

The content of a file is an open dictionary of JSON values, as in the source. Time stamps are left
out: no decision reads them. -/

namespace Canonic

/-! ## Provenance, tiers and operations -/

/-- Trust origin of a file. -/
inductive Provenance where
  | boardApproved | humanCurated | inferred
  deriving DecidableEq, Repr

def Provenance.value : Provenance → String
  | boardApproved => "board_approved" | humanCurated => "human_curated" | inferred => "inferred"

/-- `_TIER_ORDER`: the authority of a provenance. -/
def Provenance.tier : Provenance → Nat
  | inferred => 0 | humanCurated => 1 | boardApproved => 2

/-- Where a schema was acquired. -/
inductive AcquisitionTier where
  | live | modeling | queryHistory | declarative | sample | handAuthored
  deriving DecidableEq, Repr

/-- `_CURATION_RANK`: only modeling evidence outranks the others. -/
def AcquisitionTier.curationRank : AcquisitionTier → Nat
  | modeling => 1 | _ => 0

inductive DraftedBy where
  | deterministic | llm
  deriving DecidableEq, Repr

inductive ProposalOp where
  | add | edit | prune
  deriving DecidableEq, Repr

inductive Decision where
  | add | contradiction | edit | noOp | prune
  deriving DecidableEq, Repr

/-! ## Evidence and proposals -/

/-- One evidence record. Its kind is an open set, so it is a text. -/
structure EvidenceItem where
  source : String
  kind : String
  acquisitionTier : AcquisitionTier
  payload : Content
  sourceFingerprint : String
  deriving DecidableEq

/-- A confidence lies between 0 and 1. -/
def Confidence := { q : ℚ // 0 ≤ q ∧ q ≤ 1 }

instance instDecidableEqConfidence : DecidableEq Confidence :=
  inferInstanceAs (DecidableEq { q : ℚ // 0 ≤ q ∧ q ≤ 1 })

/-- Full confidence. -/
def Confidence.one : Confidence := ⟨1, zero_le_one, le_refl 1⟩

/-- A proposed change of one file. -/
structure Proposal where
  target : String
  op : ProposalOp
  content : Content
  provenance : Provenance := .inferred
  confidence : Confidence
  anchoredTo : List String := []
  draftedBy : DraftedBy := .deterministic
  acquisitionTier : AcquisitionTier := .live
  deriving DecidableEq

/-! ## Files -/

/-- A list of texts as JSON. -/
def Json.texts (xs : List String) : Json := .arr (xs.map .str)

/-- An optional text as JSON. -/
def Json.text? (x : Option String) : Json := x.elim .null .str

/-- `text.replace(" ", "_")`. -/
def underscored (text : String) : String := text.map fun c => if c = ' ' then '_' else c

/-- The file a binding is kept in, as the accepted store and the candidates name it. -/
def bindingTarget (lib : PyLib) (metric : String) : String :=
  "contracts/metrics/" ++ lib.lower (underscored metric) ++ ".yaml"

/-! ## Accepted files -/

/-- The engine's view of one accepted file. -/
structure ExistingFact where
  target : String
  content : Content
  provenance : Provenance := .inferred
  frozen : Bool := false
  sourceFingerprint : Option String := none
  definitionFingerprint : Option String := none
  deriving DecidableEq

/-- The accepted files, each under its own target. -/
structure AcceptedStore where
  facts : List ExistingFact
  /-- A dictionary holds one fact for a target. -/
  nodup : (facts.map (·.target)).Nodup := by decide

namespace AcceptedStore

/-- The accepted fact at a target. -/
def get (s : AcceptedStore) (target : String) : Option ExistingFact :=
  s.facts.find? fun f => f.target == target

/-- All accepted targets. -/
def targets (s : AcceptedStore) : List String := s.facts.map (·.target)

theorem get_target {s : AcceptedStore} {t : String} {f : ExistingFact} (h : s.get t = some f) :
    f.target = t := by
  simpa using List.find?_some h

theorem mem_of_get {s : AcceptedStore} {t : String} {f : ExistingFact} (h : s.get t = some f) :
    f ∈ s.facts :=
  List.mem_of_find?_eq_some h

/-- A fact of the store is found under its target. -/
theorem get_of_mem {s : AcceptedStore} {f : ExistingFact} (h : f ∈ s.facts) :
    s.get f.target = some f := by
  obtain ⟨g, hg⟩ : ∃ g, s.get f.target = some g := by
    rw [← Option.isSome_iff_exists, get, List.find?_isSome]
    exact ⟨f, h, by simp⟩
  have hgf : g = f := List.inj_on_of_nodup_map s.nodup (mem_of_get hg) h (get_target hg)
  rw [hg, hgf]

end AcceptedStore

/-! ## The report -/

/-- One decision, with both sides recorded. -/
structure Entry where
  decision : Decision
  target : String
  proposal : Proposal
  existing : Option Content := none
  existingProvenance : Option Provenance := none
  recommendedAction : Option String := none
  autoApply : Bool := false
  lowConfidence : Bool := false
  existingFrozen : Bool := false
  deriving DecidableEq

/-- The two decisions that write a file. -/
def Decision.isAdding (d : Decision) : Bool := d == .add || d == .edit

/-- The entries of a run, in the order they were decided. -/
abbrev Report := List Entry

end Canonic
