import Canonic.Ingestion.Builder
import Canonic.Ingestion.Reconciliation
import Canonic.Ingestion.Examples

set_option autoImplicit false

/-! # The ingestion pipeline

`ingestion/pipeline.py`: the stages of a run up to the report that is emitted. -/

namespace Canonic

/-- What a run calls: the library of the builder, and the rendering of pages. -/
structure IngestLib extends BuilderLib where
  render : String → Json → Dict Content → Reads RenderedPage

/-- The part reconciliation calls. -/
def IngestLib.reconcileLib (lib : IngestLib) : ReconcileLib := ⟨lib.py, lib.render⟩

/-- The first stages of `_emit`: build, reconcile, refine and enrich. -/
def ingest (lib : IngestLib) (policy : AutoApplyConfig) (drafter : ReconcileDrafter)
    (accepted : AcceptedStore) (bindings : List BindingFile) (assertions : List Assertion)
    (evidence : List EvidenceItem) : Reads Report := do
  let built ← build lib.toBuilderLib evidence
  let report ← reconcile lib.reconcileLib policy accepted built.proposals
  let refined ← refine lib.py policy drafter accepted report
  enrich lib.py bindings assertions evidence refined

end Canonic
