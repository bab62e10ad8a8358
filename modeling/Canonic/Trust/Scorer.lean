import Canonic.Compiler.Compose
import Canonic.Trust.Periods
import Canonic.Feedback.AssertionHistory
import Canonic.Feedback.History
import Canonic.Ingestion.Models

set_option autoImplicit false

/-! # Trust scoring

`trust/models.py`, `trust/signals.py`, `trust/freshness.py` and `TrustScorer` of `trust/scorer.py`:
every signal may cap the tier of an answer, and the worst cap stands, with the reasons of the
signals that put it there.

The tiers are ordered, so the loop of the scorer computes a minimum. -/

namespace Canonic

/-! ## Tiers -/

/-- `TrustTier`, worst to best. -/
inductive TrustTier where
  | caution | provisional | trusted
  deriving DecidableEq, Repr

namespace TrustTier

def value : TrustTier → String
  | caution => "caution" | provisional => "provisional" | trusted => "trusted"

/-- `_TIER_ORDER.index(tier)`. -/
def index : TrustTier → Nat
  | caution => 0 | provisional => 1 | trusted => 2

/-- `TrustTier(text)`. -/
def ofValue? (text : String) : Option TrustTier :=
  [caution, provisional, trusted].find? fun t => t.value == text

theorem index_injective : Function.Injective index := by
  intro a b h
  cases a <;> cases b <;> first | rfl | cases h

instance : LinearOrder TrustTier := LinearOrder.lift' index index_injective

theorem le_iff {a b : TrustTier} : a ≤ b ↔ a.index ≤ b.index := Iff.rfl

theorem lt_iff {a b : TrustTier} : a < b ↔ a.index < b.index := Iff.rfl

theorem le_trusted (a : TrustTier) : a ≤ trusted := by
  rw [le_iff]
  cases a <;> decide

end TrustTier

/-- `tier_meets`. -/
def tierMeets (tier floor : TrustTier) : Bool := tier.index ≥ floor.index

/-- `SignalVerdict`. -/
structure SignalVerdict where
  cap : Option TrustTier
  reason : Option String := none
  deriving DecidableEq, Repr

/-- `TrustScore`. -/
structure TrustScore where
  tier : TrustTier
  reasons : List String := []
  deriving DecidableEq, Repr

/-! ## The scorer -/

/-- `[verdict.reason] if verdict.reason else []`. -/
def SignalVerdict.reasons (v : SignalVerdict) : List String :=
  (v.reason.filter (· ≠ "")).toList

/-- One signal in the loop of `TrustScorer.score`. -/
def TrustScore.fold (s : TrustScore) (v : SignalVerdict) : TrustScore :=
  match v.cap with
  | none => s
  | some cap =>
      if cap.index < s.tier.index then ⟨cap, v.reasons⟩
      else if cap = s.tier then ⟨s.tier, s.reasons ++ v.reasons⟩
      else s

/-- `TrustScorer.score`. -/
def TrustScorer.score (signals : List SignalVerdict) : TrustScore :=
  signals.foldl TrustScore.fold ⟨.trusted, []⟩

/-- The reasons of the signals with a cap. -/
def reasonsAt (t : TrustTier) (signals : List SignalVerdict) : List String :=
  (signals.filter fun v => v.cap = some t).flatMap (·.reasons)

/-- What the scorer has found among the signals so far. -/
structure Scores (signals : List SignalVerdict) (s : TrustScore) : Prop where
  /-- No signal caps below the tier. -/
  le : ∀ v ∈ signals, ∀ cap, v.cap = some cap → s.tier ≤ cap
  /-- A tier below the best was put there by a signal. -/
  attained : s.tier = .trusted ∨ ∃ v ∈ signals, v.cap = some s.tier
  reasons : s.reasons = reasonsAt s.tier signals

theorem reasonsAt_concat (t : TrustTier) (signals : List SignalVerdict) (v : SignalVerdict) :
    reasonsAt t (signals ++ [v]) =
      reasonsAt t signals ++ if v.cap = some t then v.reasons else [] := by
  by_cases h : v.cap = some t <;> simp [reasonsAt, h]

/-- A tier below every cap so far has no reasons yet. -/
theorem reasonsAt_eq_nil {t : TrustTier} {signals : List SignalVerdict}
    (h : ∀ v ∈ signals, ∀ cap, v.cap = some cap → t < cap) : reasonsAt t signals = [] := by
  have hnil : signals.filter (fun v => v.cap = some t) = [] := by
    rw [List.filter_eq_nil_iff]
    intro v hv hcap
    exact lt_irrefl t (h v hv t (by simpa using hcap))
  rw [reasonsAt, hnil]
  rfl

theorem Scores.fold {signals : List SignalVerdict} {s : TrustScore} (h : Scores signals s)
    (v : SignalVerdict) : Scores (signals ++ [v]) (s.fold v) := by
  unfold TrustScore.fold
  cases hv : v.cap with
  -- a signal without a cap leaves the score as it is
  | none =>
      refine ⟨?_, ?_, ?_⟩
      · intro w hw cap hcap
        rcases List.mem_append.mp hw with hw | hw
        · exact h.le w hw cap hcap
        · obtain rfl := List.mem_singleton.mp hw
          rw [hv] at hcap
          cases hcap
      · exact h.attained.imp_right fun ⟨w, hw, hcap⟩ => ⟨w, List.mem_append_left _ hw, hcap⟩
      · rw [reasonsAt_concat, hv, if_neg (by simp), List.append_nil, h.reasons]
  | some cap =>
      dsimp only
      by_cases hlt : cap.index < s.tier.index
      · -- a cap below the tier replaces it, and only its own reason is kept
        have hbelow : ∀ w ∈ signals, ∀ c, w.cap = some c → cap < c := fun w hw c hc =>
          lt_of_lt_of_le (TrustTier.lt_iff.mpr hlt) (h.le w hw c hc)
        rw [if_pos hlt]
        refine ⟨?_, Or.inr ⟨v, by simp, hv⟩, ?_⟩
        · intro w hw c hc
          rcases List.mem_append.mp hw with hw | hw
          · exact (hbelow w hw c hc).le
          · obtain rfl := List.mem_singleton.mp hw
            exact (Option.some.inj (hv.symm.trans hc)).le
        · rw [reasonsAt_concat, reasonsAt_eq_nil hbelow, hv, if_pos rfl, List.nil_append]
      · have hle : s.tier ≤ cap := not_lt.mp hlt
        have hall : ∀ w ∈ signals ++ [v], ∀ c, w.cap = some c → s.tier ≤ c := by
          intro w hw c hc
          rcases List.mem_append.mp hw with hw | hw
          · exact h.le w hw c hc
          · obtain rfl := List.mem_singleton.mp hw
            exact (Option.some.inj (hv.symm.trans hc)) ▸ hle
        have hattained : s.tier = .trusted ∨ ∃ w ∈ signals ++ [v], w.cap = some s.tier :=
          h.attained.imp_right fun ⟨w, hw, hcap⟩ => ⟨w, List.mem_append_left _ hw, hcap⟩
        rw [if_neg hlt]
        by_cases heq : cap = s.tier
        · rw [if_pos heq]
          refine ⟨hall, hattained, ?_⟩
          rw [reasonsAt_concat, hv, if_pos (by rw [heq]), h.reasons]
        · rw [if_neg heq]
          refine ⟨hall, hattained, ?_⟩
          rw [reasonsAt_concat, hv, if_neg fun hc => heq (Option.some.inj hc), List.append_nil,
            h.reasons]

theorem scores (signals : List SignalVerdict) : Scores signals (TrustScorer.score signals) := by
  induction signals using List.reverseRecOn with
  | nil => exact ⟨fun v hv => absurd hv List.not_mem_nil, Or.inl rfl, rfl⟩
  | append_singleton signals v ih =>
      have hfold : TrustScorer.score (signals ++ [v]) = (TrustScorer.score signals).fold v := by
        simp [TrustScorer.score]
      exact hfold ▸ ih.fold v

/-- The tier is the greatest one that no signal caps below. -/
theorem le_score_tier {signals : List SignalVerdict} {t : TrustTier} :
    t ≤ (TrustScorer.score signals).tier ↔ ∀ v ∈ signals, ∀ cap, v.cap = some cap → t ≤ cap := by
  have hs := scores signals
  constructor
  · intro ht v hv cap hcap
    exact ht.trans (hs.le v hv cap hcap)
  · intro hall
    rcases hs.attained with htop | ⟨v, hv, hcap⟩
    · exact htop ▸ t.le_trusted
    · exact hall v hv _ hcap

/-- A signal that leaves an answer trusted. -/
def SignalVerdict.Allows (v : SignalVerdict) : Prop := ∀ cap, v.cap = some cap → cap = .trusted

/-- An answer is trusted exactly when every signal leaves it trusted. -/
theorem score_trusted_iff {signals : List SignalVerdict} :
    (TrustScorer.score signals).tier = .trusted ↔ ∀ v ∈ signals, v.Allows := by
  constructor
  · intro htop v hv cap hcap
    exact le_antisymm cap.le_trusted (htop ▸ (scores signals).le v hv cap hcap)
  · intro hall
    refine le_antisymm (TrustTier.le_trusted _) (le_score_tier.mpr fun v hv cap hcap => ?_)
    exact (hall v hv cap hcap).ge

theorem allows_none (reason : Option String) : SignalVerdict.Allows ⟨none, reason⟩ := by
  intro cap hcap
  cases hcap

theorem not_allows {cap : TrustTier} (h : cap ≠ .trusted) (reason : Option String) :
    ¬ SignalVerdict.Allows ⟨some cap, reason⟩ := fun hall => h (hall cap rfl)

/-- A signal that caps under a condition and is quiet otherwise. -/
theorem allows_ite {c : Prop} [Decidable c] {cap : TrustTier} (h : cap ≠ .trusted)
    (reason reason' : Option String) :
    (if c then (⟨some cap, reason⟩ : SignalVerdict) else ⟨none, reason'⟩).Allows ↔ ¬ c := by
  by_cases hc : c
  · simpa [hc] using not_allows h reason
  · simpa [hc] using allows_none reason'

/-- More signals never raise the tier. -/
theorem score_append_le (xs ys : List SignalVerdict) :
    (TrustScorer.score (xs ++ ys)).tier ≤ (TrustScorer.score xs).tier :=
  le_score_tier.mpr fun v hv cap hcap =>
    (scores (xs ++ ys)).le v (List.mem_append_left _ hv) cap hcap

theorem score_append (xs ys : List SignalVerdict) : (TrustScorer.score (xs ++ ys)).tier =
    min (TrustScorer.score xs).tier (TrustScorer.score ys).tier := by
  refine eq_of_forall_le_iff fun t => ?_
  rw [le_min_iff, le_score_tier, le_score_tier, le_score_tier]
  simp only [List.mem_append, or_imp, forall_and]

/-! ## Signals of a metric -/

/-- `TrustInput`. -/
structure TrustInput where
  metric : String
  provenance : String
  hasAssertion : Bool
  binding : Option String := none
  owner : Option String := none
  deriving DecidableEq, Repr

/-- How reasons refer to an input. -/
def TrustInput.label (t : TrustInput) : String :=
  match t.owner with
  | none => t.metric
  | some owner => s!"{owner}: component {t.metric}"

/-- `provenance_signal`. -/
def provenanceSignal (t : TrustInput) : SignalVerdict :=
  if t.provenance = Provenance.inferred.value then
    ⟨some .provisional, some s!"{t.label}: binding inferred"⟩
  else ⟨none, none⟩

/-- The record an input's binding has. -/
def recordOf (t : TrustInput) (history : Option AssertionHistory) : Option AssertionRecord :=
  match history, t.binding with
  | some h, some b => if b = "" then none else h.statusFor b
  | _, _ => none

theorem provenanceSignal_allows {t : TrustInput} :
    (provenanceSignal t).Allows ↔ t.provenance ≠ Provenance.inferred.value :=
  allows_ite (by decide) _ _

/-- `assertion_signal`. -/
def assertionSignal (t : TrustInput) (history : Option AssertionHistory) : SignalVerdict :=
  if t.hasAssertion = false then
    ⟨some .provisional, some s!"{t.label}: untested (no assertion)"⟩
  else match recordOf t history with
    | none => ⟨some .provisional,
        some s!"{t.label}: assertion unverified (pass/fail not yet persisted)"⟩
    | some record =>
        if record.passed then ⟨none, none⟩
        else ⟨some .caution, some s!"{t.label}: assertion failed ({record.assertionId})"⟩

theorem assertionSignal_allows {t : TrustInput} {history : Option AssertionHistory} :
    (assertionSignal t history).Allows ↔
      t.hasAssertion = true ∧ ∃ r, recordOf t history = some r ∧ r.passed = true := by
  unfold assertionSignal
  cases ha : t.hasAssertion with
  | false => simpa using not_allows (by decide) _
  | true =>
      rw [if_neg (by decide)]
      cases hr : recordOf t history with
      | none => simpa using not_allows (by decide) _
      | some r =>
          cases hp : r.passed with
          | false => simpa [hp] using not_allows (by decide) _
          | true => simpa [hp] using allows_none none

/-- `static_signals_for`. -/
def staticSignalsFor (inputs : List TrustInput) (history : Option AssertionHistory) :
    List SignalVerdict :=
  inputs.flatMap fun t => [provenanceSignal t, assertionSignal t history]

/-- `is_capped`: the latest wrong definition is recent and no later outcome is correct; `recent` is
the test of a timestamp against the window. -/
def BindingOutcomeHistory.isCapped (h : BindingOutcomeHistory) (recent : String → Bool)
    (binding : String) : Bool :=
  match (h.wrongDefinitionRecords (fun _ => true) binding).argmax (·.ts) with
  | none => false
  | some latestWrong =>
      recent latestWrong.ts && !(h.recordsFor binding).any fun r =>
        r.verdict == .correct && decide (latestWrong.ts < r.ts)

/-- `outcome_signal`. -/
def outcomeSignal (t : TrustInput) (h : BindingOutcomeHistory) (recent : String → Bool) :
    SignalVerdict :=
  match t.binding with
  | none => ⟨none, none⟩
  | some b =>
      if h.isCapped recent b then
        ⟨some .caution, some (match t.owner with
          | none => "outcome: confirmed-wrong"
          | some _ => s!"{t.label}: outcome: confirmed-wrong")⟩
      else ⟨none, none⟩

/-- A binding is capped by a latest wrong definition that is recent and was not answered since. -/
theorem isCapped_iff {h : BindingOutcomeHistory} {recent : String → Bool} {binding : String} :
    h.isCapped recent binding = true ↔ ∃ w ∈ h.wrongDefinitionRecords (fun _ => true) binding,
      (∀ w' ∈ h.wrongDefinitionRecords (fun _ => true) binding, w'.ts ≤ w.ts) ∧
        recent w.ts = true ∧
        ∀ r ∈ h.recordsFor binding, r.verdict = .correct → r.ts ≤ w.ts := by
  unfold BindingOutcomeHistory.isCapped
  cases hlatest : (h.wrongDefinitionRecords (fun _ => true) binding).argmax (·.ts) with
  | none =>
      rw [List.argmax_eq_none] at hlatest
      simp [hlatest]
  | some latest =>
      have hmem := List.argmax_mem hlatest
      have hmax : ∀ w ∈ h.wrongDefinitionRecords (fun _ => true) binding, w.ts ≤ latest.ts :=
        fun w hw => List.le_of_mem_argmax hw hlatest
      simp only [Bool.and_eq_true, Bool.not_eq_true', List.any_eq_false, beq_iff_eq,
        decide_eq_true_eq, not_and, not_lt]
      constructor
      · rintro ⟨hrecent, hcorrect⟩
        exact ⟨latest, hmem, hmax, hrecent, hcorrect⟩
      · rintro ⟨w, hw, hwmax, hrecent, hcorrect⟩
        have hts : w.ts = latest.ts := le_antisymm (hmax w hw) (hwmax latest hmem)
        exact hts ▸ ⟨hrecent, hcorrect⟩

theorem outcomeSignal_allows {t : TrustInput} {h : BindingOutcomeHistory}
    {recent : String → Bool} : (outcomeSignal t h recent).Allows ↔
      ∀ b, t.binding = some b → h.isCapped recent b = false := by
  unfold outcomeSignal
  cases t.binding with
  | none => simpa using allows_none none
  | some b => simpa using allows_ite (c := h.isCapped recent b = true) (by decide) _ _

/-! ## Signals of the served rows -/

/-- `is_stale`: the age of a stamp against the policy, both in microseconds; `stamp` is
`datetime.fromisoformat` of the text, naive stamps read as UTC. -/
def isStale (stamp : String → Option Int) (now : Int) (lastValidatedAt : Option String)
    (staleAfterDays : Option Int) : Bool :=
  match staleAfterDays, lastValidatedAt with
  | some days, some text => (stamp text).elim false fun s => decide (days * dayMicros < now - s)
  | _, _ => false

/-- `apply_staleness_policy`. -/
def applyStalenessPolicy (stamp : String → Option Int) (now : Int) (staleAfterDays : Option Int)
    (freshness : List SourceFreshness) : List SourceFreshness :=
  if staleAfterDays.isNone then freshness
  else freshness.map fun f =>
    { f with stale := isStale stamp now f.lastValidatedAt staleAfterDays }

/-- `finality_signal`. -/
def finalitySignal (provisionalRows : Option Nat) : SignalVerdict :=
  if provisionalRows.getD 0 ≠ 0 then
    ⟨some .provisional, some "finality: provisional rows included"⟩
  else ⟨none, none⟩

theorem finalitySignal_allows {rows : Option Nat} :
    (finalitySignal rows).Allows ↔ rows.getD 0 = 0 :=
  (allows_ite (by decide) _ _).trans not_not

/-- `freshness_signal`. -/
def freshnessSignal (freshness : List SourceFreshness) : SignalVerdict :=
  match ((freshness.filter (·.stale)).map (·.source)).insertionSort (· ≤ ·) with
  | [] => ⟨none, none⟩
  | stale => ⟨some .provisional, some ("freshness: stale (" ++ ", ".intercalate stale ++ ")")⟩

theorem freshnessSignal_allows {freshness : List SourceFreshness} :
    (freshnessSignal freshness).Allows ↔ ∀ f ∈ freshness, f.stale = false := by
  have hperm := List.perm_insertionSort (· ≤ ·) ((freshness.filter (·.stale)).map (·.source))
  have hnil : ((freshness.filter (·.stale)).map (·.source)).insertionSort (· ≤ ·) = [] ↔
      ∀ f ∈ freshness, f.stale = false := by
    rw [← List.length_eq_zero_iff, hperm.length_eq, List.length_eq_zero_iff, List.map_eq_nil_iff,
      List.filter_eq_nil_iff]
    simp
  rw [← hnil, freshnessSignal]
  cases ((freshness.filter (·.stale)).map (·.source)).insertionSort (· ≤ ·) with
  | nil => simpa using allows_none none
  | cons s stale => simpa using not_allows (by decide) _

end Canonic
