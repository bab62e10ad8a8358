import Canonic.Ingestion.Pipeline
import Canonic.Ingestion.LeastFixpoint

set_option autoImplicit false

/-! # Sentinels

The builder marks four kinds of proposals with a key in their content, for a later stage to unwrap:
deprecated alternatives, answer outcomes, contract candidates and page drafts. No mark is meant to
reach a file. Three of the kinds are always unwrapped. An alternative is only where the file it is
an alternative to is accepted, so it matters that the builder names this file as the accepted
store does. -/

namespace Canonic

/-- The keys that mark a proposal. -/
def sentinels : List String :=
  [daSentinel, answerOutcomeSentinel, candidateSentinel, pageDraftSentinel]

/-- A content without a mark. -/
def SentinelFree (content : Content) : Prop := ∀ s ∈ sentinels, Dict.has content s = false

/-- The metric a proposal refers to: the title an alternative is recorded for, the metric outcomes
were reported on, or the one a candidate binds. -/
inductive Proposal.RefersTo (py : PyLib) (p : Proposal) (metric : String) : Prop where
  | alternative (fragment : Content) (marked : Dict.get p.content daSentinel = some (.obj fragment))
      (title : Dict.get fragment "reason" = some (.str metric))
  | outcome (payload : Content)
      (marked : Dict.get p.content answerOutcomeSentinel = some (.obj payload)) (value : Json)
      (named : Dict.get payload "metric" = some value) (text : py.str value = metric)
  | candidate (marked : isCandidate p = true)
      (named : Dict.get p.content "metric" = some (.str metric))

/-- The metric that an alternative or an outcome of the evidence names. -/
def EvidenceItem.Names (lib : BuilderLib) (item : EvidenceItem) (metric : String) : Prop :=
  (item.kind = "usage_evidence" ∧ ∃ u, lib.usage item.payload = .ok u ∧ u.role = .alternative ∧
    u.title = metric) ∨
  (item.kind = "answer_outcome" ∧ ∃ value, Dict.get item.payload "metric" = some value ∧
    lib.py.str value = metric)

/-! ## Contents -/

theorem sentinelFree_of_keys {content : Content} (keys : List String)
    (h : ∀ k ∈ content.map (·.1), k ∈ keys) (hkeys : ∀ k ∈ keys, k ∉ sentinels) :
    SentinelFree content := by
  intro s hs
  rw [Bool.eq_false_iff]
  intro hhas
  exact hkeys s (h s (Dict.has_iff.mp hhas)) hs

/-- The marks of a content do not depend on a field that is none. -/
theorem SentinelFree.congr {c d : Content} {key : String} (hkey : key ∉ sentinels)
    (h : c.filter (fun f => f.1 ≠ key) = d.filter fun f => f.1 ≠ key) :
    SentinelFree c ↔ SentinelFree d := by
  have hhas : ∀ (c : Content) (s : String), s ≠ key →
      Dict.has c s = Dict.has (c.filter fun f => f.1 ≠ key) s := by
    intro c s hs
    rw [Bool.eq_iff_iff, Dict.has_iff, Dict.has_iff]
    simp only [List.mem_map, List.mem_filter]
    constructor
    · rintro ⟨f, hf, rfl⟩
      exact ⟨f, ⟨hf, by simpa using hs⟩, rfl⟩
    · rintro ⟨f, ⟨hf, -⟩, rfl⟩
      exact ⟨f, hf, rfl⟩
  have hsame : ∀ s ∈ sentinels, Dict.has c s = Dict.has d s := by
    intro s hs
    have hne : s ≠ key := fun heq => hkey (heq ▸ hs)
    rw [hhas c s hne, hhas d s hne, h]
  exact forall₂_congr fun s hs => by rw [hsame s hs]

theorem sentinelFree_set {content : Content} {key : String} {value : Json}
    (hkey : key ∉ sentinels) : SentinelFree (Dict.set content key value) ↔ SentinelFree content :=
  SentinelFree.congr hkey (Dict.filter_set content key value)

theorem SameButExamples.sentinelFree_iff {a b : Entry} (h : SameButExamples a b) :
    SentinelFree a.proposal.content ↔ SentinelFree b.proposal.content :=
  SentinelFree.congr (show "examples" ∉ sentinels by decide) (congrArg (·.proposal.content) h)

theorem BindingFile.dump_sentinelFree (b : BindingFile) : SentinelFree b.dump := by
  refine sentinelFree_of_keys (b.dump.map (·.1)) (fun k hk => hk) ?_
  simp [BindingFile.dump, sentinels, daSentinel, answerOutcomeSentinel, candidateSentinel,
    pageDraftSentinel]

theorem examplesEdit_sentinelFree (py : PyLib) (b : BindingFile) (xs : List Example) :
    SentinelFree (examplesEdit py b xs).proposal.content := by
  show SentinelFree (Dict.set b.dump "examples" (.arr (xs.map (·.dump))))
  rw [sentinelFree_set (by decide)]
  exact b.dump_sentinelFree

/-! ## The proposals of the builder -/

/-- The mark of a proposal that is no candidate. -/
inductive Marked (py : PyLib) (p : Proposal) : Prop where
  | plain (free : SentinelFree p.content)
  | alternative (title : String) (target : p.target = metricTarget py title)
      (keys : p.content.map (·.1) = [daSentinel])
  | outcome (keys : p.content.map (·.1) = [answerOutcomeSentinel])
  | page (slug : String) (target : p.target = "knowledge/global/" ++ slug)
      (keys : p.content.map (·.1) = [pageDraftSentinel])

theorem Marked.not_candidate {py : PyLib} {p : Proposal} (h : Marked py p) :
    isCandidate p = false := by
  have hkeys : ∀ s, p.content.map (·.1) = [s] → s ≠ candidateSentinel →
      isCandidate p = false := by
    intro s hs hne
    rw [isCandidate, Bool.eq_false_iff, Ne, Dict.has_iff, hs]
    simpa using Ne.symm hne
  cases h with
  | plain hfree => exact hfree candidateSentinel (by decide)
  | alternative _ _ hs => exact hkeys _ hs (by decide)
  | outcome hs => exact hkeys _ hs (by decide)
  | page _ _ hs => exact hkeys _ hs (by decide)

theorem Drafted.marked {lib : BuilderLib} {evidence : List EvidenceItem} {p : Proposal}
    (h : Drafted lib evidence p) : Marked lib.py p := by
  cases h with
  | source hkeys => exact .plain (sentinelFree_of_keys sourceKeys hkeys (by decide))
  | usage item _ _ u _ heq =>
      subst heq
      cases hrole : u.role with
      | alternative =>
          exact .alternative u.title (by simp [buildUsageEvidence, hrole, anchored])
            (by simp [buildUsageEvidence, hrole, anchored])
      | trustedExample =>
          refine .plain (sentinelFree_of_keys ["id", "query", "expect", "source_of_truth"]
            ?_ (by decide))
          simp [buildUsageEvidence, hrole, anchored]
  | outcome item _ _ heq =>
      obtain ⟨value, -, h⟩ := bind_eq_ok.mp heq
      obtain ⟨refs, -, h⟩ := bind_eq_ok.mp h
      obtain rfl := pure_eq_ok.mp h
      exact .outcome rfl
  | page item doc heq =>
      subst heq
      exact .page (pageSlug lib.py lib.titleDigest doc.title ++ ".md") (String.append_assoc ..) rfl

/-- The stripped candidate carries no mark. -/
theorem strip_sentinelFree (py : PyLib) (c : Candidate) :
    SentinelFree (c.proposal py).strip.content := by
  refine sentinelFree_of_keys ["metric", "canonical", "provenance", "aliases"] ?_
    (by decide)
  intro k hk
  obtain ⟨f, hf, rfl⟩ := List.mem_map.mp hk
  obtain ⟨hmem, hne⟩ := List.mem_filter.mp hf
  simp only [Candidate.proposal, List.mem_append] at hmem
  rcases hmem with hmem | hmem
  · simp only [List.mem_cons, List.not_mem_nil, or_false] at hmem
    rcases hmem with rfl | rfl | rfl | rfl
    · simp
    · simp
    · simp
    · simp at hne
  · split at hmem
    · simp at hmem
    · obtain rfl := List.mem_singleton.mp hmem
      simp

/-! ## The entries of candidates -/

section Candidates

variable {py : PyLib} {policy : AutoApplyConfig} {accepted : AcceptedStore} {sources : Dict Content}

theorem firstAtTarget_distinct (py : PyLib) (cs : List Candidate) :
    DistinctTargets py (firstAtTarget py cs) := by
  induction cs with
  | nil => exact List.nodup_nil
  | cons c cs ih =>
      refine List.nodup_cons.mpr ⟨?_, ih.filter _⟩
      intro hmem
      obtain ⟨d, hd, heq⟩ := List.mem_map.mp hmem
      simpa [heq] using (List.mem_filter.mp hd).2

/-- A candidate is skipped, or added without its mark. -/
theorem CandidateDecided.entry {c : Candidate} {e : Entry}
    (h : CandidateDecided accepted (fun p => reconcileOne py policy p none) (c.proposal py) e) :
    e.target = c.target py ∧
      (e.decision = .noOp ∨ e.decision = .add ∧ SentinelFree e.proposal.content) := by
  rcases h.outcome with ⟨hnoOp, -, htarget⟩ | ⟨-, hnew⟩
  · exact ⟨htarget, .inl hnoOp⟩
  · refine ⟨(reconcileOne_decided hnew).1, .inr ?_⟩
    simp only [reconcileOne, has_outcome_strip, Bool.false_eq_true, if_false, pure_eq_ok] at hnew
    rw [← hnew]
    exact ⟨rfl, strip_sentinelFree py c⟩

theorem resolveReady_targets {bound bound' : List String} {cs : List Candidate} {es : List Entry}
    (h : resolveReady py accepted sources (fun p => reconcileOne py policy p none) bound
      (cs.map (·.proposal py)) = .ok (es, bound')) {c : Candidate} (hc : c ∈ cs) :
    ∃ e ∈ es, e.target = c.target py := by
  induction cs generalizing bound es with
  | nil => simp at hc
  | cons d cs ih =>
      obtain ⟨⟨e, mid⟩, hone, h⟩ := bind_eq_ok.mp h
      obtain ⟨⟨es', last⟩, hrest, h⟩ := bind_eq_ok.mp h
      obtain ⟨rfl, rfl⟩ := Prod.mk.inj (pure_eq_ok.mp h)
      rcases List.mem_cons.mp hc with rfl | hc
      · exact ⟨e, List.mem_cons_self, (resolveCandidate_decided hone).entry.1⟩
      · obtain ⟨e', he', htarget⟩ := ih hrest hc
        exact ⟨e', List.mem_cons_of_mem e he', htarget⟩

/-- Every candidate has an entry at its target. -/
theorem exists_resolved {n : Nat} {bound : List String} {cs : List Candidate} {es : List Entry}
    (hn : cs.length ≤ n) (hnd : DistinctTargets py cs)
    (h : resolveRounds py accepted sources (fun p => reconcileOne py policy p none) n bound
      (cs.map (·.proposal py)) = .ok es) {c : Candidate} (hc : c ∈ cs) :
    ∃ e ∈ es, e.target = c.target py := by
  obtain ⟨bound', hready⟩ := resolveRounds_turns hn hnd h
  exact resolveReady_targets hready ((Closure.turns_perm n cs).mem_iff.mpr hc)

end Candidates

/-! ## Runs -/

section Runs

variable {lib : IngestLib} {policy : AutoApplyConfig} {accepted : AcceptedStore}
  {evidence : List EvidenceItem} {built : BuildResult}

/-- A proposal of the builder carries a mark of its own, or is a candidate. -/
theorem built_cases (h : build lib.toBuilderLib evidence = .ok built) :
    ∃ cs, DistinctTargets lib.py cs ∧
      built.proposals.filter isCandidate = cs.map (·.proposal lib.py) ∧
      ∀ p ∈ built.proposals, Marked lib.py p ∨ ∃ c ∈ cs, p = c.proposal lib.py := by
  obtain ⟨ps, cs, hproposals, hdrafted, -, -⟩ := build_eq_ok h
  have hmarked : ∀ p ∈ ps, Marked lib.py p := fun p hp => (hdrafted p hp).marked
  refine ⟨firstAtTarget lib.py cs, firstAtTarget_distinct lib.py cs, ?_, ?_⟩
  · have hps : ps.filter isCandidate = [] := by
      rw [List.filter_eq_nil_iff]
      intro p hp
      simp [(hmarked p hp).not_candidate]
    have hcs : ∀ xs : List Candidate, (xs.map (·.proposal lib.py)).filter isCandidate =
        xs.map (·.proposal lib.py) := by
      intro xs
      rw [List.filter_eq_self]
      intro p hp
      obtain ⟨c, -, rfl⟩ := List.mem_map.mp hp
      rfl
    rw [hproposals, List.filter_append, hps, hcs, List.nil_append]
  · intro p hp
    rw [hproposals, List.mem_append] at hp
    rcases hp with hp | hp
    · exact .inl (hmarked p hp)
    · obtain ⟨c, hc, rfl⟩ := List.mem_map.mp hp
      exact .inr ⟨c, hc, rfl⟩

/-- The last entry at a target that a candidate addresses is the one of a candidate. -/
theorem lastAt_candidate (h : build lib.toBuilderLib evidence = .ok built)
    {drafter : ReconcileDrafter} {report report' : Report}
    (hreport : reconcile lib.reconcileLib policy accepted built.proposals = .ok report)
    (hrefine : refine lib.py policy drafter accepted report = .ok report') {q : Proposal}
    (hq : q ∈ built.proposals) (hcandidate : isCandidate q = true) {l : Entry}
    (hl : lastAt report' q.target = some l) :
    l.decision = .noOp ∨ l.decision = .add ∧ SentinelFree l.proposal.content := by
  obtain ⟨cs, hdistinct, hfilter, hcases⟩ := built_cases h
  obtain ⟨c, hc, rfl⟩ : ∃ c ∈ cs, q = c.proposal lib.py := by
    rcases hcases q hq with hmarked | hc
    · simp [hmarked.not_candidate] at hcandidate
    · exact hc
  obtain ⟨decided, -, hreport⟩ := bind_eq_ok.mp hreport
  obtain ⟨pages, hpages, hreport⟩ := bind_eq_ok.mp hreport
  obtain ⟨pageDecided, -, hreport⟩ := bind_eq_ok.mp hreport
  obtain ⟨resolved, hresolved, hreport⟩ := bind_eq_ok.mp hreport
  obtain rfl := pure_eq_ok.mp hreport
  rw [hfilter] at hresolved
  have hentry : ∀ e ∈ resolved, e.decision = .noOp ∨
      e.decision = .add ∧ SentinelFree e.proposal.content := by
    intro e he
    obtain ⟨p, hp, hone⟩ := resolveRounds_decided hresolved he
    obtain ⟨d, -, rfl⟩ := List.mem_map.mp hp
    exact hone.entry.2
  obtain ⟨e, he, htarget⟩ := exists_resolved (by simp) hdistinct hresolved hc
  -- the candidates and the prunes stand behind every contradiction
  set prunes := pruneDisappeared accepted _
  have hback : ∀ x ∈ resolved ++ prunes, x.decision ≠ .contradiction := by
    intro x hx hd
    rcases List.mem_append.mp hx with hx | hx
    · rcases hentry x hx with hx | ⟨hx, -⟩
      · simp [hd] at hx
      · simp [hd] at hx
    · obtain ⟨f, -, -, -, -, -, hprune, -⟩ := mem_pruneDisappeared hx
      simp [hd] at hprune
  rw [List.append_assoc] at hrefine
  obtain ⟨front, rfl⟩ := refine_append hback hrefine
  have htarget' : e.target = (c.proposal lib.py).target := htarget
  rw [lastAt_append (List.mem_append_left _ he) htarget'] at hl
  obtain ⟨hmem, hlt⟩ := mem_of_lastAt hl
  rcases List.mem_append.mp hmem with hmem | hmem
  · exact hentry l hmem
  · obtain ⟨f, -, -, -, hgone, hft, -⟩ := mem_pruneDisappeared hmem
    refine absurd ?_ hgone
    rw [← hft, hlt]
    exact mem_addressed hpages hq

/-- Every alternative that can decide a target at which no candidate is proposed finds an accepted
fact there, and is not merged into one that carries a mark itself. -/
def AlternativesPlaced (py : PyLib) (accepted : AcceptedStore) (proposals : List Proposal) : Prop :=
  ∀ t, ∀ p ∈ deciders py (groupAt proposals t), Dict.has p.content daSentinel = true →
    (∀ q ∈ proposals, isCandidate q = true → q.target ≠ t) →
    ∃ f, accepted.get t = some f ∧
      ∀ das fragment, Merges py p f das fragment → SentinelFree f.content

/-- A proposal whose mark is that of an alternative or of an outcome, or that has none. -/
theorem Marked.unmarked {py : PyLib} {p : Proposal} (h : Marked py p)
    (hpage : isPageDraft p = false)
    (hda : Dict.has p.content daSentinel = false)
    (houtcome : Dict.has p.content answerOutcomeSentinel = false) : SentinelFree p.content := by
  have hhas : ∀ s, p.content.map (·.1) = [s] → Dict.has p.content s = true := by
    intro s hs
    rw [Dict.has_iff, hs]
    exact List.mem_singleton_self s
  cases h with
  | plain hfree => exact hfree
  | alternative _ _ hs => simp [hhas _ hs] at hda
  | outcome hs => simp [hhas _ hs] at houtcome
  | page _ _ hs => simp [isPageDraft, hhas _ hs] at hpage

/-- A mark tells the kind of a proposal: it is the only field of the content. -/
theorem Marked.keys_eq {py : PyLib} {p : Proposal} (h : Marked py p) {s : String}
    (hs : s ∈ sentinels) (hhas : Dict.has p.content s = true) :
    p.content.map (·.1) = [s] ∧ (s = daSentinel → ∃ title, p.target = metricTarget py title) ∧
      (s = pageDraftSentinel → ∃ slug, p.target = "knowledge/global/" ++ slug) := by
  have honly : ∀ k, p.content.map (·.1) = [k] → s = k := by
    intro k hk
    have hmem := Dict.has_iff.mp hhas
    rw [hk] at hmem
    exact List.mem_singleton.mp hmem
  cases h with
  | plain hfree => simp [hfree s hs] at hhas
  | alternative title htarget hkeys =>
      obtain rfl := honly _ hkeys
      exact ⟨hkeys, fun _ => ⟨title, htarget⟩, fun heq => absurd heq (by decide)⟩
  | outcome hkeys =>
      obtain rfl := honly _ hkeys
      exact ⟨hkeys, fun heq => absurd heq (by decide), fun heq => absurd heq (by decide)⟩
  | page slug htarget hkeys =>
      obtain rfl := honly _ hkeys
      exact ⟨hkeys, fun heq => absurd heq (by decide), fun _ => ⟨slug, htarget⟩⟩

/-- No mark is written for a proposal that is no alternative, or one that is placed. -/
theorem reconcileOne_sentinelFree {py : PyLib} {p : Proposal} {existing : Option ExistingFact}
    {e : Entry} (hmarked : Marked py p) (hpage : isPageDraft p = false)
    (hone : reconcileOne py policy p existing = .ok e) (hadd : e.decision.isAdding = true)
    (hplaced : Dict.has p.content daSentinel = true → ∃ f, existing = some f ∧
      ∀ das fragment, Merges py p f das fragment → SentinelFree f.content) :
    SentinelFree e.proposal.content := by
  cases (reconcileOne_decided hone).2 with
  | contradiction hd _ _ => simp [hd, Decision.isAdding] at hadd
  | noOp hd _ _ => simp [hd, Decision.isAdding] at hadd
  | add hnone hflag _ _ hown =>
      rw [hown]
      refine hmarked.unmarked hpage ?_ hflag
      rw [Bool.eq_false_iff]
      intro hda
      obtain ⟨f, hf, -⟩ := hplaced hda
      simp [hnone] at hf
  | edit f _ hflag hda _ _ _ _ hown =>
      rw [hown]
      exact hmarked.unmarked hpage hda hflag
  | merge f das fragment hsome hmerges _ _ hown =>
      obtain ⟨g, hg, hfree⟩ := hplaced hmerges.marked
      obtain rfl : f = g := Option.some.inj (hsome.symm.trans hg)
      rw [hown, mergedProposal, sentinelFree_set (by decide)]
      exact hfree das fragment hmerges

/-- The file of a metric is no page. -/
theorem metricTarget_ne_page (py : PyLib) (title slug : String) :
    metricTarget py title ≠ "knowledge/global/" ++ slug := by
  have hmetric : (metricTarget py title).toList.head? = some 'c' := by
    unfold metricTarget
    rw [String.append_assoc, String.toList_append]
    generalize metricSlug py title ++ ".yaml" = rest
    rfl
  have hpage : ("knowledge/global/" ++ slug).toList.head? = some 'k' := by
    rw [String.toList_append]
    rfl
  intro heq
  rw [heq, hpage] at hmetric
  simp at hmetric

/-- A proposal of the builder that is no candidate carries at most the mark of its kind. -/
theorem marked_of_built (h : build lib.toBuilderLib evidence = .ok built) {p : Proposal}
    (hp : p ∈ built.proposals) (hno : isCandidate p = false) : Marked lib.py p := by
  obtain ⟨cs, -, -, hcases⟩ := built_cases h
  rcases hcases p hp with hmarked | ⟨c, -, rfl⟩
  · exact hmarked
  · exact absurd hno (by simp [isCandidate, Candidate.proposal, Dict.has])

theorem ordinary_of_mem_groupAt {proposals : List Proposal} {t : String} {p : Proposal}
    (hp : p ∈ groupAt proposals t) :
    p ∈ proposals ∧ isCandidate p = false ∧ isPageDraft p = false := by
  obtain ⟨hmem, hord⟩ := List.mem_filter.mp (List.mem_of_mem_filter hp)
  simp only [isOrdinary, Bool.and_eq_true, Bool.not_eq_true'] at hord
  exact ⟨hmem, hord⟩

/-- A target that an alternative is proposed for, and no candidate, has ordinary proposals only: no
page is drafted at the file of a metric. -/
theorem ordinary_at_alternative (h : build lib.toBuilderLib evidence = .ok built) {t : String}
    {p : Proposal} (hp : p ∈ groupAt built.proposals t) {title : String}
    (htitle : p.target = metricTarget lib.py title)
    (hfree : ∀ q ∈ built.proposals, isCandidate q = true → q.target ≠ t) {q : Proposal}
    (hq : q ∈ built.proposals) (hqt : q.target = t) : isOrdinary q = true := by
  have hqc : isCandidate q = false := by
    rw [Bool.eq_false_iff]
    exact fun hc => hfree q hq hc hqt
  have hqp : isPageDraft q = false := by
    rw [Bool.eq_false_iff]
    intro hpage
    obtain ⟨slug, hslug⟩ := ((marked_of_built h hq hqc).keys_eq (by decide) hpage).2.2 rfl
    rw [hqt, ← target_of_mem_groupAt hp, htitle] at hslug
    exact metricTarget_ne_page lib.py title slug hslug
  simp [isOrdinary, hqc, hqp]

/-- A proposal that can decide its target does so under some drafter, and the decision is written
in that run. -/
theorem exists_ingest_deciding {bindings : List BindingFile} {assertions : List Assertion}
    (h : build lib.toBuilderLib evidence = .ok built) {report refined : Report}
    (hreport : reconcile lib.reconcileLib policy accepted built.proposals = .ok report)
    {out : Report} (henrich : enrich lib.py bindings assertions evidence refined = .ok out)
    {t : String} {p : Proposal} (hp : p ∈ deciders lib.py (groupAt built.proposals t))
    (honly : ∀ q ∈ built.proposals, q.target = t → isOrdinary q = true) {e : Entry}
    (hone : reconcileOne lib.py policy p (accepted.get t) = .ok e)
    (hadd : e.decision.isAdding = true) :
    ∃ drafter out', ingest lib policy drafter accepted bindings assertions evidence = .ok out' ∧
      ∃ e' ∈ out', SameButExamples e e' := by
  obtain ⟨drafter, report', hrefine, he, hlast⟩ := exists_refined_only hreport hp honly hone
  obtain ⟨out', henrich'⟩ := exists_enrich henrich report'
  have hrun : ingest lib policy drafter accepted bindings assertions evidence = .ok out' := by
    have hrefine' : refine lib.py policy drafter accepted report = .ok report' := hrefine
    rw [ingest, h, ok_bind, hreport, ok_bind, hrefine', ok_bind, henrich']
  obtain ⟨updated, hupdated, rfl⟩ := enrich_eq_ok henrich'
  have het : e.target = t := by
    rw [(reconcileOne_decided hone).1, target_of_mem_groupAt (mem_of_mem_deciders hp)]
  have hl : lastAt report' e.target = some e := by
    obtain ⟨l, hl⟩ := exists_lastAt he
    obtain ⟨hlmem, hlt⟩ := mem_of_lastAt hl
    rw [hl, hlast l hlmem (hlt.trans het)]
  obtain ⟨e', he', hsame⟩ := Updates.exists_kept hupdated hl hadd
  exact ⟨drafter, _, hrun, e', List.mem_append_left _ he', hsame⟩

/-- Where no drafter gets a mark written, the alternatives are placed. -/
theorem alternativesPlaced_of_written (h : build lib.toBuilderLib evidence = .ok built)
    {bindings : List BindingFile} {assertions : List Assertion} {report refined : Report}
    (hreport : reconcile lib.reconcileLib policy accepted built.proposals = .ok report)
    {out : Report} (henrich : enrich lib.py bindings assertions evidence refined = .ok out)
    (hall : ∀ drafter out,
      ingest lib policy drafter accepted bindings assertions evidence = .ok out →
        ∀ e ∈ out, e.decision.isAdding = true → SentinelFree e.proposal.content) :
    AlternativesPlaced lib.py accepted built.proposals := by
  intro t p hp hda hfree
  have hgroup := mem_of_mem_deciders hp
  obtain ⟨hmem, hnotCandidate, -⟩ := ordinary_of_mem_groupAt hgroup
  obtain ⟨hkeys, htarget, -⟩ := (marked_of_built h hmem hnotCandidate).keys_eq (by decide) hda
  obtain ⟨title, htitle⟩ := htarget rfl
  have hreach : ∀ e, reconcileOne lib.py policy p (accepted.get t) = .ok e →
      e.decision.isAdding = true → SentinelFree e.proposal.content := by
    intro e hone hadd
    obtain ⟨drafter, out', hrun, e', he', hsame⟩ := exists_ingest_deciding h hreport henrich hp
      (fun q hq hqt => ordinary_at_alternative h hgroup htitle hfree hq hqt) hone hadd
    rw [hsame.sentinelFree_iff]
    exact hall drafter out' hrun e' he' (by rw [← hsame.decision_eq]; exact hadd)
  cases hget : accepted.get t with
  | none =>
      -- the alternative would be added as it is, mark included
      have hflag : Dict.has p.content answerOutcomeSentinel = false := by
        rw [Bool.eq_false_iff, Ne, Dict.has_iff, hkeys]
        decide
      rw [hget] at hreach
      have hfree' := hreach _ (by rw [reconcileOne, if_neg (by simp [hflag])]; rfl) rfl
      simp [hfree' daSentinel (by decide)] at hda
  | some f =>
      refine ⟨f, rfl, fun das fragment hmerges => ?_⟩
      rw [hget] at hreach
      have hfree' := hreach _ hmerges.reconcileOne_eq rfl
      exact (sentinelFree_set (by decide)).mp hfree'

/-- Where the alternatives are placed, no entry of a refined report writes a mark. -/
theorem refined_sentinelFree (h : build lib.toBuilderLib evidence = .ok built)
    {drafter : ReconcileDrafter} {report refined : Report}
    (hreport : reconcile lib.reconcileLib policy accepted built.proposals = .ok report)
    (hrefine : refine lib.py policy drafter accepted report = .ok refined)
    (hplaced : AlternativesPlaced lib.py accepted built.proposals) {l : Entry}
    (hl : lastAt refined l.target = some l) (hadd : l.decision.isAdding = true) :
    SentinelFree l.proposal.content := by
  by_cases hshadow : ∃ q ∈ built.proposals, isCandidate q = true ∧ q.target = l.target
  · obtain ⟨q, hq, hqc, hqt⟩ := hshadow
    rw [← hqt] at hl
    rcases lastAt_candidate h hreport hrefine hq hqc hl with hd | ⟨-, hfree⟩
    · simp [hd, Decision.isAdding] at hadd
    · exact hfree
  · obtain ⟨p, hp, hone⟩ := refined_decided hreport hrefine (mem_of_lastAt hl).1 hadd
    have htarget : l.target = p.target := (reconcileOne_decided hone).1
    cases hp with
    | ordinary hdec =>
        obtain ⟨hmem, hnotCandidate, hnotPage⟩ := ordinary_of_mem_groupAt (mem_of_mem_deciders hdec)
        refine reconcileOne_sentinelFree (marked_of_built h hmem hnotCandidate) hnotPage hone hadd
          fun hda => ?_
        refine hplaced p.target p hdec hda fun q hq hqc hqt => hshadow ⟨q, hq, hqc, ?_⟩
        rw [hqt, htarget]
    | page _ _ _ _ hkeys =>
        have hfree : SentinelFree p.content :=
          sentinelFree_of_keys ["body", "meta"] (by simp [hkeys]) (by decide)
        exact reconcileOne_sentinelFree (.plain hfree) (hfree _ (by decide)) hone hadd
          fun hda => by simp [hfree daSentinel (by decide)] at hda
    | candidate q hq hqc hstrip hnone =>
        refine absurd ⟨q, hq, hqc, ?_⟩ hshadow
        rw [htarget, hstrip]
        rfl

/-- Whatever a drafter chooses, no mark is written exactly when the alternatives are placed. -/
theorem written_iff (h : build lib.toBuilderLib evidence = .ok built) {bindings : List BindingFile}
    {assertions : List Assertion} {out : Report}
    (hrun : ingest lib policy nullDrafter accepted bindings assertions evidence = .ok out) :
    (∀ drafter out, ingest lib policy drafter accepted bindings assertions evidence = .ok out →
      ∀ e ∈ out, e.decision.isAdding = true → SentinelFree e.proposal.content) ↔
    AlternativesPlaced lib.py accepted built.proposals := by
  obtain ⟨built', hbuilt', hrun⟩ := bind_eq_ok.mp hrun
  obtain rfl := Except.ok.inj (h.symm.trans hbuilt')
  obtain ⟨report, hreport, hrun⟩ := bind_eq_ok.mp hrun
  obtain ⟨refined, -, henrich⟩ := bind_eq_ok.mp hrun
  refine ⟨alternativesPlaced_of_written h hreport henrich, ?_⟩
  intro hplaced drafter out' hrun' e he hadd
  obtain ⟨built', hbuilt', hrun'⟩ := bind_eq_ok.mp hrun'
  obtain rfl := Except.ok.inj (h.symm.trans hbuilt')
  obtain ⟨report', hreport', hrun'⟩ := bind_eq_ok.mp hrun'
  obtain rfl := Except.ok.inj (hreport.symm.trans hreport')
  obtain ⟨refined', hrefine, henrich'⟩ := bind_eq_ok.mp hrun'
  obtain ⟨updated, hupdated, rfl⟩ := enrich_eq_ok henrich'
  rcases Updates.mem_adding hupdated he hadd with ⟨l, hl, hladd, hsame⟩ | ⟨b, -, xs, rfl⟩
  · rw [← hsame.sentinelFree_iff]
    exact refined_sentinelFree h hreport hrefine hplaced hl hladd
  · exact examplesEdit_sentinelFree lib.py b xs

end Runs

/-! ## The file of a metric -/

/-- A name under which the builder and the accepted store look for the same file: words of ASCII
letters and digits joined by single spaces or underscores, 64 characters at most. -/
def SafeName (py : PyLib) (metric : String) : Prop :=
  Slug.Valid '_' (py.lower (underscored metric)).toList ∧
    (py.lower (underscored metric)).toList.length ≤ 64

/-- Spaces and underscores are alike to a slug. -/
theorem slug_underscored (s : String) :
    Slug.slug '_' (underscored s).toList = Slug.slug '_' s.toList := by
  rw [underscored, String.toList_map]
  refine Slug.slug_map _ ?_ ?_ s.toList
  · intro c hc
    have hne : c ≠ ' ' := by
      rintro rfl
      exact absurd hc (by decide)
    rw [if_neg hne]
  · intro c hc
    split
    · decide
    · exact hc

theorem metricSlug_eq_iff {py : PyLib}
    (hlower : ∀ s, py.lower (underscored s) = underscored (py.lower s)) (metric : String) :
    metricSlug py metric = py.lower (underscored metric) ↔ SafeName py metric := by
  set name := py.lower (underscored metric) with hname
  have hslug : Slug.slug '_' (py.lower metric).toList = Slug.slug '_' name.toList := by
    rw [hname, hlower, slug_underscored]
  have hlen : (Slug.slug '_' name.toList).length ≤ name.toList.length := Slug.length_slug_le _
  have hself : ∀ {cs : List Char}, cs ≠ [] →
      (Slug.slug '_' cs = cs ↔ Slug.Valid '_' cs) := fun hne =>
    Slug.slug_eq_self_iff (by decide) hne
  unfold metricSlug SafeName
  rw [hslug, ← hname]
  constructor
  · intro heq
    split at heq
    · -- a name without letters or digits is not the text that stands for it
      rename_i hnil
      rw [← heq] at hnil
      exact absurd hnil (by decide)
    · rename_i cs hcs
      have htake := congrArg String.toList heq
      rw [String.toList_ofList] at htake
      have hle : name.toList.length ≤ 64 := by
        rw [← htake, List.length_take]
        exact min_le_left ..
      have hfix : Slug.slug '_' name.toList = name.toList := by
        rwa [List.take_of_length_le (hlen.trans hle)] at htake
      have hne : name.toList ≠ [] := by
        rw [← hfix]
        exact hcs
      exact ⟨(hself hne).mp hfix, hle⟩
  · rintro ⟨hvalid, hle⟩
    have hfix := (hself hvalid.nonempty).mpr hvalid
    rw [hfix]
    split
    · rename_i hnil
      exact absurd hnil hvalid.nonempty
    · rw [List.take_of_length_le hle, String.ofList_toList]

theorem metricTarget_eq_iff {py : PyLib}
    (hlower : ∀ s, py.lower (underscored s) = underscored (py.lower s)) (metric : String) :
    metricTarget py metric = bindingTarget py metric ↔ SafeName py metric := by
  rw [← metricSlug_eq_iff hlower]
  unfold metricTarget bindingTarget
  rw [String.append_left_inj, String.append_right_inj]

section Targets

variable {lib : BuilderLib} {evidence : List EvidenceItem} {built : BuildResult}

theorem buildAnswerOutcome_eq_ok {item : EvidenceItem} {p : Proposal}
    (h : buildAnswerOutcome lib item = .ok p) :
    ∃ value, Dict.get item.payload "metric" = some value ∧
      p.target = metricTarget lib.py (lib.py.str value) ∧
      p.content = [(answerOutcomeSentinel, .obj item.payload)] := by
  obtain ⟨value, hvalue, h⟩ := bind_eq_ok.mp h
  obtain ⟨refs, -, h⟩ := bind_eq_ok.mp h
  obtain rfl := pure_eq_ok.mp h
  refine ⟨value, ?_, rfl, rfl⟩
  unfold Dict.item at hvalue
  split at hvalue
  · rename_i hget
    rw [hget, Except.ok.inj hvalue]
  · simp [raise] at hvalue

/-- A candidate refers to the metric it binds and to no other. -/
theorem refersTo_candidate {py : PyLib} {c : Candidate} {metric : String}
    (h : (c.proposal py).RefersTo py metric) : c.metric = metric := by
  have hkeys : ∀ s ∈ (c.proposal py).content.map (·.1),
      s ≠ daSentinel ∧ s ≠ answerOutcomeSentinel := by
    intro s hs
    by_cases hc : s = candidateSentinel
    · rw [hc]
      decide
    · obtain ⟨f, hf, rfl⟩ := List.mem_map.mp hs
      have hstrip : Dict.has (c.proposal py).strip.content f.1 = true := by
        rw [Dict.has_iff]
        exact List.mem_map_of_mem (List.mem_filter.mpr ⟨hf, by simpa using hc⟩)
      refine ⟨?_, ?_⟩
      · intro heq
        rw [heq, strip_sentinelFree py c _ (by decide)] at hstrip
        simp at hstrip
      · intro heq
        rw [heq, strip_sentinelFree py c _ (by decide)] at hstrip
        simp at hstrip
  cases h with
  | alternative _ hget _ =>
      exact absurd rfl (hkeys _ (Dict.has_iff.mp (Dict.has_of_get hget))).1
  | outcome _ hget _ _ _ =>
      exact absurd rfl (hkeys _ (Dict.has_iff.mp (Dict.has_of_get hget))).2
  | candidate _ hnamed =>
      have hmetric : Dict.get (c.proposal py).content "metric" = some (.str c.metric) := rfl
      rw [hmetric] at hnamed
      exact Json.str.inj (Option.some.inj hnamed)

/-- What refers to a metric carries a mark. -/
theorem SentinelFree.not_refersTo {py : PyLib} {p : Proposal} (h : SentinelFree p.content)
    (metric : String) : ¬ p.RefersTo py metric := by
  intro hrefers
  cases hrefers with
  | alternative _ hget _ => simpa [h daSentinel (by decide)] using Dict.has_of_get hget
  | outcome _ hget _ _ _ => simpa [h answerOutcomeSentinel (by decide)] using Dict.has_of_get hget
  | candidate hcandidate _ => simp [isCandidate, h candidateSentinel (by decide)] at hcandidate

/-- What refers to a metric was drafted from an item that names it. -/
theorem Drafted.refersTo {p : Proposal} (h : Drafted lib evidence p) {metric : String}
    (hrefers : p.RefersTo lib.py metric) :
    p.target = metricTarget lib.py metric ∧ ∃ item ∈ evidence, item.Names lib metric := by
  -- a draft refers to a metric through its mark, and each kind has one mark at most
  cases h with
  | source hkeys =>
      exact absurd hrefers (SentinelFree.not_refersTo
        (sentinelFree_of_keys sourceKeys hkeys (by decide)) metric)
  | usage item hmem hkind u hu heq =>
      subst heq
      cases hrole : u.role with
      | alternative =>
          simp only [buildUsageEvidence, hrole] at hrefers ⊢
          cases hrefers with
          | alternative fragment hget htitle =>
              obtain rfl := Json.obj.inj (Option.some.inj hget)
              obtain rfl : u.title = metric := Json.str.inj (Option.some.inj htitle)
              exact ⟨rfl, item, hmem, .inl ⟨hkind, u, hu, hrole, rfl⟩⟩
          | outcome _ hget _ _ _ =>
              exact absurd (Dict.eq_of_keys (s := daSentinel) rfl (Dict.has_of_get hget))
                (by decide)
          | candidate hcandidate _ =>
              exact absurd (Dict.eq_of_keys (s := daSentinel) rfl hcandidate) (by decide)
      | trustedExample =>
          refine absurd hrefers (SentinelFree.not_refersTo (sentinelFree_of_keys
            ["id", "query", "expect", "source_of_truth"] ?_ (by decide)) metric)
          simp [buildUsageEvidence, hrole, anchored]
  | outcome item hmem hkind heq =>
      obtain ⟨value, hvalue, htarget, hcontent⟩ := buildAnswerOutcome_eq_ok heq
      have hkeys : p.content.map (·.1) = [answerOutcomeSentinel] := by rw [hcontent]; rfl
      cases hrefers with
      | alternative _ hget _ =>
          exact absurd (Dict.eq_of_keys hkeys (Dict.has_of_get hget)) (by decide)
      | outcome payload hget value' hnamed htext =>
          rw [hcontent] at hget
          obtain rfl := Json.obj.inj (Option.some.inj hget)
          obtain rfl := Option.some.inj (hvalue.symm.trans hnamed)
          rw [htarget, htext]
          exact ⟨rfl, item, hmem, .inr ⟨hkind, value, hvalue, htext⟩⟩
      | candidate hcandidate _ => exact absurd (Dict.eq_of_keys hkeys hcandidate) (by decide)
  | page item doc heq =>
      have hkeys : p.content.map (·.1) = [pageDraftSentinel] := by rw [heq]; rfl
      cases hrefers with
      | alternative _ hget _ =>
          exact absurd (Dict.eq_of_keys hkeys (Dict.has_of_get hget)) (by decide)
      | outcome _ hget _ _ _ =>
          exact absurd (Dict.eq_of_keys hkeys (Dict.has_of_get hget)) (by decide)
      | candidate hcandidate _ => exact absurd (Dict.eq_of_keys hkeys hcandidate) (by decide)

/-- The proposals that refer to a metric target the file of its binding exactly when it has a safe
name or no item names it. -/
theorem targets_iff (hlower : ∀ s, lib.py.lower (underscored s) = underscored (lib.py.lower s))
    (h : build lib evidence = .ok built) (metric : String) :
    (∀ p ∈ built.proposals, p.RefersTo lib.py metric → p.target = bindingTarget lib.py metric) ↔
      ∀ item ∈ evidence, item.Names lib metric → SafeName lib.py metric := by
  obtain ⟨ps, cs, hproposals, hdrafted, husage, houtcome⟩ := build_eq_ok h
  have hin : ∀ p ∈ ps, p ∈ built.proposals := by
    intro p hp
    rw [hproposals]
    exact List.mem_append_left _ hp
  constructor
  · intro hall item hitem hnames
    rw [← metricTarget_eq_iff hlower]
    rcases hnames with ⟨hkind, u, hu, hrole, rfl⟩ | ⟨hkind, value, hvalue, rfl⟩
    · have htarget := hall _ (hin _ (husage item hitem u hkind hu)) (by
        simp only [buildUsageEvidence, hrole]
        exact .alternative _ rfl rfl)
      simp only [buildUsageEvidence, hrole] at htarget
      exact htarget
    · obtain ⟨p, hp, hone⟩ := houtcome item hitem hkind
      obtain ⟨value', hvalue', htarget, hcontent⟩ := buildAnswerOutcome_eq_ok hone
      obtain rfl := Option.some.inj (hvalue.symm.trans hvalue')
      rw [← htarget]
      exact hall p (hin p hp) (.outcome item.payload (by rw [hcontent]; rfl) value hvalue rfl)
  · intro hsafe p hp hrefers
    rw [hproposals, List.mem_append] at hp
    rcases hp with hp | hp
    · obtain ⟨htarget, item, hitem, hnames⟩ := (hdrafted p hp).refersTo hrefers
      rw [htarget, metricTarget_eq_iff hlower]
      exact hsafe item hitem hnames
    · obtain ⟨c, -, rfl⟩ := List.mem_map.mp hp
      rw [← refersTo_candidate hrefers]
      rfl

end Targets

/-- A run writes no mark, whatever a drafter chooses, and every proposal that refers to a binding of
the project targets its file, exactly when the alternatives are placed and the bindings that the
evidence names have safe names. -/
theorem sentinels_iff {lib : IngestLib} {policy : AutoApplyConfig} {accepted : AcceptedStore}
    {bindings : List BindingFile} {assertions : List Assertion} {evidence : List EvidenceItem}
    {built : BuildResult} {out : Report}
    (hlower : ∀ s, lib.py.lower (underscored s) = underscored (lib.py.lower s))
    (h : build lib.toBuilderLib evidence = .ok built)
    (hrun : ingest lib policy nullDrafter accepted bindings assertions evidence = .ok out) :
    ((∀ drafter out, ingest lib policy drafter accepted bindings assertions evidence = .ok out →
        ∀ e ∈ out, e.decision.isAdding = true → SentinelFree e.proposal.content) ∧
      ∀ p ∈ built.proposals, ∀ b ∈ bindings, p.RefersTo lib.py b.binding.metric →
        p.target = bindingTarget lib.py b.binding.metric) ↔
    AlternativesPlaced lib.py accepted built.proposals ∧
      ∀ item ∈ evidence, ∀ b ∈ bindings, item.Names lib.toBuilderLib b.binding.metric →
        SafeName lib.py b.binding.metric := by
  refine and_congr (written_iff h hrun) ?_
  constructor
  · intro hall item hitem b hb
    exact (targets_iff hlower h b.binding.metric).mp (fun p hp => hall p hp b hb) item hitem
  · intro hall p hp b hb
    exact (targets_iff hlower h b.binding.metric).mpr (fun item hitem => hall item hitem b hb) p hp

/-! ### A question that is an alternative to a binding -/

private def textOf (payload : Content) (key : String) : String :=
  match payload.get key with
  | some (.str s) => s
  | _ => ""

private def biLib : IngestLib where
  py := .plain
  schema _ := raise "ValidationError"
  usage payload := .ok {
    source := textOf payload "source", artifact := textOf payload "artifact"
    title := textOf payload "title", expr := "", nativeRef := textOf payload "native_ref"
    role := if textOf payload "role" = "alternative" then .alternative else .trustedExample }
  doc _ := .error "Field required"
  definitions _ _ := .ok { forRelation := fun _ => {} }
  columnsOf _ := .ok []
  definitionDigest _ := ""
  titleDigest _ := ""
  isWordChar c := c.isAlphanum || c == '_'
  drafter := nullLLMDrafter
  render _ _ _ := .ok ⟨"", "", []⟩

private def question (title : String) : EvidenceItem where
  source := "metabase"
  kind := "usage_evidence"
  acquisitionTier := .live
  payload := [("source", .str "metabase"), ("artifact", .str "card:42"), ("title", .str title),
    ("role", .str "alternative"), ("native_ref", .str "metabase:card:42")]
  sourceFingerprint := "sha256:42"

private def marginFile (metric : String) : BindingFile where
  binding := { metric := metric, canonical := { of := .single "orders" "margin" } }
  canonical := .obj [("kind", .str "single"), ("source", .str "orders"), ("measure", .str "margin")]

private def marginStore (metric file : String) : AcceptedStore where
  facts := [{
    target := file, content := (marginFile metric).dump, provenance := .humanCurated }]
  nodup := List.nodup_singleton _

/-- The name has a hyphen, so the builder looks for the binding under another file name: the mark of
the alternative is written to it. -/
theorem sentinels_counterexample :
    (∃ out, ingest biLib { minConfidence := .one } nullDrafter
        (marginStore "Gross-Margin" "contracts/metrics/gross-margin.yaml")
        [marginFile "Gross-Margin"] [] [question "Gross-Margin"] = .ok out ∧
      ∃ e ∈ out, e.decision.isAdding = true ∧ ¬ SentinelFree e.proposal.content) ∧
    ∃ built, build biLib.toBuilderLib [question "Gross-Margin"] = .ok built ∧
      ∃ p ∈ built.proposals, p.RefersTo .plain "Gross-Margin" ∧
        p.target ≠ bindingTarget .plain "Gross-Margin" := by
  constructor
  · obtain ⟨out, hout, hany⟩ : ∃ out, ingest biLib { minConfidence := .one } nullDrafter
        (marginStore "Gross-Margin" "contracts/metrics/gross-margin.yaml")
        [marginFile "Gross-Margin"] [] [question "Gross-Margin"] = .ok out ∧
          (out.any fun e => e.decision.isAdding && Dict.has e.proposal.content daSentinel) = true :=
      exists_ok_of_any (by decide +kernel)
    obtain ⟨e, he, hboth⟩ := List.any_eq_true.mp hany
    obtain ⟨hadd, hda⟩ := Bool.and_eq_true_iff.mp hboth
    refine ⟨out, hout, e, he, hadd, fun hfree => ?_⟩
    simp [hfree daSentinel (by decide)] at hda
  · refine ⟨_, rfl, _, List.mem_singleton_self _, .alternative _ rfl rfl, ?_⟩
    decide +kernel

private theorem toLower_eq_space {c : Char} (h : c.toLower = ' ') : c = ' ' := by
  unfold Char.toLower at h
  split at h
  · rename_i hupper
    have hval : c.val + ('a'.val - 'A'.val) = ' '.val := congrArg Char.val h
    have hlow : 'A'.val ≤ c.val := hupper.1
    have hhigh : c.val ≤ 'Z'.val := hupper.2
    exfalso
    revert hval hlow hhigh
    generalize c.val = v
    intro hval hlow hhigh
    have hsum := UInt32.toNat_inj.mpr hval
    rw [UInt32.toNat_add] at hsum
    rw [UInt32.le_iff_toNat_le] at hlow hhigh
    simp at hsum hlow hhigh
    omega
  · exact h

/-- Lowering ASCII letters does not touch the underscores. -/
private theorem plain_lower_underscored (s : String) :
    PyLib.plain.lower (underscored s) = underscored (PyLib.plain.lower s) := by
  refine String.ext ?_
  show ((s.map _).map Char.toLower).toList = ((s.map Char.toLower).map _).toList
  rw [String.toList_map, String.toList_map, String.toList_map, String.toList_map, List.map_map,
    List.map_map]
  refine List.map_congr_left fun c _ => ?_
  show Char.toLower (if c = ' ' then '_' else c) = if c.toLower = ' ' then '_' else c.toLower
  by_cases hc : c = ' '
  · rw [hc]
    decide
  · rw [if_neg hc, if_neg fun hlower => hc (toLower_eq_space hlower)]

private def marginAlternative (file : String) : Proposal :=
  anchored (question "Gross Margin") file .edit
    [(daSentinel, .obj [("source", .str "metabase"), ("ref", .str "card:42"),
      ("reason", .str "Gross Margin")])]

private theorem build_question : build biLib.toBuilderLib [question "Gross Margin"] =
    .ok ⟨[marginAlternative "contracts/metrics/gross_margin.yaml"], []⟩ := by
  have hbuild : build biLib.toBuilderLib [question "Gross Margin"] =
      .ok ⟨[marginAlternative (metricTarget .plain "Gross Margin")], []⟩ := rfl
  have htarget : metricTarget .plain "Gross Margin" = "contracts/metrics/gross_margin.yaml" := by
    decide +kernel
  rw [hbuild, htarget]

private theorem safeName_margin : SafeName .plain "Gross Margin" := by
  have hname : (PyLib.plain.lower (underscored "Gross Margin")).toList =
      ['g', 'r', 'o', 's', 's', '_', 'm', 'a', 'r', 'g', 'i', 'n'] := by decide +kernel
  unfold SafeName
  rw [hname]
  exact ⟨⟨by simp, by simp [Slug.isWord], by simp, by simp, by simp⟩, by simp⟩

/-- Under a name of words and spaces, the alternative is merged into the accepted binding. -/
theorem sentinels_iff_gross_margin :
    ∃ built, build biLib.toBuilderLib [question "Gross Margin"] = .ok built ∧
      (∀ drafter out, ingest biLib { minConfidence := .one } drafter (marginStore "Gross Margin"
          "contracts/metrics/gross_margin.yaml") [marginFile "Gross Margin"] []
          [question "Gross Margin"] = .ok out →
        ∀ e ∈ out, e.decision.isAdding = true → SentinelFree e.proposal.content) ∧
      ∀ p ∈ built.proposals, ∀ b ∈ [marginFile "Gross Margin"],
        p.RefersTo .plain b.binding.metric → p.target = bindingTarget .plain b.binding.metric := by
  obtain ⟨out, hout⟩ : ∃ out, ingest biLib { minConfidence := .one } nullDrafter
      (marginStore "Gross Margin" "contracts/metrics/gross_margin.yaml")
      [marginFile "Gross Margin"] [] [question "Gross Margin"] = .ok out := by
    rw [ingest, build_question, ok_bind]
    exact exists_ok_of_isOk (by decide +kernel)
  refine ⟨_, build_question,
    (sentinels_iff plain_lower_underscored build_question hout).mpr ⟨?_, ?_⟩⟩
  · intro t p hp _ _
    have hgroup := mem_of_mem_deciders hp
    have hmem := List.mem_of_mem_filter (List.mem_of_mem_filter hgroup)
    obtain rfl := List.mem_singleton.mp hmem
    obtain rfl := target_of_mem_groupAt hgroup
    exact ⟨_, rfl, fun _ _ _ => (marginFile "Gross Margin").dump_sentinelFree⟩
  · intro item _ b hb _
    obtain rfl := List.mem_singleton.mp hb
    exact safeName_margin

end Canonic
