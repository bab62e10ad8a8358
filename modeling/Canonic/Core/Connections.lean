import Canonic.Compiler.Keys
import Canonic.Compiler.Scanned

set_option autoImplicit false

/-! # The connection a statement runs on

The dialect of a statement is that of the first source its bindings name; the connection it is
sent to is read off the text of a resolved key (`connection_for_sql`, `core/context.py`), or is
the default of the project (`for_id`, `connectors/factory.py`). The two agree where a key names
a source and all sources that are scanned stand on its connection. -/

namespace Canonic

/-! ## Reading a key -/

/-- `text.rpartition(sep)[2]`: what stands behind the last separator, everything when there is
none. -/
def afterLast (sep : Char) : List Char → List Char
  | [] => []
  | c :: cs => if sep ∈ c :: cs then afterLast sep cs else c :: cs

/-- The source a resolved key is read to name: what stands behind the last bracket, up to the first
dot. -/
def keySource (key : String) : String :=
  String.ofList ((afterLast '(' key.toList).takeWhile (· != '.'))

/-- `connection_for_sql`: the connection of the first key that names a source. -/
def connectionForSql (ss : Sources) (resolved : List (String × String)) : Option String :=
  resolved.findSome? fun p => (ss.get (keySource p.2)).map (·.connection)

/-- The connection a statement is sent to: the project has a default. -/
def connectionUsed (p : Project) (default_ : Option String) (r : CompileResult) : Option String :=
  ((connectionForSql p.sources r.resolved).filter (· ≠ "")).or default_

section

variable {sep : Char} {a b : List Char}

theorem afterLast_of_notMem (h : sep ∉ b) : afterLast sep b = b := by
  cases b with
  | nil => rfl
  | cons c cs => rw [afterLast, if_neg h]

theorem afterLast_append (h : sep ∈ b) : afterLast sep (a ++ b) = afterLast sep b := by
  induction a with
  | nil => rfl
  | cons c cs ih =>
      rw [List.cons_append, afterLast, if_pos (List.mem_cons_of_mem _ (List.mem_append_right _ h)),
        ih]

/-- Only what follows a separator counts. -/
theorem afterLast_append_sep : afterLast sep (a ++ sep :: b) = afterLast sep b := by
  rw [afterLast_append List.mem_cons_self, afterLast, if_pos List.mem_cons_self]

/-- A text without separators stays behind what stands in front of it. -/
theorem afterLast_append_right (h : sep ∉ b) : afterLast sep (a ++ b) = afterLast sep a ++ b := by
  induction a with
  | nil => exact afterLast_of_notMem h
  | cons c cs ih =>
      by_cases hc : sep ∈ c :: cs
      · have hcb : sep ∈ c :: (cs ++ b) := List.mem_append_left b hc
        rw [List.cons_append, afterLast, if_pos hcb, ih, afterLast, if_pos hc]
      · rw [afterLast_of_notMem hc]
        exact afterLast_of_notMem fun hmem => (List.mem_append.mp hmem).elim hc h

theorem takeWhile_append_dot (h : '.' ∉ a) :
    (a ++ '.' :: b).takeWhile (· != '.') = a := by
  rw [List.takeWhile_append_of_pos fun c hc => by
    simpa using fun (heq : c = '.') => h (heq ▸ hc)]
  simp

theorem takeWhile_append_of_mem (h : '.' ∈ a) :
    (a ++ b).takeWhile (· != '.') = a.takeWhile (· != '.') := by
  induction a with
  | nil => simp at h
  | cons c cs ih =>
      by_cases hc : c = '.'
      · simp [hc]
      · have hmem : '.' ∈ cs := (List.mem_cons.mp h).resolve_left fun heq => hc heq.symm
        simp [hc, ih hmem]

/-- What is in front of the first dot holds everything of a text without dots. -/
theorem mem_takeWhile_append {c : Char} (h : '.' ∉ a) (hc : c ∈ a) :
    c ∈ (a ++ b).takeWhile (· != '.') := by
  rw [List.takeWhile_append_of_pos fun c hc => by
    simpa using fun (heq : c = '.') => h (heq ▸ hc)]
  exact List.mem_append_left _ hc

end

namespace KeyFields

/-- The source that the key of a metric names. A ratio and a weighted average name none, nor does
an input without a key; of a derived metric it is what the text of the expression looks like. -/
def source : KeyFields → Option String
  | measure s _ | recompute s _ | opaque_ s _ | cumulative s _ _ => some s
  | ratio .. | weightedAvg .. | named _ => none
  | offset b _ _ => b.source
  | derived e =>
      let inner := afterLast '(' e.toList
      if '.' ∈ inner then some (String.ofList (inner.takeWhile (· != '.'))) else none
  | conversion b _ _ _ => b.source

/-- The parts of a key next to its names have no bracket. -/
def Bracketless : KeyFields → Prop
  | cumulative _ _ frame => '(' ∉ frame.toList
  | offset b _ o => b.Bracketless ∧ '(' ∉ o.toList
  | conversion b c calculation window =>
      b.Bracketless ∧ c.Bracketless ∧ '(' ∉ calculation.toList ∧ '(' ∉ window.toList
  | _ => True

/-- What is read of a text: the source it names, or something with a comma or a bracket. -/
def Read (source : Option String) (text : List Char) : Prop :=
  match source with
  | some s => (afterLast '(' text).takeWhile (· != '.') = s.toList
  | none => ',' ∈ (afterLast '(' text).takeWhile (· != '.') ∨
      ')' ∈ (afterLast '(' text).takeWhile (· != '.')

/-- Of a word with its parenthesis only the body is read. -/
theorem read_call {source : Option String} {word body : String} {r : List Char}
    (h : Read source (body.toList ++ ')' :: r)) :
    Read source ((call word body).toList ++ r) := by
  have htext : (call word body).toList ++ r =
      word.toList ++ '(' :: (body.toList ++ ')' :: r) := by simp [call]
  unfold Read at h ⊢
  rwa [htext, afterLast_append_sep]

theorem read_dotted {s : String} {r : List Char} (hs : PlainName s) (h : '(' ∉ r) :
    Read (some s) (s.toList ++ '.' :: r) := by
  have hnot : '(' ∉ s.toList ++ '.' :: r := by simp [hs.notMem.2.2, h]
  rw [Read, afterLast_of_notMem hnot, takeWhile_append_dot hs.notMem.1]

theorem read_comma {n : String} {r : List Char} (hn : PlainName n) (h : '(' ∉ r) :
    Read none (n.toList ++ ',' :: r) := by
  have hnot : '(' ∉ n.toList ++ ',' :: r := by simp [hn.notMem.2.2, h]
  rw [Read, afterLast_of_notMem hnot]
  left
  have : n.toList ++ ',' :: r = (n.toList ++ [',']) ++ r := by simp
  rw [this]
  exact mem_takeWhile_append (by simp [hn.notMem.1]) (by simp)

/-- The key of a metric, with anything behind it, is read to name the source it records. -/
theorem read_text {k : KeyFields} (hp : k.Plain) (hf : k.Formed) (hb : k.Bracketless)
    {r : List Char} (hr : '(' ∉ r)
    (hnamed : k.head = none → k.source = none → ∃ t, r = ',' :: t) :
    Read k.source (k.text.toList ++ r) := by
  -- on the key: what follows its text is read along with it
  induction k generalizing r with
  | measure s m =>
      have := read_dotted (r := m.toList ++ r) hp.1 (by simp [hp.2.notMem.2.2, hr])
      simpa [source, text] using this
  | recompute s c | opaque_ s c =>
      apply read_call
      simpa [source] using read_dotted (r := c.toList ++ ')' :: r) hp.1
        (by simp [hp.2.notMem.2.2, hr])
  | cumulative s m frame =>
      have hframe : '(' ∉ frame.toList := hb
      apply read_call
      simpa [source] using read_dotted (r := m.toList ++ (frame.toList ++ ')' :: r)) hp.1
        (by simp [hp.2.notMem.2.2, hr, hframe])
  | ratio n d | weightedAvg n d =>
      apply read_call
      simpa [source] using read_comma (r := ' ' :: d.toList ++ ')' :: r) hp.1
        (by simp [hp.2.notMem.2.2, hr])
  | offset b dim o ih =>
      apply read_call
      simpa [source] using ih hp.1 hf.1 hb.1 (r := ',' :: ' ' :: dim.toList ++ (',' :: ' ' ::
        o.toList ++ ')' :: r)) (by simp [hp.2.notMem.2.2, hb.2, hr]) (fun _ _ => ⟨_, rfl⟩)
  | derived e =>
      apply read_call
      have hinner : afterLast '(' (e.toList ++ ')' :: r) =
          afterLast '(' e.toList ++ ')' :: r := afterLast_append_right (by simp [hr])
      by_cases hdot : '.' ∈ afterLast '(' e.toList
      · have hsource : (derived e).source =
            some (String.ofList ((afterLast '(' e.toList).takeWhile (· != '.'))) := if_pos hdot
        rw [hsource, Read, hinner, takeWhile_append_of_mem hdot, String.toList_ofList]
      · have hsource : (derived e).source = none := if_neg hdot
        rw [hsource, Read, hinner]
        right
        have htext : afterLast '(' e.toList ++ ')' :: r =
            (afterLast '(' e.toList ++ [')']) ++ r := by simp
        rw [htext]
        exact mem_takeWhile_append (by simp [hdot]) (by simp)
  | conversion b c calculation window ihb =>
      have hc := hp.2.notMem_of_head_none hf.2.1
      have hcalc := hb.2.2.1
      have hwindow := hb.2.2.2
      have hformed : b.Formed := by
        have hhead := hf.1
        cases b <;> simp [head] at hhead <;> trivial
      apply read_call
      simpa [source] using ihb hp.1 hformed hb.1 (r := ',' :: ' ' :: c.text.toList ++ (',' :: ' ' ::
        calculation.toList ++ (window.toList ++ ')' :: r)))
        (by simp [hc.1, hcalc, hwindow, hr]) (fun _ _ => ⟨_, rfl⟩)
  | named n =>
      obtain ⟨t, rfl⟩ := hnamed rfl rfl
      exact read_comma hp (by simpa using hr)

/-- A name that a source can have next to a key: plain, and without the closing bracket. -/
def PlainSource (name : String) : Prop := PlainName name ∧ ')' ∉ name.toList

end KeyFields

/-- What is read off the key of a metric is the source the key records, among sources with plain
names. -/
theorem get_keySource {k : KeyFields} (hp : k.Plain) (hf : k.Formed) (hb : k.Bracketless)
    (hnamed : k.head = none → k.source ≠ none) {ss : Sources}
    (hss : ∀ s ∈ ss.list, KeyFields.PlainSource s.name) :
    ss.get (keySource k.text) = k.source.bind ss.get := by
  have hread := KeyFields.read_text (r := []) hp hf hb (by simp)
    (fun hh hs => absurd hs (hnamed hh))
  rw [List.append_nil] at hread
  cases hsource : k.source with
  | some s =>
      rw [hsource] at hread
      rw [keySource, show (afterLast '(' k.text.toList).takeWhile (· != '.') = s.toList from hread,
        String.ofList_toList, Option.bind_some]
  | none =>
      rw [hsource] at hread
      cases hget : ss.get (keySource k.text) with
      | none => rfl
      | some src =>
          obtain ⟨hplain, hclose⟩ := hss src (Sources.get_mem hget)
          have hname : src.name = keySource k.text := Sources.get_name hget
          rw [hname, keySource, String.toList_ofList] at hclose
          rw [hname] at hplain
          have hcomma := hplain.notMem.2.1
          rw [keySource, String.toList_ofList] at hcomma
          exact (hread.elim hcomma hclose).elim

/-! ## The keys of bindings -/

theorem bracket_notMem_text (d : Duration) : '(' ∉ d.text.toList :=
  notMem_text rfl rfl (by decide) d

theorem bracket_notMem_frameKey (f : CumulativeBinding) : '(' ∉ f.frameKey.toList := by
  simp only [CumulativeBinding.frameKey, String.toList_append, List.mem_append, not_or]
  refine ⟨⟨?_, ?_⟩, ?_⟩
  · cases f.window with
    | none => simp
    | some w => simp [bracket_notMem_text w]
  · cases f.grainToDate with
    | none => simp
    | some g => cases g <;> decide
  · cases f.periodAgg <;> decide

theorem Binding.keyFields_bracketless : ∀ b : Binding, b.keyFields.Bracketless
  | .leaf b => by
      rw [Binding.keyFields]
      split <;> first | trivial | exact bracket_notMem_frameKey _
  | .composite b n d => by
      rw [Binding.keyFields]
      split <;> trivial
  | .offset b base dim o => by
      rw [Binding.keyFields]
      refine ⟨?_, bracket_notMem_text o⟩
      split
      · trivial
      · exact base.keyFields_bracketless
  | .derived b e names inputs => trivial
  | .conversion b base conv params => by
      rw [Binding.keyFields]
      refine ⟨?_, ?_, ?_, ?_⟩
      · split
        · trivial
        · exact base.keyFields_bracketless
      · split
        · trivial
        · exact conv.keyFields_bracketless
      · cases params.calculation <;> decide
      · cases params.window with
        | none => simp
        | some w => simp [bracket_notMem_text w]

/-- A planned metric has a key of its own. -/
theorem PlannedKey.source_ne_none {b : Binding} {pl : MetricLeaves} (h : PlannedKey b pl)
    (hhead : b.keyFields.head = none) : b.keyFields.source ≠ none := by
  cases b with
  | leaf b =>
      have hmissing := h.missing
      simp only [Binding.resolvedKey, Binding.Recomputes] at hmissing
      rw [Binding.keyFields] at hhead ⊢
      cases hof : b.canonical.of <;>
        simp_all [KeyFields.source, KeyFields.head, CanonicalKind.kind]
  | composite b n d =>
      rw [Binding.keyFields] at hhead
      split at hhead <;> simp [KeyFields.head] at hhead
  | offset | derived | conversion => simp [Binding.keyFields, KeyFields.head] at hhead

/-! ## Agreement -/

/-- The dialect of a connection, where it serves queries. -/
def Project.dialectOf (p : Project) (connection : String) : Option Dialect :=
  (p.connectionDialects.lookup connection).bind Dialect.ofName

/-- Every source that is scanned stands on the connection. -/
def OnConnection (p : Project) (c : String) (st : Sql.Statement) : Prop :=
  ∀ s ∈ st.selects, ∀ scan ∈ s.scans, (p.sources.get scan.1).map (·.connection) = some c

/-- The statement is sent to the connection that its sources stand on, in its dialect. -/
def ConnectionAgrees (p : Project) (default_ : Option String) (r : CompileResult) : Prop :=
  ∃ c, connectionUsed p default_ r = some c ∧ OnConnection p c r.statement ∧
    p.dialectOf c = some r.dialect

/-- The connection of the first source that a key of the bindings names, or the default. -/
def keyConnection (p : Project) (default_ : Option String) (bindings : List (String × Binding)) :
    Option String :=
  ((bindings.findSome? fun b =>
    (p.sources.get (keySource b.2.keyFields.text)).map (·.connection)).filter (· ≠ "")).or default_

/-- The connection of the first source that the bindings read. -/
def leafConnection (p : Project) (bindings : List (String × Binding)) : Option String :=
  bindings.findSome? fun b =>
    (b.2.leaves.findSome? fun l => l.source.filter (· ≠ "")).bind fun s =>
      (p.sources.get s).bind fun src => if src.connection = "" then none else some src.connection

theorem dialectForBindings_eq (p : Project) (bindings : List (String × Binding)) :
    dialectForBindings p bindings =
      ((leafConnection p bindings).bind (p.connectionDialects.lookup ·)).getD "postgres" := by
  unfold dialectForBindings
  split
  next hempty =>
    rw [List.isEmpty_iff.mp hempty]
    cases leafConnection p bindings <;> simp
  next =>
    show (match leafConnection p bindings with
      | some c => (p.connectionDialects.lookup c).getD "postgres"
      | none => "postgres") = _
    cases leafConnection p bindings <;> rfl

/-- The keys of planned metrics are read in the order of the request. -/
theorem connectionForSql_zip {ss : Sources} {bindings : List (String × Binding)}
    {planned : List MetricLeaves}
    (h : List.Forall₂ (fun b pl => pl.resolved = b.2.keyFields.text) bindings planned) :
    connectionForSql ss ((bindings.map (·.1)).zip (planned.map (·.resolved))) =
      bindings.findSome? fun b =>
        (ss.get (keySource b.2.keyFields.text)).map (·.connection) := by
  unfold connectionForSql
  induction h with
  | nil => rfl
  | cons hb _ ih =>
      rw [List.map_cons, List.map_cons, List.zip_cons_cons, List.findSome?_cons,
        List.findSome?_cons, hb, ih]

/-- The connection of the first metric whose kind records a source in its key, or the default. -/
def kindConnection (p : Project) (default_ : Option String) (bindings : List (String × Binding)) :
    Option String :=
  ((bindings.findSome? fun b =>
    (b.2.keyFields.source.bind p.sources.get).map (·.connection)).filter (· ≠ "")).or default_

/-- Every source that a leaf of the statement reads stands on the connection. -/
def Plan.StandsOn (plan : Plan) (p : Project) (dedup : Bool) (c : String) : Prop :=
  ∀ l, plan.Emits dedup l → ∀ source, l.ReadsSource source →
    (p.sources.get source).map (·.connection) = some c

/-- Sources and the parts of the requested keys have names without the separators of keys. -/
def PlainNames (p : Project) (bindings : List (String × Binding)) : Prop :=
  (∀ s ∈ p.sources.list, KeyFields.PlainSource s.name) ∧ ∀ b ∈ bindings, b.2.keyFields.Plain

/-- Over plain names, the source that is read off a key is the one that the kind of the metric
records in it. -/
theorem keyConnection_eq {p : Project} {q : SemanticQuery} {principal : Principal} {plan : Plan}
    (hfrom : PlannedFrom p q principal plan) (hplain : PlainNames p plan.bindings)
    (default_ : Option String) :
    keyConnection p default_ plan.bindings = kindConnection p default_ plan.bindings := by
  have heach : ∀ b ∈ plan.bindings, p.sources.get (keySource b.2.keyFields.text) =
      b.2.keyFields.source.bind p.sources.get := by
    intro b hb
    obtain ⟨pl, -, hpl⟩ := forall₂_mem_left hfrom.planned hb
    have hkey := plannedKey hpl
    exact get_keySource (hplain.2 b hb) hkey.formed b.2.keyFields_bracketless hkey.source_ne_none
      hplain.1
  have hfind : plan.bindings.findSome? (fun b =>
      (p.sources.get (keySource b.2.keyFields.text)).map (·.connection)) =
        plan.bindings.findSome? fun b =>
          (b.2.keyFields.source.bind p.sources.get).map (·.connection) := by
    rw [← List.head?_filterMap, ← List.head?_filterMap]
    exact congrArg List.head? (List.filterMap_congr fun b hb => by rw [heach b hb])
  rw [keyConnection, kindConnection, hfind]

/-- The sources that a statement scans are those its leaves read. -/
theorem onConnection_iff {p : Project} {q : SemanticQuery} {principal : Principal} {plan : Plan}
    (hfrom : PlannedFrom p q principal plan) {dedup : Bool} {res : ComposeResult}
    (h : compose plan.ctx.env plan.leaves plan.metrics dedup = .ok res) {c : String} :
    OnConnection p c res.statement ↔ plan.StandsOn p dedup c := by
  constructor
  · intro hon l hl source hsource
    obtain ⟨s, hs, scan, hscan, rfl⟩ := (scans_iff hfrom h).mpr ⟨l, hl, hsource⟩
    exact hon s hs scan hscan
  · intro hstands s hs scan hscan
    obtain ⟨l, hl, hsource⟩ := (scans_iff hfrom h).mp ⟨s, hs, scan, hscan, rfl⟩
    exact hstands l hl scan.1 hsource

/-- **A statement runs where its sources stand** exactly when the connection of the first source
that a key of the requested metrics names, or the default connection when none does, is the one
that all sources its leaves read stand on, with the dialect of the first source the metrics read.
Over plain names, the source that a key names goes by the kind of the metric. -/
theorem connectionAgrees_iff {p : Project} {q : SemanticQuery} {principal : Principal}
    {plan : Plan} (hplan : planQuery p q principal = .ok plan) {dedup : Bool} {r : CompileResult}
    (hr : emitPlan plan dedup = .ok r) (default_ : Option String) :
    (PlainNames p plan.bindings → (ConnectionAgrees p default_ r ↔
      ∃ c, kindConnection p default_ plan.bindings = some c ∧ plan.StandsOn p dedup c ∧
        p.dialectOf c = Dialect.ofName
          (((leafConnection p plan.bindings).bind (p.connectionDialects.lookup ·)).getD
            "postgres"))) ∧
    (ConnectionAgrees p default_ r ↔
      ∃ c, keyConnection p default_ plan.bindings = some c ∧ plan.StandsOn p dedup c ∧
        p.dialectOf c = Dialect.ofName
          (((leafConnection p plan.bindings).bind (p.connectionDialects.lookup ·)).getD
            "postgres")) := by
  have hfrom := planQuery_eq_ok hplan
  have hiff : ConnectionAgrees p default_ r ↔
      ∃ c, keyConnection p default_ plan.bindings = some c ∧ plan.StandsOn p dedup c ∧
        p.dialectOf c = Dialect.ofName
          (((leafConnection p plan.bindings).bind (p.connectionDialects.lookup ·)).getD
            "postgres") := by
    simp only [emitPlan, bind_eq_ok, pure_eq_ok] at hr
    obtain ⟨composed, hcomposed, dialect, hdialect, rfl⟩ := hr
    have hname : Dialect.ofName (dialectForBindings p plan.bindings) = some dialect := by
      rw [hfrom.env] at hdialect
      unfold Env.adapterFor at hdialect
      split at hdialect
      next d hd => rw [Except.ok.inj hdialect] at hd; exact hd
      next => simp at hdialect
    have hkeys : connectionForSql p.sources ((plan.bindings.map (·.1)).zip
        (plan.planned.map (·.resolved))) = plan.bindings.findSome? fun b =>
          (p.sources.get (keySource b.2.keyFields.text)).map (·.connection) :=
      connectionForSql_zip (hfrom.planned.imp fun b pl hpl => (plannedKey hpl).resolved)
    have hscans : ∀ c, OnConnection p c composed.statement ↔ plan.StandsOn p dedup c :=
      fun c => onConnection_iff hfrom hcomposed
    rw [← dialectForBindings_eq, hname]
    simp only [ConnectionAgrees, connectionUsed, keyConnection, hkeys, hscans]
  exact ⟨fun hplain => by rw [← keyConnection_eq hfrom hplain]; exact hiff, hiff⟩

private def tripTexts : List (String × Sql.Expr) :=
  [("SUM(fare)", .node (.agg .sum) [.bare "fare"]), ("COUNT(id)", .node (.agg .count) [.bare "id"])]

/-- Trips on the connection `wh`, with a fare per trip; the project queries `app` too. -/
private def tripProject : Project where
  lib := Lib.ofTexts tripTexts
  sources := { list := [
    { name := "trips", connection := "wh", table := "trips"
      columns := [⟨"id", .int, true⟩, ⟨"fare", .decimal, true⟩]
      measures := [{ name := "fares", expr := "SUM(fare)" },
        { name := "n", expr := "COUNT(id)" }] }] }
  resolver := { bindings := [
    { metric := "fares", canonical := { of := .single "trips" "fares" } },
    { metric := "trips_taken", canonical := { of := .single "trips" "n" } },
    { metric := "fare_per_trip", canonical := { of := .ratio "fares" "trips_taken" } }] }
  connectionDialects := [("app", "postgres"), ("wh", "duckdb")]

/-- The statement of a ratio is sent to the default connection, which its source is not on. -/
theorem connectionAgrees_ratio_counterexample :
    ∃ r, compile tripProject { metrics := ["fare_per_trip"] } {} = .ok r ∧
      connectionForSql tripProject.sources r.resolved = none ∧
      ¬ ConnectionAgrees tripProject (some "app") r ∧ ¬ ConnectionAgrees tripProject none r := by
  obtain ⟨r, hr, hall⟩ := exists_ok_of_any
    (x := compile tripProject { metrics := ["fare_per_trip"] } {})
    (P := fun r => r.resolved == [("fare_per_trip", "ratio(fares, trips_taken)")] &&
      r.dialect == .duckdb)
    (by decide +kernel)
  simp only [Bool.and_eq_true, beq_iff_eq] at hall
  have hnone : connectionForSql tripProject.sources r.resolved = none := by
    rw [hall.1]
    decide +kernel
  refine ⟨r, hr, hnone, ?_, ?_⟩
  · rintro ⟨c, hc, -, hdialect⟩
    rw [connectionUsed, hnone] at hc
    obtain rfl : "app" = c := Option.some.inj hc
    rw [hall.2] at hdialect
    exact absurd hdialect (by decide +kernel)
  · rintro ⟨c, hc, -, -⟩
    rw [connectionUsed, hnone] at hc
    simp at hc

/-- A metric and a ratio whose leaves read one source. -/
theorem connectionAgrees_fares :
    ∃ plan r, planQuery tripProject { metrics := ["fares", "fare_per_trip"] } {} = .ok plan ∧
      emitPlan plan true = .ok r ∧ ConnectionAgrees tripProject (some "app") r := by
  obtain ⟨plan, hplan, hall⟩ := exists_ok_of_any
    (x := planQuery tripProject { metrics := ["fares", "fare_per_trip"] } {})
    (P := fun plan => (compose plan.ctx.env plan.leaves plan.metrics true).toOption.any fun res =>
      (emitPlan plan true).toOption.isSome &&
        plan.bindings.map (·.2.keyFields) ==
          [.measure "trips" "fares", .ratio "fares" "trips_taken"] &&
        kindConnection tripProject (some "app") plan.bindings == some "wh" &&
        leafConnection tripProject plan.bindings == some "wh" &&
        res.statement.selects.all fun s => s.scans.all fun scan => scan.1 == "trips")
    (by decide +kernel)
  obtain ⟨res, hres, hall⟩ := exists_ok_of_any hall
  simp only [Bool.and_eq_true, beq_iff_eq, List.all_eq_true] at hall
  obtain ⟨⟨⟨⟨hemit, hkeys⟩, hkind⟩, hleaf⟩, hscans⟩ := hall
  obtain ⟨r, hr⟩ : ∃ r, emitPlan plan true = .ok r := by
    cases h : emitPlan plan true with
    | ok r => exact ⟨r, rfl⟩
    | error e => simp [h, Except.toOption] at hemit
  have hplain : PlainNames tripProject plan.bindings := by
    refine ⟨?_, fun b hb => ?_⟩
    · exact List.forall_mem_singleton.mpr ⟨by decide, by decide⟩
    · have hmem := List.mem_map_of_mem (f := (·.2.keyFields)) hb
      rw [hkeys] at hmem
      rcases List.mem_pair.mp hmem with hb | hb
      all_goals
        rw [hb]
        exact ⟨by decide, by decide⟩
  refine ⟨plan, r, hplan, hr, ((connectionAgrees_iff hplan hr (some "app")).1 hplain).mpr
    ⟨"wh", hkind, (onConnection_iff (planQuery_eq_ok hplan) hres).mp fun s hs scan hscan => ?_,
      ?_⟩⟩
  · rw [hscans s hs scan hscan]
    decide +kernel
  · rw [hleaf]
    decide +kernel

end Canonic
