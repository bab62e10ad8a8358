import Canonic.Compiler.Calls
import Canonic.Sql.Traverse

set_option autoImplicit false

/-! # Required dimensions

A `required_dimension` guardrail asks that a query groups by or filters on a dimension. The
compiler resolves the dimensions and the parsed columns of a query on the owner; the check does
not: it compares the requested names and the words of the filter texts, cut at white space, with
the names of the dimension. `ReadsDimension` is what is asked, `Spells` is what is checked. -/

namespace Canonic

open Sql (Expr)

variable {env : Env} {q : SemanticQuery} {source : String} {g : Guardrail}

/-! ## What is asked -/

/-- The dimension a column of a filter stands for on the owner, if it stands for one. A column with
a third qualifier is left as it is. -/
def columnDimension (ss : Sources) (source : String) (c : Sql.Column) :
    Except Err (Option (String × Dimension)) :=
  if c.table = "" then findDimension ss c.name source (some (buildAliasTree ss source))
  else if c.db ≠ "" then .ok none
  else findDimension ss (c.table ++ "." ++ c.name) source (some (buildAliasTree ss source))

/-- A requested dimension or a column of a parsed filter is the dimension. -/
def ReadsDimension (env : Env) (q : SemanticQuery) (source : String)
    (found : String × Dimension) : Prop :=
  (∃ r ∈ q.dimensions, findDimension env.sources r source
      (some (buildAliasTree env.sources source)) = .ok (some found)) ∨
    ∃ f ∈ q.filters, ∃ parsed, env.parse f = .ok parsed ∧ ∃ c ∈ parsed.columns,
      columnDimension env.sources source c = .ok (some found)

/-- The dimension of a guardrail, as the owner resolves it. -/
def RequiresDimension (ss : Sources) (source : String) (g : Guardrail)
    (found : String × Dimension) : Prop :=
  findDimension ss (g.dimension.getD "") source (some (buildAliasTree ss source)) = .ok (some found)

/-- The guardrail is satisfied exactly when the query reads its dimension. -/
def RequirementSound (env : Env) (q : SemanticQuery) (source : String) (g : Guardrail) : Prop :=
  requiredSatisfied env.sources q source g = .ok true ↔
    ∃ found, RequiresDimension env.sources source g found ∧ ReadsDimension env q source found

/-! ## What is checked -/

/-- The ways to spell a dimension of an alias: its names, with the alias unless it is the owner's.
-/
def entryNames (source : String) (found : String × Dimension) : List String :=
  (found.2.name :: found.2.aliases).map fun cand =>
    if found.1 = source then cand else found.1 ++ "." ++ cand

/-- A requested dimension is spelled as the dimension, or as the last part of its name. -/
def SpellsRequested (q : SemanticQuery) (source : String) (found : String × Dimension) : Prop :=
  ∃ r ∈ q.dimensions, ∃ entry ∈ entryNames source found, r = entry ∨ r = lastComponent entry

/-- A word of a filter text, cut at white space, is the last part of its name. -/
def SpellsInFilter (q : SemanticQuery) (source : String) (found : String × Dimension) : Prop :=
  ∃ f ∈ q.filters, ∃ word ∈ pyWords f.toList [], ∃ entry ∈ entryNames source found,
    word = lastComponent entry

/-- The dimension is read somewhere and spelled nowhere: `status='paid'`, `(status = 'paid')` and
`orders.status = 'paid'` have no word `status`. -/
def BlockedThoughRead (env : Env) (q : SemanticQuery) (source : String)
    (found : String × Dimension) : Prop :=
  ReadsDimension env q source found ∧ ¬ SpellsRequested q source found ∧
    ¬ SpellsInFilter q source found

/-- The dimension is read nowhere, but a word of a literal or another dimension is spelled so. -/
def PassedThoughUnread (env : Env) (q : SemanticQuery) (source : String)
    (found : String × Dimension) : Prop :=
  ¬ ReadsDimension env q source found ∧
    (SpellsRequested q source found ∨ SpellsInFilter q source found)

theorem queryReferences_iff {entry : String} : queryReferences q entry = true ↔
    (∃ r ∈ q.dimensions, r = entry ∨ r = lastComponent entry) ∨
      ∃ f ∈ q.filters, lastComponent entry ∈ pyWords f.toList [] := by
  unfold queryReferences
  simp only [Bool.or_eq_true, decide_eq_true_eq, List.mem_flatMap]
  constructor
  · rintro ((h | h) | h)
    · exact Or.inl ⟨entry, h, Or.inl rfl⟩
    · exact Or.inl ⟨_, h, Or.inr rfl⟩
    · exact Or.inr h
  · rintro (⟨r, hr, rfl | rfl⟩ | h)
    · exact Or.inl (Or.inl hr)
    · exact Or.inl (Or.inr hr)
    · exact Or.inr h

theorem referencesDimension_iff {found : String × Dimension} :
    referencesDimension q source found.1 found.2 = true ↔
      SpellsRequested q source found ∨ SpellsInFilter q source found := by
  have hentries : referencesDimension q source found.1 found.2 =
      (entryNames source found).any (queryReferences q) := by
    rw [referencesDimension, entryNames, List.any_map]
    rfl
  rw [hentries, List.any_eq_true]
  constructor
  · rintro ⟨entry, hentry, h⟩
    rcases queryReferences_iff.mp h with ⟨r, hr, hspelled⟩ | ⟨f, hf, hword⟩
    · exact Or.inl ⟨r, hr, entry, hentry, hspelled⟩
    · exact Or.inr ⟨f, hf, _, hword, entry, hentry, rfl⟩
  · rintro (⟨r, hr, entry, hentry, hspelled⟩ | ⟨f, hf, word, hword, entry, hentry, rfl⟩)
    · exact ⟨entry, hentry, queryReferences_iff.mpr (Or.inl ⟨r, hr, hspelled⟩)⟩
    · exact ⟨entry, hentry, queryReferences_iff.mpr (Or.inr ⟨f, hf, hword⟩)⟩

theorem requiredSatisfied_iff : requiredSatisfied env.sources q source g = .ok true ↔
    ∃ found, RequiresDimension env.sources source g found ∧
      (SpellsRequested q source found ∨ SpellsInFilter q source found) := by
  unfold RequiresDimension
  rw [requiredSatisfied, bind_eq_ok]
  constructor
  · rintro ⟨found, hfound, h⟩
    cases found with
    | none => cases h
    | some found =>
        have href : referencesDimension q source found.1 found.2 = true := pure_eq_ok.mp h
        exact ⟨found, hfound, referencesDimension_iff.mp href⟩
  · rintro ⟨found, hfound, hspelled⟩
    exact ⟨some found, hfound, congrArg Except.ok (referencesDimension_iff.mpr hspelled)⟩

/-- A guardrail requires one dimension at most. -/
theorem RequiresDimension.unique {ss : Sources} {found found' : String × Dimension}
    (h : RequiresDimension ss source g found) (h' : RequiresDimension ss source g found') :
    found = found' := by
  unfold RequiresDimension at h h'
  rw [h] at h'
  exact Option.some.inj (Except.ok.inj h')

/-- **The check is sound** where what is read is spelled and what is spelled is read. -/
theorem requirementSound_iff : RequirementSound env q source g ↔
    ∀ found, RequiresDimension env.sources source g found →
      ¬ BlockedThoughRead env q source found ∧ ¬ PassedThoughUnread env q source found := by
  unfold RequirementSound
  rw [requiredSatisfied_iff]
  constructor
  · intro h found hfound
    constructor
    · rintro ⟨hread, hrequested, hfilter⟩
      obtain ⟨found', hfound', hspelled⟩ := h.mpr ⟨found, hfound, hread⟩
      obtain rfl := hfound.unique hfound'
      exact hspelled.elim hrequested hfilter
    · rintro ⟨hunread, hspelled⟩
      obtain ⟨found', hfound', hread⟩ := h.mp ⟨found, hfound, hspelled⟩
      obtain rfl := hfound.unique hfound'
      exact hunread hread
  · intro h
    constructor
    · rintro ⟨found, hfound, hspelled⟩
      refine ⟨found, hfound, ?_⟩
      by_contra hunread
      exact (h found hfound).2 ⟨hunread, hspelled⟩
    · rintro ⟨found, hfound, hread⟩
      refine ⟨found, hfound, ?_⟩
      by_contra hspelled
      exact (h found hfound).1 ⟨hread, fun hr => hspelled (Or.inl hr),
        fun hf => hspelled (Or.inr hf)⟩

/-! ## Filters whose words are their columns -/

/-- A filter that compares a column with a value, the three apart as in `status = 'paid'`: one word
is the column, and the other two are no names of the dimension. -/
structure Compares (env : Env) (source : String) (found : String × Dimension) (f name : String) :
    Prop where
  words : ∃ operator value, pyWords f.toList [] = [name, operator, value] ∧
    ∀ entry ∈ entryNames source found, operator ≠ lastComponent entry ∧ value ≠ lastComponent entry
  parsed : ∃ e, env.parse f = .ok e ∧ e.columns = [⟨"", "", name⟩]
  bare : lastComponent name = name

/-- The names of a dimension, and the last parts of them, are what the owner resolves to it. -/
def NamesAgree (env : Env) (source : String) (found : String × Dimension) : Prop :=
  ∀ name, findDimension env.sources name source (some (buildAliasTree env.sources source)) =
    .ok (some found) ↔ ∃ entry ∈ entryNames source found, name = entry ∨ name = lastComponent entry

theorem NamesAgree.spells_iff {found : String × Dimension} (h : NamesAgree env source found)
    {f name : String} (hf : Compares env source found f name) :
    (∃ word ∈ pyWords f.toList [], ∃ entry ∈ entryNames source found, word = lastComponent entry) ↔
      columnDimension env.sources source ⟨"", "", name⟩ = .ok (some found) := by
  obtain ⟨operator, value, hwords, hother⟩ := hf.words
  rw [columnDimension, if_pos rfl, h name]
  constructor
  · rintro ⟨word, hword, entry, hentry, rfl⟩
    rw [hwords] at hword
    rcases List.mem_cons.mp hword with hname | hword
    · exact ⟨entry, hentry, Or.inr hname.symm⟩
    · rcases List.mem_pair.mp hword with hop | hvalue
      · exact absurd hop.symm (hother entry hentry).1
      · exact absurd hvalue.symm (hother entry hentry).2
  · rintro ⟨entry, hentry, hname⟩
    refine ⟨name, hwords ▸ List.mem_cons_self, entry, hentry, ?_⟩
    rcases hname with rfl | hname
    · exact hf.bare.symm
    · exact hname

/-- A query whose filters are such comparisons reads a dimension where it spells it. -/
theorem readsDimension_iff_spells {found : String × Dimension} (h : NamesAgree env source found)
    (hfilters : ∀ f ∈ q.filters, ∃ name, Compares env source found f name) :
    ReadsDimension env q source found ↔
      SpellsRequested q source found ∨ SpellsInFilter q source found := by
  refine or_congr (exists_congr fun r => and_congr_right fun _ => h r)
    (exists_congr fun f => and_congr_right fun hf => ?_)
  obtain ⟨name, hname⟩ := hfilters f hf
  obtain ⟨e, he, hcolumns⟩ := hname.parsed
  rw [h.spells_iff hname]
  constructor
  · rintro ⟨parsed, hparsed, c, hc, hread⟩
    rw [he] at hparsed
    obtain rfl := Except.ok.inj hparsed
    rw [hcolumns, List.mem_singleton] at hc
    exact hc ▸ hread
  · intro hread
    exact ⟨e, he, _, hcolumns ▸ List.mem_singleton_self _, hread⟩

theorem requirementSound_of_compares
    (h : ∀ found, RequiresDimension env.sources source g found → NamesAgree env source found ∧
      ∀ f ∈ q.filters, ∃ name, Compares env source found f name) :
    RequirementSound env q source g := by
  refine requirementSound_iff.mpr fun found hfound => ?_
  have hiff := readsDimension_iff_spells (h found hfound).1 (h found hfound).2
  refine ⟨fun hblocked => ?_, fun hpassed => hpassed.1 (hiff.mpr hpassed.2)⟩
  exact (hiff.mp hblocked.1).elim hblocked.2.1 hblocked.2.2

/-! ## All guardrails of a query -/

/-- A missing guardrail is reported as a warning, by the first one of its id. -/
theorem reported_of_missing {missing : List Guardrail} {warnings : List String}
    (h : (firstById (·.id) [] missing).mapM (fun g => blockOrWarn g [g.dimension.getD ""]) =
      .ok warnings) {g : Guardrail} (hg : g ∈ missing) :
    ∃ reported : Guardrail, reported.id = g.id ∧ reported.severity = .warn ∧
      s!"{reported.id}: {reported.rationale}" ∈ warnings := by
  cases hfind : missing.find? fun y => y.id == g.id with
  | none => exact absurd (List.find?_eq_none.mp hfind g hg) (by simp)
  | some reported =>
      have hid : reported.id = g.id := by simpa using List.find?_some hfind
      have hfirst : reported ∈ firstById (·.id) [] missing := by
        rw [mem_firstById, hid]
        exact ⟨List.not_mem_nil, hfind⟩
      obtain ⟨line, hline, hreport⟩ := forall₂_mem_left (mapM_eq_ok.mp h) hfirst
      unfold blockOrWarn at hreport
      cases hseverity : reported.severity with
      | error =>
          rw [hseverity] at hreport
          cases hreport
      | warn =>
          rw [hseverity] at hreport
          refine ⟨reported, hid, hseverity, ?_⟩
          rwa [← Except.ok.inj hreport] at hline

/-- A query that passes the check satisfies every guardrail in force, or one with its id is reported
as a warning. -/
theorem enforceRequiredDimension_ok {resolver : ContractResolver} {ss : Sources}
    {bindings : List (String × Binding)} {warnings : List String}
    (h : enforceRequiredDimension resolver ss q bindings = .ok warnings) {b : String × Binding}
    (hb : b ∈ bindings) {m : Binding} (hm : m ∈ matchedAlone b.2) {measure : String}
    (hsource : m.source = some source) (hmeasure : m.measure = some measure)
    (hg : g ∈ resolver.requiredDimensionFor source measure q.context) :
    requiredSatisfied ss q source g = .ok true ∨
      ∃ reported : Guardrail, reported.id = g.id ∧ reported.severity = .warn ∧
        s!"{reported.id}: {reported.rationale}" ∈ warnings := by
  obtain ⟨satisfied, hsatisfied, h⟩ := bind_eq_ok.mp h
  generalize hforce : List.flatMap _ bindings = inForce at hsatisfied h
  obtain ⟨hlen, hzip⟩ := List.forall₂_iff_zip.mp (mapM_eq_ok.mp hsatisfied)
  have hmatched : (source, g) ∈ inForce := by
    rw [← hforce]
    refine List.mem_flatMap.mpr ⟨b, hb, List.mem_flatMap.mpr ⟨m, hm, ?_⟩⟩
    simp only [hsource, hmeasure]
    rw [List.mem_map]
    exact ⟨g, hg, rfl⟩
  rw [← List.map_fst_zip (Nat.le_of_eq hlen)] at hmatched
  obtain ⟨⟨p, value⟩, hmem, hp⟩ := List.mem_map.mp hmatched
  subst hp
  cases value with
  | true =>
      have hpair := hzip hmem
      exact Or.inl hpair
  | false =>
      apply Or.inr
      apply reported_of_missing h
      rw [List.mem_map]
      exact ⟨((source, g), false), by rw [List.mem_filter]; exact ⟨hmem, rfl⟩, rfl⟩

/-! ## A word of a literal -/

/-- The one filter of the query, and the measure. -/
private def noteTexts : List (String × Expr) :=
  [("note LIKE '% status %'", .call "Like" [Expr.bare "note", .string "% status %"]),
   ("SUM(amount)", .node (.agg .sum) [Expr.bare "amount"])]

private def noteOrders : SemanticSource where
  name := "orders"
  connection := "warehouse"
  table := "orders"
  columns := [⟨"status", .string, true⟩, ⟨"note", .string, true⟩]
  dimensions := [{ name := "status", column := some "status" }]
  dimensions_nodup := List.nodup_singleton "status"

private def noteEnv : Env where
  lib := Lib.ofTexts noteTexts
  dialectName := "postgres"
  sources := { list := [noteOrders] }

/-- Orders are to be grouped by or filtered on their status. -/
private def statusRequired : Guardrail where
  id := "orders-require-status"
  appliesTo := .metric "revenue"
  kind := .requiredDimension
  dimension := some "status"

/-- A filter on the note whose pattern has the word `status` satisfies it. -/
theorem requirementSound_counterexample :
    requiredSatisfied noteEnv.sources
        { metrics := ["revenue"], filters := ["note LIKE '% status %'"] } "orders" statusRequired =
          .ok true ∧
      ¬ RequirementSound noteEnv
        { metrics := ["revenue"], filters := ["note LIKE '% status %'"] } "orders"
          statusRequired := by
  have hsatisfied : requiredSatisfied noteEnv.sources
      { metrics := ["revenue"], filters := ["note LIKE '% status %'"] } "orders" statusRequired =
        .ok true := by decide +kernel
  refine ⟨hsatisfied, fun h => ?_⟩
  obtain ⟨found, hfound, ⟨r, hr, -⟩ | ⟨f, hf, parsed, hparsed, c, hc, hread⟩⟩ := h.mp hsatisfied
  · cases hr
  · obtain rfl := List.mem_singleton.mp hf
    have htree : noteEnv.parse "note LIKE '% status %'" =
        .ok (.call "Like" [Expr.bare "note", .string "% status %"]) := by decide +kernel
    rw [htree] at hparsed
    obtain rfl := Except.ok.inj hparsed
    have hnote : c = ⟨"", "", "note"⟩ := by simpa [Expr.call, Expr.bare, Expr.string] using hc
    rw [hnote] at hread
    have hnone : columnDimension noteEnv.sources "orders" ⟨"", "", "note"⟩ = .ok none := by
      decide +kernel
    rw [hnone] at hread
    cases hread

end Canonic
