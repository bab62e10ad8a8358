import Canonic.Knowledge.Retrieval

set_option autoImplicit false

/-! # What one user sees of the pages of others

The pages of a user share their keys with the pages that other users gave the same name. A user
without pages of their own is out of reach of that: each key they may see is one of a shared page.
What is left is the one index over the pages of all users, where the pages of others count in the
scores; they are seen exactly where they change the order of two shared pages. -/

namespace Canonic

/-! ## Isolation -/

/-- Whatever pages other users have, a query ranks the visible pages it finds in one order. -/
def SearchEngine.RanksAlike (E : SearchEngine) (P : Pages) (user : String) : Prop :=
  ∀ P' : Pages, visiblePages user P'.list = visiblePages user P.list →
    ∀ query, isBlank query = false →
      ∀ p ∈ visiblePages user P.list, ∀ q ∈ visiblePages user P.list,
        E.finds query p = true → E.finds query q = true →
          (Outranks (E.bm25 P'.list query) p q ↔ Outranks (E.bm25 P.list query) p q)

def Hit.BuiltFrom (h : Hit) (p : KnowledgePage) : Prop :=
  h.page = p.id ∧ h.scope = p.scope ∧ h.summary = p.summary ∧ h.usageMode = p.usageMode ∧
    h.slRefs = p.slRefs

def Annotation.BuiltFrom (a : Annotation) (p : KnowledgePage) : Prop :=
  a.page = p.id ∧ ∃ owner, p.owner = some owner ∧ a.scope = "user:" ++ owner

def Caveat.BuiltFrom (c : Caveat) (p : KnowledgePage) : Prop :=
  c.page = p.id ∧ c.scope = p.scope ∧ c.summary = p.summary ∧ c.slRefs = p.slRefs

/-- **Knowledge isolation** of a user: what a search returns is built from visible pages, a visible
page can be read by its name, and nothing changes with the pages of others. -/
structure Isolated (E : SearchEngine) (P : Pages) (user : String) : Prop where
  hits : ∀ o, ∀ h ∈ (E.search P.list user o).hits,
    (∃ p ∈ visiblePages user P.list, h.BuiltFrom p) ∧
      ∀ a ∈ h.annotations, ∃ p ∈ visiblePages user P.list, a.BuiltFrom p
  caveats : ∀ o, ∀ c ∈ (E.search P.list user o).caveats,
    ∃ p ∈ visiblePages user P.list, c.BuiltFrom p
  readable : ∀ name, (∃ p ∈ visiblePages user P.list, p.id = name) →
    ∃ p ∈ visiblePages user P.list, p.id = name ∧ readKnowledgePage P.list user name = .ok p
  search_same : ∀ P' : Pages, visiblePages user P'.list = visiblePages user P.list →
    ∀ o, E.search P'.list user o = E.search P.list user o
  read_same : ∀ P' : Pages, visiblePages user P'.list = visiblePages user P.list →
    ∀ name, (readKnowledgePage P'.list user name).toOption =
      (readKnowledgePage P.list user name).toOption

/-! ## Sorting -/

theorem filter_orderedInsert {α : Type} {r : α → α → Prop} [DecidableRel r] [IsTrans α r]
    (keep : α → Bool) (a : α) {l : List α} (h : l.Pairwise r) :
    (l.orderedInsert r a).filter keep =
      if keep a then (l.filter keep).orderedInsert r a else l.filter keep := by
  induction l with
  | nil => by_cases ha : keep a = true <;> simp [ha]
  | cons b l ih =>
      rw [List.pairwise_cons] at h
      by_cases hab : r a b
      · -- everything behind `b` stands behind `a` as well
        have hall : ∀ c ∈ (b :: l).filter keep, r a c := by
          intro c hc
          rcases List.mem_cons.mp (List.mem_filter.mp hc).1 with rfl | hc
          · exact hab
          · exact IsTrans.trans _ _ _ hab (h.1 c hc)
        rw [List.orderedInsert_cons_of_le _ _ hab, List.filter_cons]
        split
        · cases hl : (b :: l).filter keep with
          | nil => rfl
          | cons c cs =>
              rw [List.orderedInsert_cons_of_le]
              exact hall c (hl ▸ List.mem_cons_self)
        · rfl
      · rw [List.orderedInsert, if_neg hab, List.filter_cons, List.filter_cons, ih h.2]
        by_cases ha : keep a = true <;> by_cases hb : keep b = true <;>
          simp [ha, hb, hab]

theorem filter_insertionSort {α : Type} (r : α → α → Prop) [DecidableRel r] [Std.Total r]
    [IsTrans α r] (keep : α → Bool) (l : List α) :
    (l.insertionSort r).filter keep = (l.filter keep).insertionSort r := by
  induction l with
  | nil => rfl
  | cons a l ih =>
      rw [List.insertionSort_cons,
        filter_orderedInsert keep a (List.pairwise_insertionSort r l), ih, List.filter_cons]
      split <;> rfl

instance (score : KnowledgePage → ℚ) : IsTrans KnowledgePage (Outranks score) where
  trans p q r hpq hqr := by
    rcases hpq with h | ⟨h, hid⟩ <;> rcases hqr with h' | ⟨h', hid'⟩
    · exact Or.inl (lt_trans h' h)
    · exact Or.inl (h' ▸ h)
    · exact Or.inl (h ▸ h')
    · exact Or.inr ⟨h.trans h', le_trans hid hid'⟩

instance (score : KnowledgePage → ℚ) : Std.Total (Outranks score) where
  total p q := by
    rcases lt_trichotomy (score p) (score q) with h | h | h
    · exact Or.inr (Or.inl h)
    · rcases le_total p.id q.id with hid | hid
      · exact Or.inl (Or.inr ⟨h, hid⟩)
      · exact Or.inr (Or.inr ⟨h.symm, hid⟩)
    · exact Or.inl (Or.inl h)

/-! ## Keys -/

theorem KnowledgePage.scope_shared_iff {p : KnowledgePage} :
    p.scope = .shared ↔ p.owner = none := by
  unfold KnowledgePage.scope
  cases p.owner with
  | none => simp
  | some u => simp

theorem KnowledgePage.visibleTo_iff {p : KnowledgePage} {user : String} :
    p.visibleTo user = true ↔ p.owner = none ∨ p.owner = some user := by
  rw [KnowledgePage.visibleTo, Bool.or_eq_true, decide_eq_true_iff, decide_eq_true_iff,
    KnowledgePage.scope_shared_iff]

theorem mem_visiblePages {p : KnowledgePage} {user : String} {pages : List KnowledgePage} :
    p ∈ visiblePages user pages ↔ p ∈ pages ∧ (p.owner = none ∨ p.owner = some user) := by
  rw [visiblePages, List.mem_filter, KnowledgePage.visibleTo_iff]

/-- Pages with one key are of one scope. -/
theorem KnowledgePage.scope_eq_of_docKey {p q : KnowledgePage} (h : p.docKey = q.docKey) :
    p.scope = q.scope := by
  have hchars := congrArg String.toList h
  unfold KnowledgePage.docKey at hchars
  cases hp : p.scope <;> cases hq : q.scope <;>
    simp [hp, hq, KnowledgeScope.value, String.toList_append] at hchars ⊢

/-- A key of a shared page. -/
def SharedKey (key : String) : Prop := ∃ p : KnowledgePage, p.owner = none ∧ p.docKey = key

theorem SharedKey.owner {key : String} (h : SharedKey key) {p : KnowledgePage}
    (hp : p.docKey = key) : p.owner = none := by
  obtain ⟨q, hq, hkey⟩ := h
  have hscope := KnowledgePage.scope_eq_of_docKey (hp.trans hkey.symm)
  rw [← KnowledgePage.scope_shared_iff, hscope]
  exact KnowledgePage.scope_shared_iff.mpr hq

/-- The engine finds under the key of a shared page what is visible. -/
theorem get_byDocKey {key : String} (h : SharedKey key) (user : String)
    (pages : List KnowledgePage) : (SearchEngine.byDocKey pages).get key =
      (SearchEngine.byDocKey (visiblePages user pages)).get key := by
  rw [SearchEngine.byDocKey, SearchEngine.byDocKey, Dict.get_indexBy, Dict.get_indexBy,
    visiblePages, List.filter_filter]
  congr 1
  refine List.filter_congr fun p _ => ?_
  by_cases hp : p.docKey = key
  · simp [hp, KnowledgePage.visibleTo_iff.mpr (Or.inl (h.owner hp))]
  · simp [hp]

namespace SearchEngine

variable {E : SearchEngine} {user : String}

/-- Documents that are not visible have no rank under the keys of shared pages. -/
theorem ranksOf_visiblePages (user : String) {eligible : List String}
    (h : ∀ key ∈ eligible, SharedKey key) (docs : List KnowledgePage) :
    ranksOf eligible docs = ranksOf eligible (visiblePages user docs) := by
  have hkeys : (docs.map (·.docKey)).filter (· ∈ eligible) =
      ((visiblePages user docs).map (·.docKey)).filter (· ∈ eligible) := by
    rw [List.filter_map, List.filter_map, visiblePages, List.filter_filter]
    congr 1
    refine List.filter_congr fun p _ => ?_
    by_cases hp : p.docKey ∈ eligible
    · simp [hp, KnowledgePage.visibleTo_iff.mpr (Or.inl ((h _ hp).owner rfl))]
    · simp [hp]
  rw [ranksOf, ranksOf, hkeys]

theorem mem_ranksOf {eligible : List String} {docs : List KnowledgePage} {key : String}
    (h : key ∈ (ranksOf eligible docs).map (·.1)) : key ∈ eligible := by
  have hgen : ∀ (l : List (String × ℕ)) (d : Dict ℕ), (∀ p ∈ l, p.1 ∈ eligible) →
      (∀ p ∈ d, p.1 ∈ eligible) → ∀ p ∈ l.foldl (fun d p => d.set p.1 p.2) d, p.1 ∈ eligible := by
    intro l
    induction l with
    | nil => exact fun d _ hd => hd
    | cons q l ih =>
        intro d hl hd
        refine ih _ (fun p hp => hl p (List.mem_cons_of_mem q hp)) fun p hp => ?_
        rcases Dict.mem_set.mp hp with ⟨hq, -⟩ | ⟨-, hp⟩
        · exact hq ▸ hl q List.mem_cons_self
        · exact hd p hp
  obtain ⟨p, hp, rfl⟩ := List.mem_map.mp h
  refine hgen _ [] (fun q hq => ?_) (by simp) p hp
  have hq' := List.mem_filter.mp (List.fst_mem_of_mem_zipIdx hq)
  simpa using hq'.2

theorem mem_byDocKey {pages : List KnowledgePage} {key : String} {p : KnowledgePage}
    (h : (byDocKey pages).get key = some p) : p ∈ pages ∧ p.docKey = key := by
  rw [byDocKey, Dict.get_indexBy] at h
  simpa using List.mem_filter.mp (List.mem_of_getLast? h)

theorem mem_fuse {pages : List KnowledgePage} {ranks : Dict ℕ × Dict ℕ} {r : Ranked}
    (h : r ∈ E.fuse pages ranks) :
    r.key ∈ (ranks.1 ++ ranks.2).map (·.1) ∧ (byDocKey pages).get r.key = some r.page := by
  rw [fuse, List.mem_insertionSort] at h
  obtain ⟨key, hkey, hr⟩ := List.mem_filterMap.mp h
  obtain ⟨page, hpage, rfl⟩ := Option.map_eq_some_iff.mp hr
  exact ⟨List.mem_dedup.mp hkey, hpage⟩

/-- A hit is made of a fused key. -/
theorem mem_buildHits {ranked : List Ranked} {ranks : Dict ℕ × Dict ℕ}
    {visible : List KnowledgePage} {limit : ℕ} {h : Hit}
    (hh : h ∈ buildHits ranked ranks visible limit) :
    ∃ r ∈ ranked, h = hitOf ranks visible r := by
  obtain ⟨r, hr, rfl⟩ := List.mem_map.mp hh
  exact ⟨r, (List.mem_filter.mp (List.mem_of_mem_take hr)).1, rfl⟩

theorem mem_surfaceCaveats {hits : List Hit} {visible : List KnowledgePage} {n : ℕ} {c : Caveat}
    (h : c ∈ surfaceCaveats hits visible n) : ∃ p ∈ visible, c.BuiltFrom p := by
  obtain ⟨p, hp, hc⟩ := List.mem_filterMap.mp (List.mem_of_mem_take h)
  rw [List.mem_insertionSort] at hp
  dsimp only at hc
  split at hc
  · cases hc
  · obtain rfl := Option.some.inj hc
    exact ⟨p, hp, rfl, rfl, rfl, rfl⟩

theorem mem_annotationsFor {page : KnowledgePage} {visible : List KnowledgePage} {a : Annotation}
    (h : a ∈ annotationsFor page visible) : ∃ p ∈ visible, a.BuiltFrom p := by
  obtain ⟨p, hp, ha⟩ := List.mem_filterMap.mp h
  cases howner : p.owner with
  | none => simp [howner] at ha
  | some owner =>
      simp only [howner] at ha
      split at ha
      · obtain rfl := Option.some.inj ha
        exact ⟨p, hp, rfl, owner, howner, rfl⟩
      · cases ha

/-- The keys a user may see are of shared pages, when none of the visible pages is their own. -/
theorem sharedKey_of_eligible {visible : List KnowledgePage}
    (hshared : ∀ p ∈ visible, p.owner = none) (o : SearchOptions) :
    ∀ key ∈ (visible.filter o.passes).map (·.docKey), SharedKey key := by
  intro key hkey
  obtain ⟨p, hp, rfl⟩ := List.mem_map.mp hkey
  exact ⟨p, hshared p (List.mem_filter.mp hp).1, rfl⟩

theorem mem_armRanks {pages : List KnowledgePage} {query : String} {eligible : List String}
    {pool : ℕ} {key : String}
    (h : key ∈ ((E.armRanks pages query eligible pool).1 ++
      (E.armRanks pages query eligible pool).2).map (·.1)) : key ∈ eligible := by
  rw [List.map_append, List.mem_append] at h
  rcases h with h | h
  · exact mem_ranksOf h
  · unfold armRanks at h
    cases hv : E.cosine with
    | none => simp [hv] at h
    | some cosine =>
        simp only [hv] at h
        exact mem_ranksOf h

/-- The visible ones among the candidates of an arm, which are all the pages it finds. -/
theorem visiblePages_candidates (user : String) (finds : KnowledgePage → Bool)
    (score : KnowledgePage → ℚ) (pages : List KnowledgePage) (limit : ℕ) :
    visiblePages user (((pages.filter finds).insertionSort (Outranks score)).take
      (max limit pages.length)) =
      ((visiblePages user pages).filter finds).insertionSort (Outranks score) := by
  have hall : ((pages.filter finds).insertionSort (Outranks score)).length ≤
      max limit pages.length := by
    rw [List.length_insertionSort]
    exact le_trans (List.length_filter_le _ _) (le_max_right _ _)
  rw [List.take_of_length_le hall, visiblePages, filter_insertionSort, visiblePages,
    List.filter_filter, List.filter_filter]
  congr 1
  exact List.filter_congr fun p _ => Bool.and_comm _ _

theorem visiblePages_lexical (user : String) (pages : List KnowledgePage) {query : String}
    (hquery : isBlank query = false) (limit : ℕ) :
    visiblePages user (E.lexical pages query (max limit pages.length)) =
      ((visiblePages user pages).filter (E.finds query)).insertionSort
        (Outranks (E.bm25 pages query)) := by
  rw [lexical, if_neg (by simp [hquery]), visiblePages_candidates]

theorem visiblePages_vector (user : String) (cosine : String → String → ℚ)
    (pages : List KnowledgePage) {query : String} (hquery : isBlank query = false) (limit : ℕ) :
    visiblePages user (vector cosine pages query (max limit pages.length)) =
      ((visiblePages user pages).filter fun p => 0 < cosine query (pageText p)).insertionSort
        (Outranks fun p => cosine query (pageText p)) := by
  rw [vector, if_neg (by simp [hquery]), visiblePages_candidates]

/-- Pages in one order are sorted alike. -/
theorem insertionSort_congr {score score' : KnowledgePage → ℚ} {pages : List KnowledgePage}
    (h : ∀ p ∈ pages, ∀ q ∈ pages, Outranks score p q ↔ Outranks score' p q) :
    pages.insertionSort (Outranks score) = pages.insertionSort (Outranks score') := by
  have hmap := List.map_insertionSort (Outranks score) (Outranks score') id pages h
  simpa using hmap

/-- The vector arm ranks the keys of shared pages alike. -/
theorem vectorRanks_eq {pages pages' : List KnowledgePage}
    (hsame : visiblePages user pages' = visiblePages user pages) {eligible : List String}
    (h : ∀ key ∈ eligible, SharedKey key) (query : String) (limit : ℕ) :
    (E.armRanks pages' query eligible (max limit pages'.length)).2 =
      (E.armRanks pages query eligible (max limit pages.length)).2 := by
  unfold armRanks
  cases E.cosine with
  | none => rfl
  | some cosine =>
      simp only
      rw [ranksOf_visiblePages user h, ranksOf_visiblePages user h (vector cosine pages _ _)]
      cases hquery : isBlank query with
      | true => simp [vector, hquery]
      | false => rw [visiblePages_vector _ _ _ hquery, visiblePages_vector _ _ _ hquery, hsame]

/-- The arms rank the keys of shared pages alike, where the index orders their pages alike. -/
theorem armRanks_eq {P P' : Pages} (hE : E.RanksAlike P user)
    (hsame : visiblePages user P'.list = visiblePages user P.list) {eligible : List String}
    (h : ∀ key ∈ eligible, SharedKey key) (query : String) (limit : ℕ) :
    E.armRanks P'.list query eligible (max limit P'.list.length) =
      E.armRanks P.list query eligible (max limit P.list.length) := by
  refine Prod.ext ?_ (vectorRanks_eq hsame h query limit)
  show ranksOf eligible (E.lexical P'.list query _) = ranksOf eligible (E.lexical P.list query _)
  rw [ranksOf_visiblePages user h, ranksOf_visiblePages user h (E.lexical P.list _ _)]
  cases hquery : isBlank query with
  | true => simp [lexical, hquery]
  | false =>
      rw [visiblePages_lexical _ _ hquery, visiblePages_lexical _ _ hquery, hsame]
      congr 1
      refine insertionSort_congr fun p hp q hq => ?_
      obtain ⟨hp, hfindsp⟩ := List.mem_filter.mp hp
      obtain ⟨hq, hfindsq⟩ := List.mem_filter.mp hq
      exact hE P' hsame query hquery p hp q hq hfindsp hfindsq

/-- The review flags read the kept pages under the keys that were served. -/
theorem reviewFlags_eq {pages pages' : List KnowledgePage} {hits : List Hit}
    {caveats : List Caveat}
    (hget : ∀ key, SharedKey key → (byDocKey pages').get key = (byDocKey pages).get key)
    (hhits : ∀ h ∈ hits, SharedKey (h.scope.value ++ ":" ++ h.page))
    (hcaveats : ∀ c ∈ caveats, SharedKey (c.scope.value ++ ":" ++ c.page)) :
    E.reviewFlags pages' hits caveats = E.reviewFlags pages hits caveats := by
  unfold reviewFlags
  cases E.entityIndex with
  | none => rfl
  | some current =>
      refine List.filterMap_congr fun key hkey => ?_
      have hmem := List.mem_dedup.mp (List.mem_reverse.mp hkey)
      have hshared : SharedKey key := by
        rcases List.mem_append.mp (List.mem_reverse.mp hmem) with h | h
        · obtain ⟨hit, hhit, rfl⟩ := List.mem_map.mp h
          exact hhits hit hhit
        · obtain ⟨caveat, hcaveat, rfl⟩ := List.mem_map.mp h
          exact hcaveats caveat hcaveat
      rw [hget key hshared]

/-- What a search fuses is visible, when no visible page is the user's. -/
theorem mem_visible_of_fuse {pages : List KnowledgePage} {o : SearchOptions} {pool : ℕ}
    (hshared : ∀ p ∈ visiblePages user pages, p.owner = none) {r : Ranked}
    (h : r ∈ E.fuse pages (E.armRanks pages o.query
      (((visiblePages user pages).filter o.passes).map (·.docKey)) pool)) :
    r.page ∈ visiblePages user pages := by
  obtain ⟨hkey, hget⟩ := mem_fuse h
  have hs := sharedKey_of_eligible hshared o r.key (mem_armRanks hkey)
  rw [get_byDocKey hs user] at hget
  exact (mem_byDocKey hget).1

/-- A search sees nothing of the pages that are not visible, when no visible page is the user's. -/
theorem search_eq {P P' : Pages} (hE : E.RanksAlike P user)
    (hsame : visiblePages user P'.list = visiblePages user P.list)
    (hshared : ∀ p ∈ visiblePages user P.list, p.owner = none) (o : SearchOptions) :
    E.search P'.list user o = E.search P.list user o := by
  have hget : ∀ key, SharedKey key →
      (byDocKey P'.list).get key = (byDocKey P.list).get key := by
    intro key hkey
    rw [get_byDocKey hkey user, hsame, ← get_byDocKey hkey user]
  have hkeys := sharedKey_of_eligible hshared o
  have hranks := armRanks_eq hE hsame hkeys o.query o.limit
  have hfuse : E.fuse P'.list (E.armRanks P.list o.query
      (((visiblePages user P.list).filter o.passes).map (·.docKey)) (max o.limit P.list.length)) =
      E.fuse P.list (E.armRanks P.list o.query
        (((visiblePages user P.list).filter o.passes).map (·.docKey))
        (max o.limit P.list.length)) := by
    rw [fuse, fuse]
    congr 1
    refine List.filterMap_congr fun key hkey => ?_
    rw [hget key (hkeys key (mem_armRanks (List.mem_dedup.mp hkey)))]
  simp only [search, hsame, hranks, hfuse]
  congr 1
  refine reviewFlags_eq hget (fun h hh => ?_) fun c hc => ?_
  · obtain ⟨r, hr, rfl⟩ := mem_buildHits hh
    exact ⟨r.page, hshared _ (mem_visible_of_fuse hshared hr), rfl⟩
  · obtain ⟨p, hp, hid, hscope, -⟩ := mem_surfaceCaveats hc
    exact ⟨p, hshared p hp, by rw [hid, hscope, KnowledgePage.docKey]⟩

end SearchEngine

/-! ## Reading -/

theorem KnowledgePage.parts_lt {p q : KnowledgePage} (hp : p.owner = none) {user : String}
    (hq : q.owner = some user) : p.parts < q.parts := by
  simp only [KnowledgePage.parts, hp, hq, List.cons_append]
  exact List.cons_lt_cons_iff.mpr (Or.inl (by decide))

/-- Of the pages of one name, a shared one comes first. -/
theorem readKnowledgePage_shared {P : Pages} (user : String) {p : KnowledgePage}
    (hp : p ∈ P.list) (howner : p.owner = none) :
    ∃ q, readKnowledgePage P.list user p.id = .ok q ∧ q ∈ P.list ∧ q.owner = none ∧
      q.id = p.id ∧ P.list.find? (fun r => r.id = p.id) = some q := by
  cases hfind : P.list.find? fun r => r.id = p.id with
  | none =>
      have hno := List.find?_eq_none.mp hfind p hp
      simp at hno
  | some q =>
      have hqid : q.id = p.id := by simpa using List.find?_some hfind
      have hq := List.mem_of_find?_eq_some hfind
      have hqowner : q.owner = none := by
        by_contra hne
        obtain ⟨u, hu⟩ := Option.ne_none_iff_exists'.mp hne
        -- then the shared page would stand before the first page of the name
        obtain ⟨-, before, after, hlist, hbefore⟩ := List.find?_eq_some_iff_append.mp hfind
        have hlt := KnowledgePage.parts_lt howner hu
        rw [hlist] at hp
        rcases List.mem_append.mp hp with hmem | hmem
        · have hno := hbefore p hmem
          simp at hno
        · have hsorted := P.sorted
          rw [hlist, List.pairwise_append] at hsorted
          rcases List.mem_cons.mp hmem with rfl | hmem
          · simp [hu] at howner
          · exact absurd ((List.pairwise_cons.mp hsorted.2.1).1 p hmem) (lt_asymm hlt)
      refine ⟨q, ?_, hq, hqowner, hqid, rfl⟩
      rw [readKnowledgePage, hfind]
      simp [KnowledgePage.visibleTo_iff.mpr (Or.inl hqowner)]

/-- Reading gives the first visible page of the name, when no visible page is the user's. -/
theorem toOption_readKnowledgePage {P : Pages} {user : String}
    (hshared : ∀ p ∈ visiblePages user P.list, p.owner = none) (name : String) :
    (readKnowledgePage P.list user name).toOption =
      (visiblePages user P.list).find? fun p => p.id = name := by
  rw [visiblePages, List.find?_filter]
  by_cases hex : ∃ p ∈ P.list, p.owner = none ∧ p.id = name
  · obtain ⟨p, hp, howner, rfl⟩ := hex
    obtain ⟨q, hread, hq, hqowner, hqid, hfind⟩ :=
      readKnowledgePage_shared user hp howner
    obtain ⟨-, before, after, hlist, hbefore⟩ := List.find?_eq_some_iff_append.mp hfind
    rw [hread]
    refine (List.find?_eq_some_iff_append.mpr ⟨?_, before, after, hlist, fun r hr => ?_⟩).symm
    · simp [KnowledgePage.visibleTo_iff.mpr (Or.inl hqowner), hqid]
    · have hno := hbefore r hr
      simp only [Bool.not_eq_true', decide_eq_false_iff_not] at hno
      simp [hno]
  · have hnone : (P.list.find? fun p =>
        decide (p.visibleTo user = true ∧ decide (p.id = name) = true)) = none := by
      refine List.find?_eq_none.mpr fun p hp hvis => hex ⟨p, hp, ?_⟩
      simp only [decide_eq_true_eq] at hvis
      exact ⟨hshared p (List.mem_filter.mpr ⟨hp, hvis.1⟩), hvis.2⟩
    rw [hnone, readKnowledgePage]
    cases hfind : P.list.find? fun p => p.id = name with
    | none => rfl
    | some q =>
        have hqid : q.id = name := by simpa using List.find?_some hfind
        have hq := List.mem_of_find?_eq_some hfind
        have hinv : q.visibleTo user = false := by
          by_contra hvis
          refine hex ⟨q, hq, hshared q (List.mem_filter.mpr ⟨hq, ?_⟩), hqid⟩
          simpa using hvis
        simp only [hinv]
        rfl

/-- A user without pages is isolated. -/
theorem isolated_of_no_pages {E : SearchEngine} {P : Pages} {user : String}
    (hE : E.RanksAlike P user) (h : ∀ p ∈ P.list, p.owner ≠ some user) : Isolated E P user := by
  have hshared : ∀ p ∈ visiblePages user P.list, p.owner = none := by
    intro p hp
    obtain ⟨hmem, hor⟩ := mem_visiblePages.mp hp
    exact hor.resolve_right (h p hmem)
  constructor
  · intro o hit hhit
    obtain ⟨r, hr, rfl⟩ := SearchEngine.mem_buildHits hhit
    refine ⟨⟨r.page, SearchEngine.mem_visible_of_fuse hshared hr, rfl, rfl, rfl, rfl, rfl⟩, ?_⟩
    intro a ha
    by_cases hscope : r.page.scope = .shared
    · simp only [SearchEngine.hitOf, if_pos hscope] at ha
      exact SearchEngine.mem_annotationsFor ha
    · simp only [SearchEngine.hitOf, if_neg hscope] at ha
      cases ha
  · exact fun o c hc => SearchEngine.mem_surfaceCaveats hc
  · rintro name ⟨p, hp, rfl⟩
    obtain ⟨q, hread, hq, hqowner, hqid, -⟩ :=
      readKnowledgePage_shared user (mem_visiblePages.mp hp).1 (hshared p hp)
    exact ⟨q, mem_visiblePages.mpr ⟨hq, Or.inl hqowner⟩, hqid, hread⟩
  · exact fun P' hsame o => SearchEngine.search_eq hE hsame hshared o
  · intro P' hsame name
    have hshared' : ∀ p ∈ visiblePages user P'.list, p.owner = none := by
      rw [hsame]
      exact hshared
    rw [toOption_readKnowledgePage hshared', toOption_readKnowledgePage hshared, hsame]

/-! ## The order of two shared pages -/

/-- Setting new keys one after the other adds them in order. -/
theorem foldl_set_eq {α : Type} {l d : Dict α} (hl : (l.map (·.1)).Nodup)
    (hd : ∀ p ∈ l, p.1 ∉ d.map (·.1)) : l.foldl (fun d p => d.set p.1 p.2) d = d ++ l := by
  induction l generalizing d with
  | nil => simp
  | cons p l ih =>
      rw [List.map_cons, List.nodup_cons] at hl
      have hset : d.set p.1 p.2 = d ++ [p] := by
        have hnew : ¬ d.has p.1 = true := by
          rw [Dict.has_iff]
          exact hd p List.mem_cons_self
        rw [Dict.set, if_neg hnew]
      rw [List.foldl_cons, hset, ih hl.2, List.append_assoc, List.singleton_append]
      intro q hq hmem
      rw [List.map_append, List.mem_append] at hmem
      rcases hmem with hmem | hmem
      · exact hd q (List.mem_cons_of_mem p hq) hmem
      · rw [List.map_singleton, List.mem_singleton] at hmem
        exact hl.1 (hmem ▸ List.mem_map_of_mem hq)

/-- The order of pages is the order of their places in a sorted list. -/
theorem outranks_iff_idxOf {score : KnowledgePage → ℚ} {docs : List KnowledgePage}
    (hdocs : docs.Pairwise (Outranks score)) (hids : (docs.map (·.id)).Nodup)
    {p q : KnowledgePage} (hp : p ∈ docs) (hq : q ∈ docs) :
    Outranks score p q ↔ docs.idxOf p ≤ docs.idxOf q := by
  have hbefore : ∀ {a b : KnowledgePage}, a ∈ docs → b ∈ docs → docs.idxOf a < docs.idxOf b →
      Outranks score a b := by
    intro a b ha hb hlt
    have hget := List.pairwise_iff_getElem.mp hdocs _ _ (List.idxOf_lt_length_of_mem ha)
      (List.idxOf_lt_length_of_mem hb) hlt
    rwa [List.getElem_idxOf, List.getElem_idxOf] at hget
  constructor
  · intro h
    by_contra hle
    have hqp := hbefore hq hp (not_le.mp hle)
    have hid : p.id = q.id := by
      rcases h with h | ⟨heq, hid⟩ <;> rcases hqp with h' | ⟨heq', hid'⟩
      · exact absurd h (lt_asymm h')
      · exact absurd h (heq' ▸ lt_irrefl _)
      · exact absurd h' (heq ▸ lt_irrefl _)
      · exact le_antisymm hid hid'
    have hpq := List.inj_on_of_nodup_map hids hp hq hid
    exact hle (hpq ▸ le_rfl)
  · intro h
    rcases lt_or_eq_of_le h with hlt | heq
    · exact hbefore hp hq hlt
    · have hpq : p = q := (List.idxOf_inj hp).mp heq
      exact Or.inr ⟨hpq ▸ rfl, hpq ▸ le_rfl⟩

namespace SearchEngine

variable {E : SearchEngine} {user : String}

/-- Pages with keys of their own are ranked by their places. -/
theorem get_ranksOf {eligible : List String} {docs : List KnowledgePage}
    (hkeys : (docs.map (·.docKey)).Nodup) (heligible : ∀ p ∈ docs, p.docKey ∈ eligible)
    {p : KnowledgePage} (hp : p ∈ docs) :
    (ranksOf eligible docs).get p.docKey = some (docs.idxOf p) := by
  have hall : (docs.map (·.docKey)).filter (· ∈ eligible) = docs.map (·.docKey) := by
    rw [List.filter_eq_self]
    intro key hkey
    obtain ⟨q, hq, rfl⟩ := List.mem_map.mp hkey
    exact decide_eq_true (heligible q hq)
  have hnodup : ((docs.map (·.docKey)).zipIdx.map (·.1)).Nodup := by
    rwa [List.zipIdx_map_fst]
  rw [ranksOf, hall, foldl_set_eq hnodup (by simp), List.nil_append]
  refine Dict.get_of_mem hnodup (List.mem_zipIdx_iff_getElem?.mpr ?_)
  rw [List.getElem?_map, List.getElem?_idxOf hp]
  rfl

theorem fuse_score {pages : List KnowledgePage} {ranks : Dict ℕ × Dict ℕ} {r : Ranked}
    (h : r ∈ E.fuse pages ranks) : r.score = E.contribution .lexical (ranks.1.get r.key) +
      E.contribution .vector (ranks.2.get r.key) := by
  rw [fuse, List.mem_insertionSort] at h
  obtain ⟨key, -, hr⟩ := List.mem_filterMap.mp h
  obtain ⟨page, -, rfl⟩ := Option.map_eq_some_iff.mp hr
  rfl

/-- A key with a rank is fused with the page kept under it. -/
theorem exists_mem_fuse {pages : List KnowledgePage} {ranks : Dict ℕ × Dict ℕ} {key : String}
    {page : KnowledgePage} {n : ℕ} (hrank : ranks.1.get key = some n)
    (hget : (byDocKey pages).get key = some page) :
    ∃ r ∈ E.fuse pages ranks, r.key = key ∧ r.page = page := by
  refine ⟨{ key, page, score := E.contribution .lexical (ranks.1.get key) +
    E.contribution .vector (ranks.2.get key) }, ?_, rfl, rfl⟩
  rw [fuse, List.mem_insertionSort]
  refine List.mem_filterMap.mpr ⟨key, ?_, ?_⟩
  · rw [List.mem_dedup, List.map_append, List.mem_append]
    exact Or.inl (List.mem_map_of_mem (Dict.get_eq_some_mem hrank))
  · rw [hget, Option.map_some]

/-- Different ranks contribute differently. -/
theorem contribution_inj (hw : E.weight .lexical ≠ 0) {m n : ℕ}
    (h : E.contribution .lexical (some m) = E.contribution .lexical (some n)) : m = n := by
  rw [contribution, contribution, div_eq_mul_inv, div_eq_mul_inv] at h
  have hinv := inv_injective (mul_left_cancel₀ hw h)
  exact_mod_cast add_left_cancel hinv

/-- A fused key of a shared page is a hit, when the limit leaves none out. -/
theorem hitOf_mem_buildHits {ranked : List Ranked} {ranks : Dict ℕ × Dict ℕ}
    {visible : List KnowledgePage} {limit : ℕ} {r : Ranked} (hr : r ∈ ranked)
    (hscope : r.page.scope = .shared) (hlimit : ranked.length ≤ limit) :
    hitOf ranks visible r ∈ buildHits ranked ranks visible limit := by
  refine List.mem_map_of_mem ?_
  rw [List.take_of_length_le (le_trans (List.length_filter_le _ _) hlimit)]
  exact List.mem_filter.mpr ⟨hr, by simp [hscope]⟩

/-! The places of the shared pages in the results of an unfiltered search. -/

section Places

variable {P : Pages} {query : String}

/-- The keys of an unfiltered search. -/
def openKeys (P : Pages) (user : String) : List String :=
  (visiblePages user P.list).map (·.docKey)

/-- The visible pages that a query finds, best first. -/
def found (E : SearchEngine) (P : Pages) (user query : String) : List KnowledgePage :=
  ((visiblePages user P.list).filter (E.finds query)).insertionSort
    (Outranks (E.bm25 P.list query))

theorem mem_found {p : KnowledgePage} :
    p ∈ E.found P user query ↔ p ∈ visiblePages user P.list ∧ E.finds query p = true := by
  rw [found, List.mem_insertionSort, List.mem_filter]

theorem nodup_ids_found (hids : ((visiblePages user P.list).map (·.id)).Nodup) :
    ((E.found P user query).map (·.id)).Nodup := by
  have hperm := (List.perm_insertionSort (Outranks (E.bm25 P.list query))
    ((visiblePages user P.list).filter (E.finds query))).map (·.id)
  rw [found, hperm.nodup_iff]
  exact hids.sublist (List.filter_sublist.map _)

theorem docKey_inj {p q : KnowledgePage} (h : p.docKey = q.docKey) : p.id = q.id := by
  have hscope := KnowledgePage.scope_eq_of_docKey h
  unfold KnowledgePage.docKey at h
  rw [hscope] at h
  exact (String.append_right_inj _).mp h

/-- The lexical rank of a shared page is its place. -/
theorem get_lexicalRanks (hids : ((visiblePages user P.list).map (·.id)).Nodup)
    (hshared : ∀ p ∈ visiblePages user P.list, p.owner = none) (hquery : isBlank query = false)
    {limit : ℕ} {p : KnowledgePage} (hp : p ∈ E.found P user query) :
    (E.armRanks P.list query (openKeys P user) (max limit P.list.length)).1.get p.docKey =
      some ((E.found P user query).idxOf p) := by
  have hkeys : ((E.found P user query).map (·.docKey)).Nodup := by
    have hinj : ((E.found P user query).map (·.id)).Nodup := nodup_ids_found hids
    rw [List.Nodup, List.pairwise_map] at hinj ⊢
    exact hinj.imp fun hne heq => hne (docKey_inj heq)
  have hopen : ∀ key ∈ openKeys P user, SharedKey key := by
    intro key hkey
    obtain ⟨q, hq, rfl⟩ := List.mem_map.mp hkey
    exact ⟨q, hshared q hq, rfl⟩
  show (ranksOf (openKeys P user) (E.lexical P.list query _)).get p.docKey = _
  rw [ranksOf_visiblePages user hopen, visiblePages_lexical user P.list hquery]
  exact get_ranksOf hkeys (fun q hq => List.mem_map_of_mem (mem_found.mp hq).1) hp

/-- The page kept under the key of a visible page is that page. -/
theorem get_byDocKey_visible (hids : ((visiblePages user P.list).map (·.id)).Nodup)
    (hshared : ∀ p ∈ visiblePages user P.list, p.owner = none) {p : KnowledgePage}
    (hp : p ∈ visiblePages user P.list) : (byDocKey P.list).get p.docKey = some p := by
  rw [get_byDocKey ⟨p, hshared p hp, rfl⟩ user]
  have hmem : p.docKey ∈ (byDocKey (visiblePages user P.list)).map (·.1) := by
    by_contra hno
    have hnone : (byDocKey (visiblePages user P.list)).get p.docKey = none := by
      cases hget : (byDocKey (visiblePages user P.list)).get p.docKey with
      | none => rfl
      | some q => exact absurd (List.mem_map_of_mem (Dict.get_eq_some_mem hget)) hno
    rw [byDocKey, Dict.get_indexBy, List.getLast?_eq_none_iff, List.filter_eq_nil_iff] at hnone
    exact absurd (by simp) (hnone p hp)
  obtain ⟨q, hq⟩ := Dict.get_isSome_of_mem hmem
  obtain ⟨hqmem, hqkey⟩ := mem_byDocKey hq
  rw [hq, List.inj_on_of_nodup_map hids hqmem hp (docKey_inj hqkey)]

/-- The ranks of an unfiltered search that shows every visible page. -/
def openRanks (E : SearchEngine) (P : Pages) (user query : String) : Dict ℕ × Dict ℕ :=
  E.armRanks P.list query (openKeys P user) (max (openKeys P user).length P.list.length)

theorem hits_open : (E.search P.list user { query, limit := (openKeys P user).length }).hits =
    buildHits (E.fuse P.list (E.openRanks P user query)) (E.openRanks P user query)
      (visiblePages user P.list) (openKeys P user).length := by
  have hall : (visiblePages user P.list).filter
      (SearchOptions.passes { query, limit := (openKeys P user).length }) =
        visiblePages user P.list :=
    List.filter_eq_self.mpr fun p _ => rfl
  rw [search, hall]
  rfl

theorem length_fuse_le :
    (E.fuse P.list (E.openRanks P user query)).length ≤ (openKeys P user).length := by
  rw [fuse, List.length_insertionSort]
  refine le_trans (List.length_filterMap_le _ _) ?_
  refine ((List.nodup_dedup _).subperm fun key hkey => ?_).length_le
  exact mem_armRanks (List.mem_dedup.mp hkey)

/-- Where the results are the same, a shared page keeps its place. -/
theorem idxOf_found_eq (hw : E.weight .lexical ≠ 0)
    (hids : ((visiblePages user P.list).map (·.id)).Nodup)
    (hshared : ∀ p ∈ visiblePages user P.list, p.owner = none) {P' : Pages}
    (hsame : visiblePages user P'.list = visiblePages user P.list)
    (hres : ∀ o, E.search P'.list user o = E.search P.list user o)
    (hquery : isBlank query = false) {p : KnowledgePage} (hp : p ∈ E.found P user query) :
    (E.found P' user query).idxOf p = (E.found P user query).idxOf p := by
  have hids' := hsame ▸ hids
  have hshared' := hsame ▸ hshared
  have hopen : openKeys P' user = openKeys P user := by rw [openKeys, hsame, openKeys]
  have hvis := (mem_found.mp hp).1
  have hp' : p ∈ E.found P' user query := by
    rw [mem_found, hsame]
    exact mem_found.mp hp
  have hkeys : ∀ key ∈ openKeys P user, SharedKey key := by
    intro key hkey
    obtain ⟨q, hq, rfl⟩ := List.mem_map.mp hkey
    exact ⟨q, hshared q hq, rfl⟩
  -- the hit of `p` in one project is a hit of the other
  obtain ⟨r, hr, hkey, hpage⟩ := exists_mem_fuse (get_lexicalRanks hids hshared hquery hp)
    (get_byDocKey_visible hids hshared hvis)
  have hr : r ∈ E.fuse P.list (E.openRanks P user query) := hr
  have hscope : r.page.scope = .shared :=
    KnowledgePage.scope_shared_iff.mpr (hpage ▸ hshared p hvis)
  have hhit : hitOf (E.openRanks P user query) (visiblePages user P.list) r ∈
      buildHits (E.fuse P.list (E.openRanks P user query)) (E.openRanks P user query)
        (visiblePages user P.list) (openKeys P user).length :=
    hitOf_mem_buildHits hr hscope length_fuse_le
  rw [← hits_open, ← hres, ← hopen, hits_open] at hhit
  obtain ⟨r', hr', heq⟩ := mem_buildHits hhit
  have hid : r.page.id = r'.page.id := congrArg Hit.page heq
  have hscore : r.score = r'.score := congrArg Hit.score heq
  -- which is that of `p`
  obtain ⟨hkeymem', hget'⟩ := mem_fuse hr'
  have hkeymem : r'.key ∈ openKeys P user := hopen ▸ mem_armRanks hkeymem'
  obtain ⟨q, hq, hqkey⟩ := List.mem_map.mp hkeymem
  have hqpage : r'.page = q := by
    rw [← hqkey, get_byDocKey_visible hids' hshared' (hsame.symm ▸ hq)] at hget'
    exact (Option.some.inj hget').symm
  have hqp : q = p := List.inj_on_of_nodup_map hids hq hvis (by rw [← hqpage, ← hid, hpage])
  rw [hqp] at hqkey
  -- the vector arm adds the same to both scores
  have hvector : (E.openRanks P' user query).2 = (E.openRanks P user query).2 := by
    rw [openRanks, openRanks, hopen]
    exact vectorRanks_eq hsame hkeys query _
  rw [fuse_score hr, fuse_score hr', hkey, ← hqkey, hvector] at hscore
  have hlexical := add_right_cancel hscore
  rw [openRanks, openRanks, get_lexicalRanks hids hshared hquery hp, hopen] at hlexical
  have hrank' : (E.armRanks P'.list query (openKeys P' user)
      (max (openKeys P' user).length P'.list.length)).1.get p.docKey =
        some ((E.found P' user query).idxOf p) := get_lexicalRanks hids' hshared' hquery hp'
  rw [hopen] at hrank'
  rw [hrank'] at hlexical
  exact (contribution_inj hw hlexical).symm

/-- Where the results are the same, the index orders the shared pages alike. -/
theorem ranksAlike_of_search_same (hw : E.weight .lexical ≠ 0)
    (hids : ((visiblePages user P.list).map (·.id)).Nodup)
    (hshared : ∀ p ∈ visiblePages user P.list, p.owner = none)
    (hres : ∀ P' : Pages, visiblePages user P'.list = visiblePages user P.list →
      ∀ o, E.search P'.list user o = E.search P.list user o) : E.RanksAlike P user := by
  intro P' hsame query hquery p hp q hq hfindsp hfindsq
  have hp : p ∈ E.found P user query := mem_found.mpr ⟨hp, hfindsp⟩
  have hq : q ∈ E.found P user query := mem_found.mpr ⟨hq, hfindsq⟩
  have hp' : p ∈ E.found P' user query := by rwa [mem_found, hsame, ← mem_found]
  have hq' : q ∈ E.found P' user query := by rwa [mem_found, hsame, ← mem_found]
  have hplace := fun {a} => idxOf_found_eq (p := a) hw hids hshared hsame (hres P' hsame) hquery
  rw [outranks_iff_idxOf (List.pairwise_insertionSort _ _) (nodup_ids_found (hsame ▸ hids)) hp' hq',
    outranks_iff_idxOf (List.pairwise_insertionSort _ _) (nodup_ids_found hids) hp hq]
  show (E.found P' user query).idxOf p ≤ (E.found P' user query).idxOf q ↔ _
  rw [hplace hp, hplace hq]
  rfl

end Places

end SearchEngine

/-! ## A page of the same name -/

theorem exists_fresh (owners : List String) : ∃ v : String, v ∉ owners := by
  have hinf : Infinite String := Infinite.of_injective String.ofList fun _ _ h =>
    String.ofList_injective h
  obtain ⟨v, hv⟩ := Infinite.exists_notMem_finset owners.toFinset
  exact ⟨v, fun h => hv (List.mem_toFinset.mpr h)⟩

theorem filter_lt_append {pages : List KnowledgePage}
    (h : pages.Pairwise fun p q => p.parts < q.parts) {o : KnowledgePage}
    (hne : ∀ p ∈ pages, p.parts ≠ o.parts) :
    (pages.filter fun p => p.parts < o.parts) ++ (pages.filter fun p => o.parts < p.parts) =
      pages := by
  induction pages with
  | nil => rfl
  | cons p pages ih =>
      rw [List.pairwise_cons] at h
      rw [List.filter_cons, List.filter_cons]
      rcases lt_or_gt_of_ne (hne p List.mem_cons_self) with hlt | hgt
      · rw [if_pos (by simpa using hlt), if_neg (by simpa using le_of_lt hlt), List.cons_append,
          ih h.2 fun q hq => hne q (List.mem_cons_of_mem p hq)]
      · have hall : ∀ q ∈ pages, o.parts < q.parts := fun q hq => lt_trans hgt (h.1 q hq)
        have hnil : (pages.filter fun p => p.parts < o.parts) = [] := by
          rw [List.filter_eq_nil_iff]
          intro q hq
          simpa using le_of_lt (hall q hq)
        have hself : (pages.filter fun p => o.parts < p.parts) = pages := by
          rw [List.filter_eq_self]
          intro q hq
          simpa using hall q hq
        rw [if_neg (by simpa using le_of_lt hgt), if_pos (by simpa using hgt), hnil, hself,
          List.nil_append]

/-- A project with one more page. -/
def Pages.insert (P : Pages) (o : KnowledgePage) : Pages where
  list := (P.list.filter fun p => p.parts < o.parts) ++
    o :: P.list.filter fun p => o.parts < p.parts
  sorted := by
    rw [List.pairwise_append, List.pairwise_cons]
    refine ⟨P.sorted.filter _, ⟨fun q hq => ?_, P.sorted.filter _⟩, fun p hp q hq => ?_⟩
    · simpa using (List.mem_filter.mp hq).2
    · have hpo : p.parts < o.parts := by simpa using (List.mem_filter.mp hp).2
      rcases List.mem_cons.mp hq with rfl | hq
      · exact hpo
      · have hoq : o.parts < q.parts := by simpa using (List.mem_filter.mp hq).2
        exact lt_trans hpo hoq

/-- A page of someone else does not change what is visible. -/
theorem visiblePages_insert {P : Pages} {o : KnowledgePage} {user : String}
    (ho : o.visibleTo user = false) (hne : ∀ p ∈ P.list, p.parts ≠ o.parts) :
    visiblePages user (P.insert o).list = visiblePages user P.list := by
  have hsplit := filter_lt_append P.sorted hne
  unfold visiblePages Pages.insert
  rw [List.filter_append, List.filter_cons, if_neg (by simp [ho]), ← List.filter_append, hsplit]

/-- The page `owner` adds under the name of another page. -/
def namesake (owner : String) (p : KnowledgePage) : KnowledgePage :=
  { owner := some owner, id := p.id }

theorem namesake_parts_ne {v : String} {p q : KnowledgePage} (h : q.owner ≠ some v) :
    q.parts ≠ (namesake v p).parts := by
  intro heq
  unfold KnowledgePage.parts namesake at heq
  cases hq : q.owner with
  | none => simp [hq] at heq
  | some w =>
      simp only [hq, List.cons_append, List.cons.injEq] at heq
      exact h (by rw [hq, heq.2.1])

/-- An engine that finds the pages of one owner, whatever the query, and scores them alike. -/
def ownerEngine (owner : String) : SearchEngine where
  finds _ p := p.owner = some owner
  bm25 _ _ _ := 0
  cosine := none
  entityIndex := none
  rrfK := 60
  weight _ := 1

theorem ownerEngine_ranksAlike (v : String) (P : Pages) (user : String) :
    (ownerEngine v).RanksAlike P user :=
  fun _ _ _ _ _ _ _ _ _ _ => Iff.rfl

theorem ownerEngine_lexical {pages docs : List KnowledgePage} {v : String} {limit : ℕ}
    (hdocs : (pages.filter fun p => p.owner = some v) = docs) (hone : docs.length ≤ 1)
    (hlimit : 1 ≤ limit) : (ownerEngine v).lexical pages "notes" limit = docs := by
  have hblank : ¬ isBlank "notes" = true := by decide
  rw [SearchEngine.lexical, if_neg hblank]
  show ((pages.filter fun p => p.owner = some v).insertionSort _).take limit = docs
  rw [hdocs, List.take_of_length_le (by rw [List.length_insertionSort]; omega)]
  rcases docs with _ | ⟨d, _ | ⟨d', docs⟩⟩
  · rfl
  · rfl
  · simp at hone

/-- A page under an eligible key of the user is a hit when the engine ranks it alone. -/
theorem hits_ownerEngine {pages : List KnowledgePage} {v user : String} {p o : KnowledgePage}
    (hp : p ∈ pages) (hown : p.owner = some user) (hkey : p.docKey = o.docKey)
    (hdocs : (pages.filter fun p => p.owner = some v) = [o]) :
    ((ownerEngine v).search pages user { query := "notes", limit := 1 }).hits ≠ [] := by
  have hvis : p ∈ visiblePages user pages := mem_visiblePages.mpr ⟨hp, Or.inr hown⟩
  have helig : o.docKey ∈ ((visiblePages user pages).filter
      (SearchOptions.passes { query := "notes", limit := 1 })).map (·.docKey) := by
    rw [← hkey]
    exact List.mem_map_of_mem (List.mem_filter.mpr ⟨hvis, rfl⟩)
  -- the engine keeps some page of the user's scope under the key
  have hget : ∃ page, (SearchEngine.byDocKey pages).get o.docKey = some page := by
    cases hg : (SearchEngine.byDocKey pages).get o.docKey with
    | some page => exact ⟨page, rfl⟩
    | none =>
        rw [SearchEngine.byDocKey, Dict.get_indexBy, List.getLast?_eq_none_iff,
          List.filter_eq_nil_iff] at hg
        exact absurd (by simpa using hkey) (hg p hp)
  obtain ⟨page, hget⟩ := hget
  have hscope : page.scope = .user := by
    have hpage : page.docKey = p.docKey := (SearchEngine.mem_byDocKey hget).2.trans hkey.symm
    rw [KnowledgePage.scope_eq_of_docKey hpage, KnowledgePage.scope, hown]
  have harm : (ownerEngine v).armRanks pages "notes"
      (((visiblePages user pages).filter
        (SearchOptions.passes { query := "notes", limit := 1 })).map (·.docKey))
      (max 1 pages.length) = ([(o.docKey, 0)], []) := by
    have hmem : ([o].map (·.docKey)).filter (· ∈ ((visiblePages user pages).filter
        (SearchOptions.passes { query := "notes", limit := 1 })).map (·.docKey)) =
          [o.docKey] := by
      rw [List.map_singleton, List.filter_cons, if_pos (decide_eq_true helig), List.filter_nil]
    rw [SearchEngine.armRanks, ownerEngine_lexical hdocs le_rfl (le_max_left _ _),
      SearchEngine.ranksOf, hmem]
    rfl
  have hdedup : [o.docKey].dedup = [o.docKey] := List.dedup_eq_self.mpr (List.nodup_singleton _)
  simp only [SearchEngine.search, harm, SearchEngine.fuse, List.append_nil, List.map_singleton,
    hdedup, List.filterMap_cons, hget, Option.map_some, List.filterMap_nil,
    List.insertionSort_cons, List.insertionSort_nil, List.orderedInsert_nil]
  simp [SearchEngine.buildHits, hscope]

theorem insert_docs {P : Pages} {o : KnowledgePage} {v : String} (ho : o.owner = some v)
    (hfresh : ∀ p ∈ P.list, p.owner ≠ some v) :
    ((P.insert o).list.filter fun p => p.owner = some v) = [o] := by
  have hnone : ∀ test : KnowledgePage → Bool,
      ((P.list.filter test).filter fun p => p.owner = some v) = [] := by
    intro test
    rw [List.filter_eq_nil_iff]
    intro p hp
    simpa using hfresh p (List.mem_filter.mp hp).1
  simp only [Pages.insert, List.filter_append, List.filter_cons, hnone, ho, decide_true, if_true,
    List.nil_append]

/-- A user who owns a page is not isolated: another user can add a page under its key. -/
theorem not_isolated {P : Pages} {user : String} {p : KnowledgePage} (hp : p ∈ P.list)
    (hown : p.owner = some user) :
    ∃ E : SearchEngine, E.RanksAlike P user ∧ ¬ Isolated E P user := by
  obtain ⟨v, hv⟩ := exists_fresh (user :: P.list.filterMap (·.owner))
  have hne : v ≠ user := fun heq => hv (heq ▸ List.mem_cons_self)
  have hfresh : ∀ q ∈ P.list, q.owner ≠ some v := fun q hq hqv =>
    hv (List.mem_cons_of_mem _ (List.mem_filterMap.mpr ⟨q, hq, hqv⟩))
  have hparts : ∀ q ∈ P.list, q.parts ≠ (namesake v p).parts := fun q hq =>
    namesake_parts_ne (hfresh q hq)
  refine ⟨ownerEngine v, ownerEngine_ranksAlike v P user, fun hiso => ?_⟩
  have hinv : (namesake v p).visibleTo user = false := by
    rw [Bool.eq_false_iff]
    intro hvis
    rcases KnowledgePage.visibleTo_iff.mp hvis with h | h
    · cases h
    · exact hne (Option.some.inj h)
  have hsame := hiso.search_same (P.insert (namesake v p)) (visiblePages_insert hinv hparts)
    { query := "notes", limit := 1 }
  -- without the page of `v` the engine finds nothing
  have hempty :
      ((ownerEngine v).search P.list user { query := "notes", limit := 1 }).hits = [] := by
    have hdocs : (P.list.filter fun q => q.owner = some v) = [] := by
      rw [List.filter_eq_nil_iff]
      intro q hq
      simpa using hfresh q hq
    rw [SearchEngine.search, SearchEngine.armRanks,
      ownerEngine_lexical hdocs (Nat.zero_le 1) (le_max_left _ _)]
    rfl
  have hmem : p ∈ (P.insert (namesake v p)).list := by
    have hsplit := filter_lt_append P.sorted hparts
    rw [← hsplit] at hp
    rw [Pages.insert, List.mem_append, List.mem_cons]
    rcases List.mem_append.mp hp with h | h
    · exact Or.inl h
    · exact Or.inr (Or.inr h)
  have hkey : p.docKey = (namesake v p).docKey := by
    simp [KnowledgePage.docKey, KnowledgePage.scope, namesake, hown]
  refine hits_ownerEngine hmem hown hkey (insert_docs rfl hfresh) ?_
  rw [hsame, hempty]

/-- **Isolation** holds of the users who own no page, as far as the pages of others do not change
the order in which the one index over all pages ranks the shared ones. -/
theorem isolated_iff (P : Pages) (user : String) :
    ((∀ E : SearchEngine, E.RanksAlike P user → Isolated E P user) ↔
      ∀ p ∈ P.list, p.owner ≠ some user) ∧
      ∀ E : SearchEngine, E.weight .lexical ≠ 0 →
        ((visiblePages user P.list).map (·.id)).Nodup → (∀ p ∈ P.list, p.owner ≠ some user) →
          (Isolated E P user ↔ E.RanksAlike P user) := by
  refine ⟨⟨fun h p hp hown => ?_, fun h E hE => isolated_of_no_pages hE h⟩,
    fun E hw hids h => ⟨fun hiso => ?_, fun hE => isolated_of_no_pages hE h⟩⟩
  · obtain ⟨E, hE, hnot⟩ := not_isolated hp hown
    exact hnot (h E hE)
  · refine SearchEngine.ranksAlike_of_search_same hw hids (fun p hp => ?_) hiso.search_same
    obtain ⟨hmem, hor⟩ := mem_visiblePages.mp hp
    exact hor.resolve_right (h p hmem)

/-! Two users keep a page `notes`: the search of the first one shows the page of the second, which
in turn cannot be read. -/

private def aliceNotes : KnowledgePage :=
  { owner := some "alice", id := "notes", summary := "mine" }

private def bobNotes : KnowledgePage :=
  { owner := some "bob", id := "notes", summary := "his" }

private theorem notes_sorted :
    [aliceNotes, bobNotes].Pairwise fun p q => p.parts < q.parts := by decide

private def bothNotes : Pages := ⟨[aliceNotes, bobNotes], notes_sorted⟩

theorem isolated_counterexample :
    (∃ E : SearchEngine, E.RanksAlike bothNotes "alice" ∧ ¬ Isolated E bothNotes "alice") ∧
      ∃ E : SearchEngine, E.RanksAlike bothNotes "bob" ∧ ¬ Isolated E bothNotes "bob" := by
  constructor
  · refine ⟨ownerEngine "alice", ownerEngine_ranksAlike "alice" bothNotes "alice", fun h => ?_⟩
    obtain ⟨⟨p, hp, hbuilt⟩, -⟩ := h.hits { query := "notes", limit := 1 }
      { page := "notes", scope := .user, score := 1 / 60, summary := "his", matchedOn := [.lexical],
        usageMode := .reference, slRefs := [], annotations := [] } (by decide +kernel)
    have hpage : p = aliceNotes := by
      have : visiblePages "alice" bothNotes.list = [aliceNotes] := by decide
      simpa [this] using hp
    subst hpage
    exact absurd hbuilt.2.2.1 (by decide)
  · refine ⟨ownerEngine "alice", ownerEngine_ranksAlike "alice" bothNotes "bob", fun h => ?_⟩
    have hread := h.readable "notes" ⟨bobNotes, by decide, rfl⟩
    obtain ⟨p, -, -, hp⟩ := hread
    have herr : readKnowledgePage bothNotes.list "bob" "notes" =
        .error (.permission "bob" "notes") := by decide
    rw [herr] at hp
    cases hp

end Canonic
