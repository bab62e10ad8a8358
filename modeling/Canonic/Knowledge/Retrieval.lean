import Canonic.Dict

set_option autoImplicit false

/-! # Knowledge pages and their search

`knowledge/retrieval.py`, `knowledge/scope.py` and the lookup of `read_knowledge_page` in
`core/knowledge.py`. The search engine is built over the pages of all users; what one of them may
see is filtered afterwards, by a key of scope and slug.

What the index of `knowledge/index.py` gets from BM25, and the store of `knowledge/embeddings.py`
from the embedder, are parameters. Scores are exact numbers, and the role's tag filter stands at its
default, which drops no page. -/

namespace Canonic

/-! ## Pages -/

/-- `KnowledgeScope`. -/
inductive KnowledgeScope where
  | shared | user
  deriving DecidableEq, Repr

def KnowledgeScope.value : KnowledgeScope → String
  | shared => "global"
  | user => "user"

/-- `UsageMode`. -/
inductive UsageMode where
  | reference | caveat | policy | definition
  deriving DecidableEq, Repr

/-- `KnowledgePage`. The path below `knowledge/` is `global/…` or `user/<owner>/…`; scope, owner and
id are read off it. -/
structure KnowledgePage where
  owner : Option String
  folders : List String := []
  id : String
  summary : String := ""
  tags : List String := []
  slRefs : List String := []
  usageMode : UsageMode := .reference
  boundFingerprints : Dict String := []
  body : String := ""
  deriving DecidableEq, Repr

namespace KnowledgePage

/-- `scope_from_path`. -/
def scope (p : KnowledgePage) : KnowledgeScope :=
  match p.owner with
  | none => .shared
  | some _ => .user

/-- The parts of the path below `knowledge/`. -/
def parts (p : KnowledgePage) : List String :=
  (match p.owner with
    | none => ["global"]
    | some user => ["user", user]) ++ p.folders ++ [p.id ++ ".md"]

/-- `_doc_key`. -/
def docKey (p : KnowledgePage) : String := p.scope.value ++ ":" ++ p.id

/-- The test of `visible_pages`. -/
def visibleTo (user : String) (p : KnowledgePage) : Bool :=
  p.scope = .shared || p.owner = some user

end KnowledgePage

/-- The pages of a project, in the order of their paths (`sorted(knowledge_root.rglob("*.md"))`). -/
structure Pages where
  list : List KnowledgePage
  sorted : list.Pairwise fun p q => p.parts < q.parts

/-- `visible_pages`. -/
def visiblePages (user : String) (pages : List KnowledgePage) : List KnowledgePage :=
  pages.filter (·.visibleTo user)

/-! ## Results -/

/-- `MatchedOn`. -/
inductive MatchedOn where
  | lexical | vector
  deriving DecidableEq, Repr

structure Annotation where
  page : String
  scope : String
  deriving DecidableEq, Repr

structure Hit where
  page : String
  scope : KnowledgeScope
  score : ℚ
  summary : String
  matchedOn : List MatchedOn
  usageMode : UsageMode
  slRefs : List String
  annotations : List Annotation
  deriving DecidableEq

structure Caveat where
  page : String
  scope : KnowledgeScope
  summary : String
  slRefs : List String
  triggeredBy : List String
  deriving DecidableEq, Repr

structure ReviewFlag where
  page : String
  scope : KnowledgeScope
  driftedRefs : List String
  message : String
  deriving DecidableEq, Repr

structure SearchResult where
  hits : List Hit
  caveats : List Caveat
  reviewFlags : List ReviewFlag
  deriving DecidableEq

/-! ## The engine -/

/-- `_page_text`. -/
def pageText (page : KnowledgePage) : String := page.summary ++ "\n" ++ page.body

/-- The characters that `str.strip` takes off. -/
def isSpace (c : Char) : Bool :=
  (0x9 ≤ c.toNat && c.toNat ≤ 0xd) || (0x1c ≤ c.toNat && c.toNat ≤ 0x20) || c.toNat = 0x85 ||
    c.toNat = 0xa0 || c.toNat = 0x1680 || (0x2000 ≤ c.toNat && c.toNat ≤ 0x200a) ||
    c.toNat = 0x2028 || c.toNat = 0x2029 || c.toNat = 0x202f || c.toNat = 0x205f ||
    c.toNat = 0x3000

def isBlank (query : String) : Bool := query.toList.all isSpace

/-- What `KnowledgeSearch` is built with, next to the pages. -/
structure SearchEngine where
  /-- Whether a page has something of a query in its summary, its tags or its body. -/
  finds : String → KnowledgePage → Bool
  /-- The BM25 score of a page. It counts in how many pages of the index a word occurs. -/
  bm25 : List KnowledgePage → String → KnowledgePage → ℚ
  /-- With an embedder, the cosine of a query and the text of a page. -/
  cosine : Option (String → String → ℚ)
  /-- `EntityIndex.current_fingerprint`, when there is an entity index. -/
  entityIndex : Option (String → Option String)
  rrfK : ℕ
  weight : MatchedOn → ℚ

/-- The order of the candidates of an arm: score first, then page id. -/
def Outranks (score : KnowledgePage → ℚ) (p q : KnowledgePage) : Prop :=
  score q < score p ∨ score p = score q ∧ p.id ≤ q.id

instance (score : KnowledgePage → ℚ) : DecidableRel (Outranks score) := fun p q =>
  inferInstanceAs (Decidable (score q < score p ∨ score p = score q ∧ p.id ≤ q.id))

/-- The arguments of a search. -/
structure SearchOptions where
  query : String
  tags : List String := []
  usageMode : Option UsageMode := none
  limit : ℕ := 10
  maxCaveats : ℕ := 3

/-- `_passes_filters`. -/
def SearchOptions.passes (o : SearchOptions) (p : KnowledgePage) : Bool :=
  (match o.usageMode with
    | none => true
    | some mode => p.usageMode = mode) &&
  (o.tags.isEmpty || o.tags.any fun t => t ∈ p.tags)

namespace SearchEngine

/-- `self._by_doc_key`. -/
def byDocKey (pages : List KnowledgePage) : Dict KnowledgePage :=
  Dict.indexBy KnowledgePage.docKey pages

/-- `KnowledgeIndex.search`. The limit of a search is never below the number of pages, so that the
best candidates are all of them. -/
def lexical (E : SearchEngine) (pages : List KnowledgePage) (query : String) (limit : ℕ) :
    List KnowledgePage :=
  if isBlank query then []
  else ((pages.filter (E.finds query)).insertionSort (Outranks (E.bm25 pages query))).take limit

/-- `VectorStore.search`. -/
def vector (cosine : String → String → ℚ) (pages : List KnowledgePage) (query : String)
    (limit : ℕ) : List KnowledgePage :=
  if isBlank query then []
  else ((pages.filter fun p => 0 < cosine query (pageText p)).insertionSort
    (Outranks fun p => cosine query (pageText p))).take limit

/-- The ranks of one arm over the eligible keys. -/
def ranksOf (eligible : List String) (docs : List KnowledgePage) : Dict ℕ :=
  (((docs.map (·.docKey)).filter (· ∈ eligible)).zipIdx).foldl (fun d p => d.set p.1 p.2) []

/-- `_arm_ranks`, lexical and vector. -/
def armRanks (E : SearchEngine) (pages : List KnowledgePage) (query : String)
    (eligible : List String) (pool : ℕ) : Dict ℕ × Dict ℕ :=
  (ranksOf eligible (E.lexical pages query pool),
    match E.cosine with
    | none => []
    | some cosine => ranksOf eligible (vector cosine pages query pool))

/-- The contribution of one arm to a score. -/
def contribution (E : SearchEngine) (arm : MatchedOn) : Option ℕ → ℚ
  | none => 0
  | some rank => E.weight arm / (E.rrfK + rank)

/-- A fused key, with the page the engine keeps under it. -/
structure Ranked where
  key : String
  page : KnowledgePage
  score : ℚ

/-- The order of the fused keys: score first, then page id. -/
def Ranked.before (a b : Ranked) : Prop :=
  b.score < a.score ∨ a.score = b.score ∧ a.page.id ≤ b.page.id

instance : DecidableRel Ranked.before := fun a b =>
  inferInstanceAs (Decidable (b.score < a.score ∨ a.score = b.score ∧ a.page.id ≤ b.page.id))

/-- `_fuse`. -/
def fuse (E : SearchEngine) (pages : List KnowledgePage) (ranks : Dict ℕ × Dict ℕ) : List Ranked :=
  (((ranks.1 ++ ranks.2).map (·.1)).dedup.filterMap fun key =>
    ((byDocKey pages).get key).map fun page =>
      { key, page,
        score := E.contribution .lexical (ranks.1.get key) +
          E.contribution .vector (ranks.2.get key) }).insertionSort Ranked.before

/-- `_annotations_for`. -/
def annotationsFor (page : KnowledgePage) (visible : List KnowledgePage) : List Annotation :=
  visible.filterMap fun p =>
    match p.owner with
    | none => none
    | some owner => if p.id = page.id then some ⟨p.id, "user:" ++ owner⟩ else none

/-- The hit of a fused key. -/
def hitOf (ranks : Dict ℕ × Dict ℕ) (visible : List KnowledgePage) (r : Ranked) : Hit where
  page := r.page.id
  scope := r.page.scope
  score := r.score
  summary := r.page.summary
  matchedOn := (if ranks.1.has r.key then [.lexical] else []) ++
    if ranks.2.has r.key then [.vector] else []
  usageMode := r.page.usageMode
  slRefs := r.page.slRefs
  annotations := if r.page.scope = .shared then annotationsFor r.page visible else []

/-- `_build_hits`: a page of the user folds into the shared page of its id, when that was ranked. -/
def buildHits (ranked : List Ranked) (ranks : Dict ℕ × Dict ℕ) (visible : List KnowledgePage)
    (limit : ℕ) : List Hit :=
  let globalIds := (ranked.filter fun r => r.page.scope = .shared).map (·.page.id)
  ((ranked.filter fun r => r.page.scope = .shared || r.page.id ∉ globalIds).take limit).map
    (hitOf ranks visible)

/-- `_surface_caveats`. -/
def surfaceCaveats (hits : List Hit) (visible : List KnowledgePage) (maxCaveats : ℕ) :
    List Caveat :=
  let entities := hits.flatMap (·.slRefs)
  let candidates := (visible.insertionSort fun p q => p.id ≤ q.id).filterMap fun p =>
    let triggered := sortedSet (p.slRefs.filter (· ∈ entities))
    if p.usageMode ≠ .caveat ∨ p.id ∈ hits.map (·.page) ∨ triggered = [] then none
    else some ⟨p.id, p.scope, p.summary, p.slRefs, triggered⟩
  candidates.take maxCaveats

/-- `flagged_for_review`. -/
def driftedRefs (current : String → Option String) (p : KnowledgePage) : List String :=
  sortedSet ((p.boundFingerprints.filter fun b =>
    match current b.1 with
    | none => false
    | some fingerprint => fingerprint ≠ b.2).map (·.1))

/-- The text of a review flag. -/
def reviewMessage (drifted : List String) : String :=
  "Prose review needed — referenced measure definition changed: " ++
    String.intercalate ", " drifted ++
    ". The rendered definition auto-updates; only the surrounding prose is flagged stale."

/-- `_review_flags`. -/
def reviewFlags (E : SearchEngine) (pages : List KnowledgePage) (hits : List Hit)
    (caveats : List Caveat) : List ReviewFlag :=
  match E.entityIndex with
  | none => []
  | some current =>
      let served := hits.map (fun h => h.scope.value ++ ":" ++ h.page) ++
        caveats.map fun c => c.scope.value ++ ":" ++ c.page
      served.reverse.dedup.reverse.filterMap fun key =>
        match (byDocKey pages).get key with
        | none => none
        | some p =>
            let drifted := driftedRefs current p
            if drifted = [] then none
            else some ⟨p.id, p.scope, drifted, reviewMessage drifted⟩

/-- `search`. -/
def search (E : SearchEngine) (pages : List KnowledgePage) (user : String) (o : SearchOptions) :
    SearchResult :=
  let visible := visiblePages user pages
  let eligible := (visible.filter o.passes).map (·.docKey)
  let ranks := E.armRanks pages o.query eligible (max o.limit pages.length)
  let hits := buildHits (E.fuse pages ranks) ranks visible o.limit
  let caveats := surfaceCaveats hits visible o.maxCaveats
  ⟨hits, caveats, E.reviewFlags pages hits caveats⟩

end SearchEngine

/-! ## Reading one page -/

/-- Why a page is not read. -/
inductive ReadError where
  | permission (user page : String)
  | notFound (page : String)
  deriving DecidableEq, Repr

/-- The lookup of `read_knowledge_page`: the first page of the name decides. -/
def readKnowledgePage (pages : List KnowledgePage) (user name : String) :
    Except ReadError KnowledgePage :=
  match pages.find? fun p => p.id = name with
  | none => .error (.notFound name)
  | some p => if p.visibleTo user then .ok p else .error (.permission user name)

end Canonic
