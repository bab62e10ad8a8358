import Canonic.Except
import Canonic.Json
import Canonic.Knowledge.Retrieval

set_option autoImplicit false

/-! # The cache of page vectors

`knowledge/vector_cache.py` and `VectorStore.build` of `knowledge/embeddings.py`. The numbers of a
vector are of any type, numpy and the hash are parameters, and a read of the file is its value as
JSON, or the way it fails. The file can be written. -/

namespace Canonic

/-! ## Arrays -/

/-- A numpy array: its shape, and its numbers row by row. -/
structure NdArray (F : Type) where
  shape : List ℕ
  data : List F
  length_data : data.length = shape.prod
  deriving DecidableEq, Repr

/-- An array of one dimension. -/
def NdArray.ofRow {F : Type} (row : List F) : NdArray F := ⟨[row.length], row, by simp⟩

/-- What the cache uses of numpy. -/
structure Numpy (F : Type) where
  /-- `np.asarray(value, dtype=np.float32)` of a value read from JSON. -/
  asarray : Json → Except String (NdArray F)
  /-- `row.tolist()`, as JSON gives it back. -/
  tolist : List F → Json
  /-- A row over its norm, or over one where the norm is zero. -/
  normalize : List F → List F
  /-- A row is read back as it was written. -/
  asarray_tolist : ∀ row, asarray (tolist row) = .ok (.ofRow row)
  length_normalize : ∀ row, (normalize row).length = row.length

/-- The shape of an array without the ones in front, which an assignment ignores. -/
def stripOnes : List ℕ → List ℕ
  | 1 :: n :: shape => stripOnes (n :: shape)
  | shape => shape

/-- `matrix[i] = array` for a row of `dim` numbers: one number fills the row. -/
def NdArray.assignRow {F : Type} (dim : ℕ) (a : NdArray F) : Except String (List F) :=
  match stripOnes a.shape with
  | [n] =>
      if n = dim then .ok a.data
      else
        match a.data with
        | [x] => .ok (List.replicate dim x)
        | _ => .error "ValueError: could not broadcast input array"
  | _ => .error "ValueError: could not broadcast input array"

/-! ## The store -/

/-- An `Embedder` that gives each text a vector of its own, whatever the batch. -/
structure Embedder (F : Type) where
  modelIdentity : String
  dim : ℕ
  embedText : String → List F
  length_embedText : ∀ text, (embedText text).length = dim

structure VectorStore (F : Type) where
  matrix : List (List F)
  docKeys : List String
  ids : List String
  scopes : List KnowledgeScope
  modelIdentity : String
  deriving DecidableEq, Repr

section

variable {F : Type} (np : Numpy F) (e : Embedder F)

/-- The row of a page, embedded and normalized. -/
def Embedder.row (page : KnowledgePage) : List F := np.normalize (e.embedText (pageText page))

/-- The store of some pages with the rows of its matrix. -/
def VectorStore.of (pages : List KnowledgePage) (matrix : List (List F)) : VectorStore F where
  matrix := matrix
  docKeys := pages.map (·.docKey)
  ids := pages.map (·.id)
  scopes := pages.map (·.scope)
  modelIdentity := e.modelIdentity

/-- `VectorStore.build`. -/
def VectorStore.build (pages : List KnowledgePage) : VectorStore F :=
  VectorStore.of e pages (pages.map (e.row np))

end

/-! ## The cache -/

/-- What `json.loads(cache_path.read_text())` makes of the file. -/
inductive CacheFile where
  /-- An `OSError` or a `ValueError`: no file, or not JSON. -/
  | unreadable
  /-- A `RecursionError`: JSON, nested deeper than the parser goes. -/
  | tooDeep
  | json (value : Json)

/-- Whether a value can be the key of a dictionary. -/
def Json.hashable : Json → Bool
  | .arr _ | .obj _ => false
  | _ => true

/-- The entry under the text that it has as its key; a key that is no text is never asked for. -/
def keyedEntry : Json → Option (String × Content)
  | .obj entry =>
      match Dict.get entry "doc_key" with
      | some (.str key) => some (key, entry)
      | _ => none
  | _ => none

/-- Whether an entry has a key that cannot be one. -/
def badKey : Json → Bool
  | .obj entry => ((Dict.get entry "doc_key").map fun key => !key.hashable).getD false
  | _ => false

/-- `by_key` of `_load`, of entries that have no bad key. -/
def entriesByKey (items : List Json) : Dict (String × Content) :=
  Dict.indexBy (·.1) (items.filterMap keyedEntry)

/-- `_load`. -/
def CacheFile.load : CacheFile → Except String (Option Json × Dict (String × Content))
  | .unreadable => .ok (none, [])
  | .tooDeep => .error "RecursionError: maximum recursion depth exceeded"
  | .json (.obj raw) =>
      match Dict.get raw "model_identity", Dict.get raw "entries" with
      | some .null, _ => .ok (none, [])
      | some identity, some (.arr items) =>
          if items.any badKey then .error "TypeError: unhashable type"
          else .ok (some identity, entriesByKey items)
      | _, _ => .ok (none, [])
  | .json _ => .error "AttributeError: object has no attribute 'get'"

section

variable {F : Type} (np : Numpy F) (digest : String → String)

/-- `_fingerprint`. -/
def pageFingerprint (page : KnowledgePage) : String := "sha256:" ++ digest (pageText page)

/-- The cached entry that stands for a page. -/
def cacheHit (cached : Dict (String × Content)) (page : KnowledgePage) : Option Content :=
  match cached.get page.docKey with
  | some (_, entry) =>
      if Dict.get entry "fingerprint" = some (.str (pageFingerprint digest page)) then some entry
      else none
  | none => none

/-- The vector of a page in the first loop of `load_or_build`, if it is reused. -/
def reusedVector (cached : Dict (String × Content)) (page : KnowledgePage) :
    Except String (Option (NdArray F)) :=
  match cacheHit digest cached page with
  | none => .ok none
  | some entry =>
      match Dict.get entry "vector" with
      | none => .error "KeyError: 'vector'"
      | some value => do
          let vec ← np.asarray value
          if vec.shape = [] then .error "IndexError: tuple index out of range" else .ok (some vec)

/-- `dim`: the width of what is embedded, or else of the last vector that is reused. -/
def matrixWidth (e : Embedder F) (vectors : List (Option (NdArray F))) : ℕ :=
  if vectors.any (·.isNone) then e.dim
  else ((vectors.filterMap id).getLast?.bind fun vec => vec.shape.head?).getD 0

/-- The rows of the matrix. -/
def fillMatrix (cached : Dict (String × Content)) (pages : List KnowledgePage) (e : Embedder F) :
    Except String (List (List F)) := do
  let vectors ← pages.mapM (reusedVector np digest cached)
  (pages.zip vectors).mapM fun p =>
    (p.2.getD (.ofRow (e.row np p.1))).assignRow (matrixWidth e vectors)

/-- An entry of `_save`. -/
def savedEntry (p : KnowledgePage × List F) : Content :=
  [("doc_key", .str p.1.docKey), ("id", .str p.1.id), ("scope", .str p.1.scope.value),
    ("fingerprint", .str (pageFingerprint digest p.1)), ("vector", np.tolist p.2)]

/-- `_save`. -/
def savedCache (identity : String) (pages : List KnowledgePage) (matrix : List (List F)) :
    CacheFile :=
  .json (.obj [("model_identity", .str identity),
    ("entries", .arr ((pages.zip matrix).map fun p => .obj (savedEntry np digest p)))])

/-- `cached` of `load_or_build`: entries of another model are dropped. -/
def CacheFile.cachedFor (file : CacheFile) (identity : String) :
    Except String (Dict (String × Content)) := do
  let (cachedIdentity, entries) ← file.load
  return if cachedIdentity = some (.str identity) then entries else []

/-- `load_or_build`: the store, and the file afterwards. -/
def loadOrBuild (file : CacheFile) (pages : List KnowledgePage) (e : Embedder F) :
    Except String (VectorStore F × CacheFile) := do
  let cached ← file.cachedFor e.modelIdentity
  let matrix ← fillMatrix np digest cached pages e
  return (VectorStore.of e pages matrix, savedCache np digest e.modelIdentity pages matrix)

/-- Calls one after the other on one file; a call that raises leaves it as it is. -/
def runCalls : CacheFile → List (List KnowledgePage × Embedder F) →
    List (Except String (VectorStore F))
  | _, [] => []
  | file, (pages, e) :: calls =>
      match loadOrBuild np digest file pages e with
      | .ok (store, file') => .ok store :: runCalls file' calls
      | .error message => .error message :: runCalls file calls

end

/-! ## One call -/

section

variable {F : Type} {np : Numpy F} {digest : String → String}

/-- The entries that pages are reused from hold the rows of these pages: as arrays that are no
single numbers, and the last one as wide as a row where no page is embedded. -/
structure HoldsRows (np : Numpy F) (digest : String → String) (cached : Dict (String × Content))
    (pages : List KnowledgePage) (e : Embedder F) : Prop where
  rows : ∀ page ∈ pages, ∀ entry, cacheHit digest cached page = some entry →
    ∃ value vec, Dict.get entry "vector" = some value ∧ np.asarray value = .ok vec ∧
      vec.shape ≠ [] ∧ vec.assignRow e.dim = .ok (e.row np page)
  width : (∀ page ∈ pages, (cacheHit digest cached page).isSome) →
    ∀ page entry value vec, pages.getLast? = some page →
      cacheHit digest cached page = some entry → Dict.get entry "vector" = some value →
      np.asarray value = .ok vec → vec.shape.head? = some e.dim

/-- What a file must hold for the first call that reads it. -/
def CacheFile.HoldsRows (np : Numpy F) (digest : String → String) (pages : List KnowledgePage)
    (e : Embedder F) : CacheFile → Prop
  | .unreadable => True
  | .tooDeep => False
  | .json (.obj raw) => ∀ identity items, Dict.get raw "model_identity" = some identity →
      identity ≠ .null → Dict.get raw "entries" = some (.arr items) →
      items.any badKey = false ∧ (identity = .str e.modelIdentity →
        Canonic.HoldsRows np digest (entriesByKey items) pages e)
  | .json _ => False

theorem prod_stripOnes (shape : List ℕ) : (stripOnes shape).prod = shape.prod := by
  fun_induction stripOnes shape with
  | case1 n shape ih => rw [ih, List.prod_cons (a := 1), one_mul]
  | case2 shape h => rfl

theorem length_assignRow {dim : ℕ} {a : NdArray F} {row : List F} (h : a.assignRow dim = .ok row) :
    row.length = dim := by
  unfold NdArray.assignRow at h
  split at h
  next n hshape =>
    split at h
    next hn =>
      obtain rfl := Except.ok.inj h
      rw [a.length_data, ← prod_stripOnes, hshape, List.prod_singleton, hn]
    next =>
      split at h
      next x hdata =>
        obtain rfl := Except.ok.inj h
        exact List.length_replicate
      next => simp at h
  next => simp at h

@[simp] theorem assignRow_ofRow (row : List F) :
    (NdArray.ofRow row).assignRow row.length = .ok row := by
  simp [NdArray.assignRow, NdArray.ofRow, stripOnes]

theorem length_row (np : Numpy F) (e : Embedder F) (page : KnowledgePage) :
    (e.row np page).length = e.dim := by
  rw [Embedder.row, np.length_normalize, e.length_embedText]

theorem zip_map_self {α β : Type} (f : α → β) (l : List α) :
    l.zip (l.map f) = l.map fun x => (x, f x) := by
  have hpair : (l.map id).zip (l.map f) = _ := List.zip_map'
  rwa [List.map_id] at hpair

/-- A map that may fail and does not, against the map of its results. -/
theorem mapM_eq_ok_map {α β ε : Type} {f : α → Except ε β} {g : α → β} {l : List α} :
    l.mapM f = .ok (l.map g) ↔ ∀ a ∈ l, f a = .ok (g a) := by
  rw [mapM_eq_ok, List.forall₂_map_right_iff, List.forall₂_same]

variable {cached : Dict (String × Content)} {pages : List KnowledgePage} {e : Embedder F}

/-- The vector a page is reused from, where it can be read. -/
def storedVector (np : Numpy F) (digest : String → String) (cached : Dict (String × Content))
    (page : KnowledgePage) : Option (NdArray F) :=
  (reusedVector np digest cached page).toOption.join

theorem reusedVector_none (np : Numpy F) {page : KnowledgePage}
    (h : cacheHit digest cached page = none) :
    reusedVector np digest cached page = .ok none := by
  rw [reusedVector, h]

theorem reusedVector_some {page : KnowledgePage} {entry : Content}
    (h : cacheHit digest cached page = some entry) {r : Option (NdArray F)} :
    reusedVector np digest cached page = .ok r ↔ ∃ value vec, Dict.get entry "vector" = some value ∧
      np.asarray value = .ok vec ∧ vec.shape ≠ [] ∧ r = some vec := by
  rw [reusedVector, h]
  simp only
  cases hvalue : Dict.get entry "vector" with
  | none => simp
  | some value =>
      simp only [bind_eq_ok]
      constructor
      · rintro ⟨vec, hvec, hr⟩
        split at hr
        · simp at hr
        next hshape => exact ⟨value, vec, rfl, hvec, hshape, (Except.ok.inj hr).symm⟩
      · rintro ⟨value', vec, hvalue', hvec, hshape, rfl⟩
        obtain rfl := Option.some.inj hvalue'
        exact ⟨vec, hvec, by rw [if_neg hshape]⟩

theorem storedVector_eq {page : KnowledgePage} {r : Option (NdArray F)}
    (h : reusedVector np digest cached page = .ok r) :
    storedVector np digest cached page = r := by
  rw [storedVector, h]
  rfl

/-- The matrix has the rows of the pages exactly if every vector that is reused can be read, and
all fill the row of their page. -/
theorem fillMatrix_iff : fillMatrix np digest cached pages e = .ok (pages.map (e.row np)) ↔
    (∀ page ∈ pages, reusedVector np digest cached page =
      .ok (storedVector np digest cached page)) ∧
    ∀ page ∈ pages, ((storedVector np digest cached page).getD (.ofRow (e.row np page))).assignRow
      (matrixWidth e (pages.map (storedVector np digest cached))) = .ok (e.row np page) := by
  rw [fillMatrix, bind_eq_ok]
  have hfill : ∀ vectors : List (Option (NdArray F)),
      vectors = pages.map (storedVector np digest cached) →
      (((pages.zip vectors).mapM fun p => (p.2.getD (.ofRow (e.row np p.1))).assignRow
          (matrixWidth e vectors)) = .ok (pages.map (e.row np)) ↔
        ∀ page ∈ pages, ((storedVector np digest cached page).getD
          (.ofRow (e.row np page))).assignRow
            (matrixWidth e (pages.map (storedVector np digest cached))) =
              .ok (e.row np page)) := by
    rintro vectors rfl
    rw [zip_map_self, mapM_eq_ok, List.forall₂_map_left_iff, List.forall₂_map_right_iff,
      List.forall₂_same]
  constructor
  · rintro ⟨vectors, hread, hrows⟩
    have hall : ∀ page ∈ pages, reusedVector np digest cached page =
        .ok (storedVector np digest cached page) := by
      intro page hpage
      obtain ⟨r, -, hr⟩ := forall₂_mem_left (mapM_eq_ok.mp hread) hpage
      rw [hr, storedVector_eq hr]
    have hvectors : vectors = pages.map (storedVector np digest cached) :=
      Except.ok.inj (hread.symm.trans (mapM_eq_ok_map.mpr hall))
    exact ⟨hall, (hfill vectors hvectors).mp hrows⟩
  · rintro ⟨hall, hrows⟩
    exact ⟨_, mapM_eq_ok_map.mpr hall, (hfill _ rfl).mpr hrows⟩

/-- Where every page is reused, the last vector sets the width. -/
theorem matrixWidth_last {page : KnowledgePage} {vec : NdArray F}
    (hall : ∀ page ∈ pages, storedVector np digest cached page ≠ none)
    (hlast : pages.getLast? = some page) (hvec : storedVector np digest cached page = some vec) :
    matrixWidth e (pages.map (storedVector np digest cached)) = vec.shape.head?.getD 0 := by
  have hany : ¬ (pages.map (storedVector np digest cached)).any (·.isNone) = true := by
    rw [List.any_eq_true]
    rintro ⟨r, hr, hnone⟩
    obtain ⟨q, hq, rfl⟩ := List.mem_map.mp hr
    exact hall q hq (Option.isNone_iff_eq_none.mp hnone)
  obtain ⟨front, rfl⟩ := List.getLast?_eq_some_iff.mp hlast
  rw [matrixWidth, if_neg hany]
  simp [hvec]

/-- Entries that hold the rows can be read. -/
theorem HoldsRows.reusedVector_eq (h : HoldsRows np digest cached pages e) {page : KnowledgePage}
    (hpage : page ∈ pages) :
    reusedVector np digest cached page = .ok (storedVector np digest cached page) := by
  cases hentry : cacheHit digest cached page with
  | none =>
      have hnone := reusedVector_none np hentry
      rw [hnone, storedVector_eq hnone]
  | some entry =>
      obtain ⟨value, vec, hvalue, hvec, hshape, -⟩ := h.rows page hpage entry hentry
      have hsome := (reusedVector_some hentry).mpr ⟨value, vec, hvalue, hvec, hshape, rfl⟩
      rw [hsome, storedVector_eq hsome]

/-- Entries that hold the rows make a matrix as wide as the embedder: a page that is embedded sets
the width, and where all are reused the last one does. -/
theorem HoldsRows.matrixWidth_eq (h : HoldsRows np digest cached pages e) (hne : pages ≠ []) :
    matrixWidth e (pages.map (storedVector np digest cached)) = e.dim := by
  by_cases hall : ∀ q ∈ pages, (cacheHit digest cached q).isSome = true
  · have hstored : ∀ q ∈ pages, ∃ entry value vec, cacheHit digest cached q = some entry ∧
        Dict.get entry "vector" = some value ∧ np.asarray value = .ok vec ∧
          storedVector np digest cached q = some vec := by
      intro q hq
      obtain ⟨entry, hentry⟩ := Option.isSome_iff_exists.mp (hall q hq)
      obtain ⟨value, vec, hvalue, hvec, -, hsome⟩ :=
        (reusedVector_some hentry).mp (h.reusedVector_eq hq)
      exact ⟨entry, value, vec, hentry, hvalue, hvec, hsome⟩
    have hsome' : ∀ q ∈ pages, storedVector np digest cached q ≠ none := by
      intro q hq hnone
      obtain ⟨_, _, _, -, -, -, hq'⟩ := hstored q hq
      simp [hnone] at hq'
    obtain ⟨last, hlast⟩ : ∃ last, pages.getLast? = some last :=
      ⟨_, List.getLast?_eq_some_getLast hne⟩
    obtain ⟨entry, value, vec, hentry, hvalue, hvec, hsome⟩ :=
      hstored last (List.mem_of_getLast? hlast)
    rw [matrixWidth_last hsome' hlast hsome,
      h.width hall last entry value vec hlast hentry hvalue hvec]
    rfl
  · simp only [not_forall] at hall
    obtain ⟨q, hq, hmiss⟩ := hall
    have hnone := reusedVector_none np (Option.not_isSome_iff_eq_none.mp hmiss)
    have hany : (pages.map (storedVector np digest cached)).any (·.isNone) = true :=
      List.any_eq_true.mpr ⟨_, List.mem_map_of_mem hq, by rw [storedVector_eq hnone]; rfl⟩
    rw [matrixWidth, if_pos hany]

/-- Vectors that are read and fill the rows are those of entries that hold them. -/
theorem holdsRows_of_fillMatrix
    (h : fillMatrix np digest cached pages e = .ok (pages.map (e.row np))) :
    HoldsRows np digest cached pages e := by
  obtain ⟨hread, hrows⟩ := fillMatrix_iff.mp h
  -- a row that can be assigned is as wide as the matrix
  have hwidth : ∀ page ∈ pages,
      matrixWidth e (pages.map (storedVector np digest cached)) = e.dim := by
    intro page hpage
    rw [← length_assignRow (hrows page hpage), length_row np]
  constructor
  · intro page hpage entry hentry
    obtain ⟨value, vec, hvalue, hvec, hshape, hstored⟩ :=
      (reusedVector_some hentry).mp (hread page hpage)
    have hrow := hrows page hpage
    rw [hstored, hwidth page hpage] at hrow
    exact ⟨value, vec, hvalue, hvec, hshape, hrow⟩
  · intro hall page entry value vec hlast hentry hvalue hvec
    have hpage : page ∈ pages := List.mem_of_getLast? hlast
    obtain ⟨value', vec', hvalue', hvec', hshape, hstored⟩ :=
      (reusedVector_some hentry).mp (hread page hpage)
    obtain rfl := Option.some.inj (hvalue.symm.trans hvalue')
    obtain rfl := Except.ok.inj (hvec.symm.trans hvec')
    have hsome : ∀ q ∈ pages, storedVector np digest cached q ≠ none := by
      intro q hq hnone
      obtain ⟨entry', hentry'⟩ := Option.isSome_iff_exists.mp (hall q hq)
      obtain ⟨_, _, -, -, -, hq'⟩ := (reusedVector_some hentry').mp (hread q hq)
      simp [hnone] at hq'
    have hhead := (matrixWidth_last hsome hlast hstored).symm.trans (hwidth page hpage)
    cases hs : vec.shape with
    | nil => exact absurd hs hshape
    | cons n shape =>
        rw [hs] at hhead
        exact congrArg some hhead

/-- One call makes the matrix of `build` exactly if the cached entries hold the rows. -/
theorem fillMatrix_eq_ok :
    fillMatrix np digest cached pages e = .ok (pages.map (e.row np)) ↔
      HoldsRows np digest cached pages e := by
  refine ⟨holdsRows_of_fillMatrix, fun h => fillMatrix_iff.mpr
    ⟨fun page hpage => h.reusedVector_eq hpage, fun page hpage => ?_⟩⟩
  rw [h.matrixWidth_eq (List.ne_nil_of_mem hpage)]
  cases hentry : cacheHit digest cached page with
  | none =>
      rw [storedVector_eq (reusedVector_none np hentry)]
      show (NdArray.ofRow _).assignRow e.dim = _
      rw [← length_row np e page, assignRow_ofRow]
  | some entry =>
      obtain ⟨value, vec, hvalue, hvec, hshape, hrow⟩ := h.rows page hpage entry hentry
      have hsome := (reusedVector_some hentry).mpr ⟨value, vec, hvalue, hvec, hshape, rfl⟩
      rw [storedVector_eq hsome]
      exact hrow

/-! ## A run -/

theorem HoldsRows.nil : Canonic.HoldsRows np digest [] pages e := by
  constructor
  · intro page hpage entry hentry
    exact absurd hentry (by simp [cacheHit, Dict.get])
  · intro hall page entry value vec hlast hentry
    exact absurd hentry (by simp [cacheHit, Dict.get])

/-- An object with a model identity and a list of entries. -/
def Usable (raw : Content) (identity : Json) (items : List Json) : Prop :=
  Dict.get raw "model_identity" = some identity ∧ identity ≠ .null ∧
    Dict.get raw "entries" = some (.arr items)

theorem load_of_usable {raw : Content} {identity : Json} {items : List Json}
    (h : Usable raw identity items) : (CacheFile.json (.obj raw)).load =
      if items.any badKey then .error "TypeError: unhashable type"
      else .ok (some identity, entriesByKey items) := by
  obtain ⟨hidentity, hnull, hitems⟩ := h
  unfold CacheFile.load
  simp only [hidentity, hitems]

theorem load_of_not_usable {raw : Content} (h : ∀ identity items, ¬ Usable raw identity items) :
    (CacheFile.json (.obj raw)).load = .ok (none, []) := by
  unfold CacheFile.load
  simp only
  split
  · rfl
  next identity items hnull hidentity hitems =>
    exact absurd ⟨hidentity, fun hn => hnull hn, hitems⟩ (h identity items)
  · rfl

/-- A call reads the file and finds the rows exactly if the file holds them. -/
theorem CacheFile.holdsRows_iff {file : CacheFile} :
    file.HoldsRows np digest pages e ↔
      ∃ cached, file.cachedFor e.modelIdentity = .ok cached ∧
        Canonic.HoldsRows np digest cached pages e := by
  -- a file that is not usable counts as empty
  have hfresh : ∀ file : CacheFile, file.load = .ok (none, []) →
      ∃ cached, file.cachedFor e.modelIdentity = .ok cached ∧
        Canonic.HoldsRows np digest cached pages e := by
    intro file hload
    exact ⟨[], by rw [cachedFor, hload]; rfl, HoldsRows.nil⟩
  -- a file whose top level is no object raises
  have hraise : ∀ (file : CacheFile) (message : String), file.load = .error message →
      ¬ ∃ cached, file.cachedFor e.modelIdentity = .ok cached ∧
        Canonic.HoldsRows np digest cached pages e := by
    rintro file message hload ⟨cached, hcached, -⟩
    rw [cachedFor, hload] at hcached
    simp at hcached
  cases file with
  | unreadable => exact iff_of_true trivial (hfresh _ rfl)
  | tooDeep => exact iff_of_false id (hraise _ _ rfl)
  | json value =>
      cases value with
      | obj raw =>
          by_cases husable : ∃ identity items, Usable raw identity items
          · obtain ⟨identity, items, hu⟩ := husable
            have hall : (CacheFile.json (.obj raw)).HoldsRows np digest pages e ↔
                items.any badKey = false ∧ (identity = .str e.modelIdentity →
                  Canonic.HoldsRows np digest (entriesByKey items) pages e) := by
              constructor
              · intro h
                exact h identity items hu.1 hu.2.1 hu.2.2
              · rintro h identity' items' hidentity - hitems
                obtain rfl := Option.some.inj (hu.1.symm.trans hidentity)
                obtain rfl := Json.arr.inj (Option.some.inj (hu.2.2.symm.trans hitems))
                exact h
            have hload := load_of_usable hu
            rw [hall]
            cases hbad : items.any badKey with
            | true =>
                rw [hbad, if_pos rfl] at hload
                exact iff_of_false (by simp) (hraise _ _ hload)
            | false =>
                rw [hbad, if_neg (by simp)] at hload
                have hcached : (CacheFile.json (.obj raw)).cachedFor e.modelIdentity =
                    .ok (if some identity = some (.str e.modelIdentity) then entriesByKey items
                      else []) := by
                  rw [cachedFor, hload]
                  rfl
                rw [hcached]
                by_cases hsame : identity = .str e.modelIdentity
                · rw [if_pos (congrArg some hsame)]
                  constructor
                  · intro h
                    exact ⟨_, rfl, h.2 hsame⟩
                  · rintro ⟨cached, hok, h⟩
                    obtain rfl := Except.ok.inj hok
                    exact ⟨rfl, fun _ => h⟩
                · rw [if_neg fun h => hsame (Option.some.inj h)]
                  apply iff_of_true ⟨rfl, fun h => absurd h hsame⟩
                  exact ⟨[], rfl, HoldsRows.nil⟩
          · have hnot : ∀ identity items, ¬ Usable raw identity items :=
              fun identity items hu => husable ⟨identity, items, hu⟩
            apply iff_of_true _ (hfresh _ (load_of_not_usable hnot))
            intro identity items hidentity hnull hitems
            exact absurd ⟨hidentity, hnull, hitems⟩ (hnot identity items)
      | null => exact iff_of_false id (hraise _ _ rfl)
      | bool b => exact iff_of_false id (hraise _ _ rfl)
      | num q => exact iff_of_false id (hraise _ _ rfl)
      | str s => exact iff_of_false id (hraise _ _ rfl)
      | arr items => exact iff_of_false id (hraise _ _ rfl)

/-- A call returns what `build` returns exactly if the file holds the rows of its pages; it leaves
its own rows behind. -/
theorem loadOrBuild_iff {file : CacheFile} :
    (∃ file', loadOrBuild np digest file pages e = .ok (VectorStore.build np e pages, file')) ↔
      file.HoldsRows np digest pages e := by
  rw [CacheFile.holdsRows_iff]
  constructor
  · rintro ⟨file', h⟩
    obtain ⟨cached, hcached, h⟩ := bind_eq_ok.mp h
    obtain ⟨matrix, hmatrix, h⟩ := bind_eq_ok.mp h
    have hrows : matrix = pages.map (e.row np) := by
      have hstore := (Prod.mk.inj (Except.ok.inj h)).1
      exact congrArg VectorStore.matrix hstore
    rw [hrows] at hmatrix
    exact ⟨cached, hcached, fillMatrix_eq_ok.mp hmatrix⟩
  · rintro ⟨cached, hcached, h⟩
    refine ⟨savedCache np digest e.modelIdentity pages (pages.map (e.row np)), ?_⟩
    rw [loadOrBuild, hcached, ok_bind, fillMatrix_eq_ok.mpr h]
    rfl

theorem loadOrBuild_of_holdsRows {file : CacheFile} (h : file.HoldsRows np digest pages e) :
    loadOrBuild np digest file pages e = .ok (VectorStore.build np e pages,
      savedCache np digest e.modelIdentity pages (pages.map (e.row np))) := by
  obtain ⟨cached, hcached, hrows⟩ := CacheFile.holdsRows_iff.mp h
  rw [loadOrBuild, hcached, ok_bind, fillMatrix_eq_ok.mpr hrows]
  rfl

/-- The pages of two calls and their embedders, as far as a cache can tell them apart. -/
structure ToldApart (digest : String → String) (call call' : List KnowledgePage × Embedder F) :
    Prop where
  /-- Texts with one hash are one text. -/
  text : ∀ page ∈ call.1, ∀ page' ∈ call'.1,
    digest (pageText page) = digest (pageText page') → pageText page = pageText page'
  /-- A model identity stands for one model. -/
  model : call.2.modelIdentity = call'.2.modelIdentity → call.2.embedText = call'.2.embedText

/-- The entry that a call leaves for a page is the one of its last page with that key. -/
theorem cacheHit_saved {e : Embedder F} {pages : List KnowledgePage} {page' : KnowledgePage}
    {entry : Content}
    (h : cacheHit digest (entriesByKey (pages.map fun page =>
      .obj (savedEntry np digest (page, e.row np page)))) page' = some entry) :
    ∃ page ∈ pages, entry = savedEntry np digest (page, e.row np page) ∧
      digest (pageText page) = digest (pageText page') := by
  have hkeyed : (pages.map fun page =>
      Json.obj (savedEntry np digest (page, e.row np page))).filterMap keyedEntry =
        pages.map fun page => (page.docKey, savedEntry np digest (page, e.row np page)) := by
    rw [List.filterMap_map]
    exact List.filterMap_eq_map.symm ▸ rfl
  unfold cacheHit at h
  split at h
  next key entry' hget =>
    split at h
    next hprint =>
      obtain rfl := Option.some.inj h
      rw [entriesByKey, hkeyed, Dict.get_indexBy] at hget
      obtain ⟨page, hpage, heq⟩ :=
        List.mem_map.mp (List.mem_filter.mp (List.mem_of_getLast? hget)).1
      obtain ⟨rfl, rfl⟩ := Prod.mk.inj heq
      refine ⟨page, hpage, rfl, ?_⟩
      have hsame : pageFingerprint digest page = pageFingerprint digest page' :=
        Json.str.inj (Option.some.inj hprint)
      apply String.ext
      have hchars := congrArg String.toList hsame
      simpa only [pageFingerprint, String.toList_append, List.append_cancel_left_eq] using hchars
    next => simp at h
  next => simp at h

/-- What one call leaves behind holds the rows of the next one. -/
theorem savedCache_holdsRows (np : Numpy F) {call call' : List KnowledgePage × Embedder F}
    (h : ToldApart digest call call') :
    (savedCache np digest call.2.modelIdentity call.1 (call.1.map (call.2.row np))).HoldsRows
      np digest call'.1 call'.2 := by
  intro identity items hidentity hnull hitems
  obtain rfl : .str call.2.modelIdentity = identity := Option.some.inj hidentity
  have hsaved : (call.1.map fun page =>
      Json.obj (savedEntry np digest (page, call.2.row np page))) = items := by
    have hlist := Json.arr.inj (Option.some.inj hitems)
    rw [zip_map_self, List.map_map] at hlist
    exact hlist
  subst hsaved
  refine ⟨?_, fun hsame => ?_⟩
  · rw [List.any_eq_false]
    intro item hitem
    obtain ⟨page, -, rfl⟩ := List.mem_map.mp hitem
    simp [badKey, savedEntry, Dict.get, Json.hashable]
  · have hmodel := h.model (Json.str.inj hsame)
    have hrow : ∀ page ∈ call.1, ∀ page' ∈ call'.1, digest (pageText page) =
        digest (pageText page') → call.2.row np page = call'.2.row np page' := by
      intro page hpage page' hpage' hdigest
      rw [Embedder.row, Embedder.row, hmodel, h.text page hpage page' hpage' hdigest]
    constructor
    · intro page' hpage' entry hentry
      obtain ⟨page, hpage, rfl, hdigest⟩ := cacheHit_saved hentry
      refine ⟨_, _, rfl, np.asarray_tolist _, by simp [NdArray.ofRow], ?_⟩
      rw [hrow page hpage page' hpage' hdigest, ← length_row np call'.2 page']
      exact assignRow_ofRow _
    · intro hall page' entry value vec hlast hentry hvalue hvec
      obtain ⟨page, hpage, rfl, hdigest⟩ := cacheHit_saved hentry
      obtain rfl : np.tolist (call.2.row np page) = value := Option.some.inj hvalue
      obtain rfl := Except.ok.inj ((np.asarray_tolist _).symm.trans hvec)
      rw [hrow page hpage page' (List.mem_of_getLast? hlast) hdigest,
        ← length_row np call'.2 page']
      rfl

theorem runCalls_of_holdsRows {call : List KnowledgePage × Embedder F}
    {calls : List (List KnowledgePage × Embedder F)} {file : CacheFile}
    (hcalls : ∀ c ∈ call :: calls, ∀ c' ∈ call :: calls, ToldApart digest c c')
    (h : file.HoldsRows np digest call.1 call.2) : runCalls np digest file (call :: calls) =
      (call :: calls).map fun c => .ok (VectorStore.build np c.2 c.1) := by
  induction calls generalizing call file with
  | nil =>
      rw [runCalls, loadOrBuild_of_holdsRows h]
      rfl
  | cons next calls ih =>
      have hnext : ∀ c ∈ next :: calls, c ∈ call :: next :: calls := fun c hc =>
        List.mem_cons_of_mem call hc
      have hsaved := savedCache_holdsRows np
        (hcalls call List.mem_cons_self next (hnext next List.mem_cons_self))
      rw [runCalls, loadOrBuild_of_holdsRows h, List.map_cons]
      simp only
      rw [ih (fun c hc c' hc' => hcalls c (hnext c hc) c' (hnext c' hc')) hsaved]

/-- Calls return what `build` returns exactly if the file holds the rows of the first one. -/
theorem runCalls_iff {call : List KnowledgePage × Embedder F}
    {calls : List (List KnowledgePage × Embedder F)} {file : CacheFile}
    (hcalls : ∀ c ∈ call :: calls, ∀ c' ∈ call :: calls, ToldApart digest c c') :
    runCalls np digest file (call :: calls) =
        (call :: calls).map (fun c => .ok (VectorStore.build np c.2 c.1)) ↔
      file.HoldsRows np digest call.1 call.2 := by
  refine ⟨fun h => ?_, runCalls_of_holdsRows hcalls⟩
  apply loadOrBuild_iff.mp
  rw [runCalls] at h
  cases hcall : loadOrBuild np digest file call.1 call.2 with
  | error message =>
      rw [hcall] at h
      simp at h
  | ok r =>
      rw [hcall] at h
      have hstore : r.1 = VectorStore.build np call.2 call.1 :=
        Except.ok.inj (List.cons.inj h).1
      exact ⟨r.2, by rw [← hstore]⟩

end

/-! ## Rows of one number -/

def asNumber : Json → Except String ℚ
  | .num q => .ok q
  | _ => .error "ValueError: not a number"

/-- Numpy on lists of numbers, and its norm on rows of one number. -/
def plainNumpy : Numpy ℚ where
  asarray
    | .arr items => do return .ofRow (← items.mapM asNumber)
    | _ => .error "ValueError: not a list"
  tolist row := .arr (row.map .num)
  normalize row := row.map fun q => if q = 0 then 0 else q / |q|
  asarray_tolist row := by
    have hnumbers : (row.map Json.num).mapM asNumber = .ok row := by
      rw [mapM_eq_ok, List.forall₂_map_left_iff, List.forall₂_same]
      exact fun q _ => rfl
    simp only [hnumbers]
    rfl
  length_normalize row := List.length_map _

/-- An embedder that gives every text the same number. -/
def oneNumber : Embedder ℚ where
  modelIdentity := "one-number"
  dim := 1
  embedText _ := [4]
  length_embedText _ := rfl

def refunds (body : String) : KnowledgePage where
  owner := none
  id := "refunds"
  summary := "Refunds"
  body := body

/-- The hashes of two texts. -/
def refundsDigest (text : String) : String :=
  if text = "Refunds\nAfter 30 days" then
    "8227f8c6ae432a18fb4aa0f1dec8c560ed14b416429b5fc62ef326654bf191de"
  else if text = "Refunds\nAfter 60 days" then
    "83bc8e4cd5d12a85b430d4f1b32cd87a6948f89defa6e23dea8a9514bdf556ff"
  else text

def refundsCalls : List (List KnowledgePage × Embedder ℚ) :=
  [([refunds "After 30 days"], oneNumber), ([refunds "After 30 days"], oneNumber),
    ([refunds "After 60 days"], oneNumber)]

/-- A page is embedded, found again in the cache, and embedded anew when its text has changed. -/
theorem runCalls_refunds : runCalls plainNumpy refundsDigest .unreadable refundsCalls =
    refundsCalls.map fun c => .ok (VectorStore.build plainNumpy c.2 c.1) := by
  have htext : ∀ c ∈ refundsCalls, ∀ c' ∈ refundsCalls, ∀ page ∈ c.1, ∀ page' ∈ c'.1,
      refundsDigest (pageText page) = refundsDigest (pageText page') →
        pageText page = pageText page' := by
    decide
  have hmodel : ∀ c ∈ refundsCalls, c.2 = oneNumber := by
    intro c hc
    simp only [refundsCalls, List.mem_cons, List.not_mem_nil, or_false] at hc
    rcases hc with rfl | rfl | rfl <;> rfl
  have hcalls : ∀ c ∈ refundsCalls, ∀ c' ∈ refundsCalls, ToldApart refundsDigest c c' := by
    intro c hc c' hc'
    refine ⟨htext c hc c' hc', fun _ => ?_⟩
    rw [hmodel c hc, hmodel c' hc']
  exact (runCalls_iff hcalls).mpr trivial

/-- A list is JSON and no object: reading it raises, and `build` does not. -/
theorem runCalls_list : runCalls plainNumpy refundsDigest (.json (.arr [])) refundsCalls ≠
    refundsCalls.map fun c => .ok (VectorStore.build plainNumpy c.2 c.1) := by
  intro h
  have hfirst : (runCalls plainNumpy refundsDigest (.json (.arr [])) refundsCalls).head? =
      some (.error "AttributeError: object has no attribute 'get'") := rfl
  rw [h] at hfirst
  simp [refundsCalls] at hfirst

end Canonic
