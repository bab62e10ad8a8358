import Canonic.Graph.Bfs
import Canonic.Knowledge.Isolation
import Canonic.PyText

set_option autoImplicit false

/-! # Traversal of the page graph

`knowledge/traversal.py`: from the pages that a search found, breadth first along their references
and their `[[links]]`, up to a depth and a number of pages. -/

namespace Canonic

/-! ## Links -/

/-- `_WIKILINK_RE` at the beginning of a text: the slug, and the length of the match. -/
def wikilinkAt (cs : List Char) : Option (String × ℕ) :=
  match cs with
  | '[' :: '[' :: rest =>
      let name := rest.takeWhile fun c => c ≠ ']' && c ≠ '|'
      let close :=
        match rest.dropWhile fun c => c ≠ ']' && c ≠ '|' with
        | '|' :: label => label.dropWhile fun c => c ≠ ']'
        | after => after
      match name, close with
      | _ :: _, ']' :: ']' :: after =>
          some (String.ofList (stripSpaces name), cs.length - after.length)
      | _, _ => none
  | _ => none

/-- `iter_wikilink_slugs`; a match is not searched for another one, so that many characters are
skipped. -/
def iterWikilinkSlugs : ℕ → List Char → List String
  | _, [] => []
  | skip + 1, _ :: cs => iterWikilinkSlugs skip cs
  | 0, c :: cs =>
      match wikilinkAt (c :: cs) with
      | none => iterWikilinkSlugs 0 cs
      | some (slug, length) => slug :: iterWikilinkSlugs (length - 1) cs

example : iterWikilinkSlugs 0 "a [[ b c |x]] [[]] [[d]e]] [[[f]][[g|]]".toList =
    ["b c", "[f", "g"] := by decide

/-! ## The traversal -/

/-- A page with its references to other pages. -/
structure LinkedPage extends KnowledgePage where
  refs : List String := []
  deriving DecidableEq, Repr

/-- `_doc_key`. -/
def docKeyOf (scope : KnowledgeScope) (slug : String) : String := scope.value ++ ":" ++ slug

/-- The order of the seeds, by `(scope.value, id)`. -/
def LinkedPage.seedBefore (p q : LinkedPage) : Bool :=
  p.scope.value < q.scope.value || p.scope.value == q.scope.value && p.id ≤ q.id

structure Subgraph where
  pages : List LinkedPage
  entities : List String
  deriving DecidableEq, Repr

/-- `GraphTraversal`: the pages of the corpus, and the live entities if they are known. -/
structure GraphTraversal where
  pages : List LinkedPage
  entityIndex : Option (List String) := none

/-- `admitted` and `queue` of `expand`. -/
structure Walk where
  admitted : Dict LinkedPage
  queue : List (String × ℕ)

/-- `_admit`. -/
def Walk.admitPage (maxNodes : ℤ) (depth : ℕ) (w : Walk) (page : LinkedPage) : Walk :=
  if maxNodes ≤ w.admitted.length then w
  else if w.admitted.has page.docKey then w
  else ⟨w.admitted.set page.docKey page, w.queue ++ [(page.docKey, depth)]⟩

/-- What is left to do: a page in the queue is taken off it, a page that is admitted is put on
it. -/
def Walk.potential (maxNodes : ℤ) (w : Walk) : ℕ :=
  w.queue.length + 2 * (maxNodes.toNat - w.admitted.length)

theorem Dict.length_set_of_not_has {α : Type} {d : Dict α} {k : String} {v : α}
    (h : ¬ d.has k = true) : (d.set k v).length = d.length + 1 := by
  rw [Dict.set, if_neg h, List.length_append, List.length_singleton]

theorem Walk.potential_foldl_le (maxNodes : ℤ) (depth : ℕ) (pages : List LinkedPage) (w : Walk) :
    (pages.foldl (Walk.admitPage maxNodes depth) w).potential maxNodes ≤ w.potential maxNodes := by
  induction pages generalizing w with
  | nil => exact le_rfl
  | cons page pages ih =>
      rw [List.foldl_cons]
      apply (ih _).trans
      unfold Walk.admitPage
      split
      · exact le_rfl
      next hroom =>
        split
        · exact le_rfl
        next hnew =>
          simp only [Walk.potential, Dict.length_set_of_not_has hnew, List.length_append,
            List.length_singleton]
          omega

namespace GraphTraversal

variable (t : GraphTraversal)

/-- `_by_doc_key`. -/
def byDocKey : Dict LinkedPage := Dict.indexBy (fun p => p.docKey) t.pages

/-- `_by_slug`: the first page of a slug, or the last shared one. -/
def bySlug : Dict LinkedPage :=
  t.pages.foldl (fun d page =>
    if (d.get page.id).isNone ∨ page.scope = .shared then d.set page.id page else d) []

/-- `_neighbors`. -/
def neighbors (page : LinkedPage) : List LinkedPage :=
  (sortedSet (page.refs ++ iterWikilinkSlugs 0 page.body.toList)).filterMap t.bySlug.get

/-- `_collect_entities`. -/
def collectEntities (pages : List LinkedPage) : List String :=
  let names := pages.flatMap (·.slRefs)
  sortedSet (match t.entityIndex with
    | none => names
    | some index => names.filter (· ∈ index))

/-- The pages of the seeds, sorted. -/
def seedPages (seeds : List Hit) : List LinkedPage :=
  (seeds.filterMap fun s => t.byDocKey.get (docKeyOf s.scope s.page)).insertionSort
    fun p q => p.seedBefore q

/-- The loop of `expand`. -/
def walk (maxDepth maxNodes : ℤ) : Walk → Except Err (Dict LinkedPage)
  | ⟨admitted, []⟩ => .ok admitted
  | ⟨admitted, (key, depth) :: queue⟩ =>
      if maxDepth ≤ depth then walk maxDepth maxNodes ⟨admitted, queue⟩
      else
        match admitted.get key with
        | none => .error (.internal key)
        | some page => walk maxDepth maxNodes
            ((t.neighbors page).foldl (Walk.admitPage maxNodes (depth + 1)) ⟨admitted, queue⟩)
  termination_by w => w.potential maxNodes
  decreasing_by
    · simp only [Walk.potential, List.length_cons]
      omega
    · apply (Walk.potential_foldl_le _ _ _ _).trans_lt
      simp only [Walk.potential, List.length_cons]
      omega

/-- `expand`. -/
def expand (seeds : List Hit) (maxDepth maxNodes : ℤ) : Except Err Subgraph := do
  let start := (t.seedPages seeds).foldl (Walk.admitPage maxNodes 0) ⟨[], []⟩
  let admitted ← t.walk maxDepth maxNodes start
  return ⟨admitted.map (·.2), t.collectEntities (admitted.map (·.2))⟩

end GraphTraversal

/-! ## Admission -/

/-- Admitted pages under their keys. -/
def entries (pages : List LinkedPage) : Dict LinkedPage := pages.map fun p => (p.docKey, p)

/-- Pages in the queue. -/
def queued (depth : ℕ) (pages : List LinkedPage) : List (String × ℕ) :=
  pages.map fun p => (p.docKey, depth)

theorem exists_of_mem_queued {depth : ℕ} {pages : List LinkedPage} {q : String × ℕ}
    (h : q ∈ queued depth pages) : ∃ p ∈ pages, p.docKey = q.1 := by
  obtain ⟨p, hp, rfl⟩ := List.mem_map.mp h
  exact ⟨p, hp, rfl⟩

theorem keys_entries (pages : List LinkedPage) :
    (entries pages).map (·.1) = pages.map fun p => p.docKey := by
  simp [entries, Function.comp_def]

theorem entries_append (ps qs : List LinkedPage) : entries (ps ++ qs) = entries ps ++ entries qs :=
  List.map_append

theorem get_entries {pages : List LinkedPage} (h : (pages.map fun p => p.docKey).Nodup)
    {p : LinkedPage} (hp : p ∈ pages) : (entries pages).get p.docKey = some p := by
  apply Dict.get_of_mem
  · rwa [keys_entries]
  · exact List.mem_map_of_mem hp

abbrev freshPages (known pages : List LinkedPage) : List LinkedPage :=
  Graph.fresh (fun p : LinkedPage => p.docKey) known pages

/-- The pages of a list are admitted as far as there is room: those that are new. -/
theorem foldl_admitPage (maxNodes : ℤ) (depth : ℕ) (pages known : List LinkedPage)
    (queue : List (String × ℕ)) (hroom : known.length ≤ maxNodes.toNat) :
    pages.foldl (Walk.admitPage maxNodes depth) ⟨entries known, queue⟩ =
      ⟨entries (known ++ (freshPages known pages).take (maxNodes.toNat - known.length)),
        queue ++ queued depth ((freshPages known pages).take (maxNodes.toNat - known.length))⟩ := by
  induction pages generalizing known queue with
  | nil => simp [Graph.fresh, queued]
  | cons page pages ih =>
      have hlen : (entries known).length = known.length := by simp [entries]
      have hhas : (entries known).has page.docKey = true ↔
          page.docKey ∈ known.map fun p => p.docKey := by rw [Dict.has_iff, keys_entries]
      rw [List.foldl_cons, Walk.admitPage]
      simp only [hlen]
      by_cases hfull : maxNodes ≤ known.length
      · have hzero : maxNodes.toNat - known.length = 0 := by omega
        rw [if_pos hfull, ih known queue hroom, hzero]
        simp
      · rw [if_neg hfull]
        by_cases hknown : page.docKey ∈ known.map fun p => p.docKey
        · rw [if_pos (hhas.mpr hknown), ih known queue hroom, freshPages, freshPages, Graph.fresh,
            if_pos hknown]
        · have hset : (entries known).set page.docKey page = entries (known ++ [page]) := by
            rw [Dict.set, if_neg (fun h => hknown (hhas.mp h)), entries_append]
            rfl
          obtain ⟨room, hone⟩ : ∃ n, maxNodes.toNat - known.length = n + 1 :=
            ⟨maxNodes.toNat - known.length - 1, by omega⟩
          have hrest : maxNodes.toNat - (known ++ [page]).length = room := by
            rw [List.length_append, List.length_singleton]
            omega
          rw [if_neg (fun h => hknown (hhas.mp h)), hset, ih (known ++ [page]) _ (by
            rw [List.length_append, List.length_singleton]
            omega), hrest, hone, freshPages, freshPages, Graph.fresh, if_neg hknown,
            List.take_succ_cons]
          simp [queued]

/-! ## The walk, layer by layer -/

namespace GraphTraversal

variable (t : GraphTraversal) {maxDepth maxNodes : ℤ}

theorem walk_nil (admitted : Dict LinkedPage) :
    t.walk maxDepth maxNodes ⟨admitted, []⟩ = .ok admitted := by
  rw [walk]

/-- At the depth of the walk nothing is followed. -/
theorem walk_deep {admitted : Dict LinkedPage} {queue : List (String × ℕ)}
    (h : ∀ q ∈ queue, maxDepth ≤ q.2) :
    t.walk maxDepth maxNodes ⟨admitted, queue⟩ = .ok admitted := by
  induction queue with
  | nil => exact t.walk_nil admitted
  | cons q queue ih =>
      rw [walk, if_pos (h q List.mem_cons_self)]
      exact ih fun q' hq' => h q' (List.mem_cons_of_mem q hq')

section

variable {known : List LinkedPage} (hnodup : (known.map fun p => p.docKey).Nodup)

include hnodup

/-- A page that is taken off the queue has its new neighbors admitted, as far as there is room. -/
theorem walk_cons {page : LinkedPage} (hpage : page ∈ known) {depth : ℕ} (hdepth : depth < maxDepth)
    (hroom : known.length ≤ maxNodes.toNat) (queue : List (String × ℕ)) :
    t.walk maxDepth maxNodes ⟨entries known, (page.docKey, depth) :: queue⟩ =
      t.walk maxDepth maxNodes
        ⟨entries (known ++ (freshPages known (t.neighbors page)).take
            (maxNodes.toNat - known.length)),
          queue ++ queued (depth + 1) ((freshPages known (t.neighbors page)).take
            (maxNodes.toNat - known.length))⟩ := by
  rw [walk, if_neg (by omega), get_entries hnodup hpage]
  simp only
  rw [foldl_admitPage maxNodes (depth + 1) (t.neighbors page) known queue hroom]

/-- A full walk ends with what it has. -/
theorem walk_full (hfull : known.length = maxNodes.toNat) {queue : List (String × ℕ)}
    (hqueue : ∀ q ∈ queue, ∃ p ∈ known, p.docKey = q.1) :
    t.walk maxDepth maxNodes ⟨entries known, queue⟩ = .ok (entries known) := by
  induction queue with
  | nil => exact t.walk_nil _
  | cons q queue ih =>
      have hrest := ih fun q' hq' => hqueue q' (List.mem_cons_of_mem q hq')
      obtain ⟨page, hpage, hkey⟩ := hqueue q List.mem_cons_self
      obtain ⟨key, depth⟩ := q
      simp only at hkey
      subst hkey
      by_cases hdepth : maxDepth ≤ depth
      · rw [walk, if_pos hdepth, hrest]
      · rw [t.walk_cons hnodup hpage (by omega) hfull.le, hfull, Nat.sub_self]
        simpa [queued] using hrest

end

abbrev layersOf (t : GraphTraversal) (start : List LinkedPage) :
    ℕ → List LinkedPage × List LinkedPage :=
  Graph.layers (fun p : LinkedPage => p.docKey) t.neighbors start

/-- The breadth-first order of the pages up to a depth. -/
abbrev bfsOrder (t : GraphTraversal) (start : List LinkedPage) (n : ℕ) : List LinkedPage :=
  Graph.order (fun p : LinkedPage => p.docKey) t.neighbors start n

variable {start : List LinkedPage}

/-- What the first pages of a layer lead to. -/
abbrev found (t : GraphTraversal) (start : List LinkedPage) (k : ℕ) (done : List LinkedPage) :
    List LinkedPage :=
  freshPages (t.bfsOrder start k) (done.flatMap t.neighbors)

theorem found_append (k : ℕ) (done rest : List LinkedPage) : t.found start k (done ++ rest) =
    t.found start k done ++
      freshPages (t.bfsOrder start k ++ t.found start k done) (rest.flatMap t.neighbors) := by
  rw [found, List.flatMap_append]
  exact Graph.fresh_append _ _ _

theorem nodup_append_found (k : ℕ) (done : List LinkedPage) :
    ((t.bfsOrder start k ++ t.found start k done).map fun p => p.docKey).Nodup :=
  Graph.nodup_append_fresh (Graph.nodup_order _ _ _ k)

theorem bfsOrder_succ {k : ℕ} {done : List LinkedPage} (h : (t.layersOf start k).2 = done) :
    t.bfsOrder start (k + 1) = t.bfsOrder start k ++ t.found start k done ∧
      (t.layersOf start (k + 1)).2 = t.found start k done := by
  subst h
  exact ⟨rfl, rfl⟩

theorem append_take_room {known pages : List LinkedPage} {n : ℕ} (h : known.length ≤ n) :
    known ++ pages.take (n - known.length) = (known ++ pages).take n := by
  rw [List.take_append, List.take_of_length_le h]

theorem take_eq_of_isPrefix {α : Type} {xs ys : List α} {n : ℕ} (h : xs <+: ys)
    (hn : n ≤ xs.length) :
    xs.take n = ys.take n := by
  obtain ⟨zs, rfl⟩ := h
  exact (List.take_append_of_le_length hn).symm

/-- The walk through one layer: it admits the next one, or as much of it as there is room for. -/
theorem walk_layer {k : ℕ} (hk : k < maxDepth) {done rest : List LinkedPage}
    (hlayer : (t.layersOf start k).2 = done ++ rest)
    (hroom : (t.bfsOrder start k ++ t.found start k done).length ≤ maxNodes.toNat) :
    t.walk maxDepth maxNodes ⟨entries (t.bfsOrder start k ++ t.found start k done),
        queued k rest ++ queued (k + 1) (t.found start k done)⟩ =
      if (t.bfsOrder start (k + 1)).length ≤ maxNodes.toNat then
        t.walk maxDepth maxNodes ⟨entries (t.bfsOrder start (k + 1)),
          queued (k + 1) (t.layersOf start (k + 1)).2⟩
      else .ok (entries ((t.bfsOrder start (k + 1)).take maxNodes.toNat)) := by
  -- on the rest of the layer: a page adds its new neighbors behind those found so far
  induction rest generalizing done with
  | nil =>
      obtain ⟨horder, hlast⟩ := t.bfsOrder_succ (hlayer.trans (List.append_nil done))
      rw [horder, hlast, if_pos hroom]
      rfl
  | cons page rest ih =>
      have hpage : page ∈ t.bfsOrder start k ++ t.found start k done := by
        apply List.mem_append_left
        apply List.mem_append_right
        rw [hlayer]
        exact List.mem_append_right _ List.mem_cons_self
      have hsplit : done ++ page :: rest = (done ++ [page]) ++ rest := by simp
      have hgrow : t.bfsOrder start k ++ t.found start k (done ++ [page]) =
          (t.bfsOrder start k ++ t.found start k done) ++
            freshPages (t.bfsOrder start k ++ t.found start k done) (t.neighbors page) := by
        rw [found_append, List.append_assoc, List.flatMap_singleton]
      have hcons : queued k (page :: rest) ++ queued (k + 1) (t.found start k done) =
          (page.docKey, k) :: (queued k rest ++ queued (k + 1) (t.found start k done)) := rfl
      rw [hcons, t.walk_cons (t.nodup_append_found k done) hpage hk hroom]
      by_cases hmore : (t.bfsOrder start k ++ t.found start k (done ++ [page])).length ≤
          maxNodes.toNat
      · -- the neighbors of the page fit, and the walk goes on with the rest of the layer
        have hfit : (freshPages (t.bfsOrder start k ++ t.found start k done)
            (t.neighbors page)).length ≤
            maxNodes.toNat - (t.bfsOrder start k ++ t.found start k done).length := by
          rw [hgrow, List.length_append] at hmore
          omega
        have hqueue : queued k rest ++ queued (k + 1) (t.found start k done) ++ queued (k + 1)
              (freshPages (t.bfsOrder start k ++ t.found start k done) (t.neighbors page)) =
            queued k rest ++ queued (k + 1) (t.found start k (done ++ [page])) := by
          rw [found_append, List.flatMap_singleton, List.append_assoc]
          simp only [queued, List.map_append]
        rw [List.take_of_length_le hfit, ← hgrow, hqueue]
        exact ih (hlayer.trans hsplit) hmore
      · -- the walk is full in the middle of the next layer
        have hpre : (t.bfsOrder start k ++ t.found start k (done ++ [page])) <+:
            t.bfsOrder start (k + 1) := by
          rw [(t.bfsOrder_succ (hlayer.trans hsplit)).1, t.found_append k (done ++ [page]),
            ← List.append_assoc]
          exact List.prefix_append _ _
        have hlong : ¬ (t.bfsOrder start (k + 1)).length ≤ maxNodes.toNat := by
          have := hpre.length_le
          omega
        have hcut : t.bfsOrder start k ++ t.found start k done ++
            (freshPages (t.bfsOrder start k ++ t.found start k done) (t.neighbors page)).take
              (maxNodes.toNat - (t.bfsOrder start k ++ t.found start k done).length) =
            (t.bfsOrder start (k + 1)).take maxNodes.toNat := by
          rw [append_take_room hroom, ← hgrow]
          exact take_eq_of_isPrefix hpre (by omega)
        rw [if_neg hlong, hcut]
        apply t.walk_full
        · exact (((Graph.nodup_order _ _ _ (k + 1)).sublist ((List.take_sublist _ _).map _)))
        · rw [List.length_take]
          omega
        · intro q hq
          rw [← hcut]
          rcases List.mem_append.mp hq with hq | hq
          · rcases List.mem_append.mp hq with hq | hq
            · obtain ⟨p, hp, hkey⟩ := exists_of_mem_queued hq
              refine ⟨p, List.mem_append_left _ (List.mem_append_left _ ?_), hkey⟩
              apply List.mem_append_right
              rw [hlayer]
              exact List.mem_append_right _ (List.mem_cons_of_mem page hp)
            · obtain ⟨p, hp, hkey⟩ := exists_of_mem_queued hq
              exact ⟨p, List.mem_append_left _ (List.mem_append_right _ hp), hkey⟩
          · obtain ⟨p, hp, hkey⟩ := exists_of_mem_queued hq
            exact ⟨p, List.mem_append_right _ hp, hkey⟩

/-- The walk from the beginning of a layer. -/
theorem walk_layers {k : ℕ} (hk : k ≤ maxDepth.toNat)
    (hroom : (t.bfsOrder start k).length ≤ maxNodes.toNat) :
    t.walk maxDepth maxNodes ⟨entries (t.bfsOrder start k), queued k (t.layersOf start k).2⟩ =
      .ok (entries ((t.bfsOrder start maxDepth.toNat).take maxNodes.toNat)) := by
  obtain ⟨n, hn⟩ : ∃ n, maxDepth.toNat = k + n := ⟨maxDepth.toNat - k, by omega⟩
  induction n generalizing k with
  | zero =>
      have hdeep : ∀ q ∈ queued k (t.layersOf start k).2, maxDepth ≤ q.2 := by
        intro q hq
        obtain ⟨p, -, rfl⟩ := List.mem_map.mp hq
        show maxDepth ≤ k
        omega
      rw [t.walk_deep hdeep, hn, Nat.add_zero, List.take_of_length_le hroom]
  | succ n ih =>
      have hnone : t.found start k [] = [] := rfl
      have hempty : (t.bfsOrder start k ++ t.found start k []).length ≤ maxNodes.toNat := by
        rwa [hnone, List.append_nil]
      have hlayer := t.walk_layer (by omega : (k : ℤ) < maxDepth) (List.nil_append _).symm hempty
      have hqueue : queued (k + 1) [] = [] := rfl
      rw [hnone, List.append_nil, hqueue, List.append_nil] at hlayer
      apply hlayer.trans
      split
      next hmore => exact ih (by omega) hmore (by omega)
      next hmore =>
        have hfull : maxNodes.toNat ≤ (t.bfsOrder start (k + 1)).length := by omega
        rw [take_eq_of_isPrefix
          (Graph.order_isPrefix _ _ _ (by omega : k + 1 ≤ maxDepth.toNat)) hfull]

/-- The walk admits the breadth-first order, as far as there is room. -/
theorem walk_start (start : List LinkedPage) :
    t.walk maxDepth maxNodes (start.foldl (Walk.admitPage maxNodes 0) ⟨[], []⟩) =
      .ok (entries ((t.bfsOrder start maxDepth.toNat).take maxNodes.toNat)) := by
  have hzero : t.bfsOrder start 0 = freshPages [] start := rfl
  have hstart := foldl_admitPage maxNodes 0 start [] [] (Nat.zero_le _)
  rw [List.length_nil, Nat.sub_zero, List.nil_append, List.nil_append, ← hzero] at hstart
  rw [show (⟨[], []⟩ : Walk) = ⟨entries [], []⟩ from rfl, hstart]
  by_cases hroom : (t.bfsOrder start 0).length ≤ maxNodes.toNat
  · rw [List.take_of_length_le hroom]
    exact t.walk_layers (Nat.zero_le _) hroom
  · have hfull : maxNodes.toNat ≤ (t.bfsOrder start 0).length := by omega
    rw [← take_eq_of_isPrefix (Graph.order_isPrefix _ _ _ (Nat.zero_le maxDepth.toNat)) hfull]
    apply t.walk_full
    · exact (Graph.nodup_order _ _ _ 0).sublist ((List.take_sublist _ _).map _)
    · rw [List.length_take]
      omega
    · intro q hq
      exact exists_of_mem_queued hq

end GraphTraversal

/-! ## What the walk can reach -/

namespace GraphTraversal

variable (t : GraphTraversal)

theorem mem_of_bySlug {slug : String} {page : LinkedPage} (h : t.bySlug.get slug = some page) :
    page ∈ t.pages := by
  have hfold : ∀ (pages : List LinkedPage) (d : Dict LinkedPage), (slug, page) ∈
      pages.foldl (fun d page => if (d.get page.id).isNone ∨ page.scope = .shared then
        d.set page.id page else d) d → (slug, page) ∈ d ∨ page ∈ pages := by
    intro pages
    induction pages with
    | nil => exact fun d hmem => .inl hmem
    | cons p pages ih =>
        intro d hmem
        rcases ih _ hmem with hd | hp
        · beta_reduce at hd
          split at hd
          · rcases Dict.mem_set.mp hd with ⟨-, rfl⟩ | ⟨-, hd⟩
            · exact .inr List.mem_cons_self
            · exact .inl hd
          · exact .inl hd
        · exact .inr (List.mem_cons_of_mem p hp)
  rcases hfold t.pages [] (Dict.get_eq_some_mem h) with hnil | hpage
  · simp at hnil
  · exact hpage

theorem mem_of_byDocKey {key : String} {page : LinkedPage} (h : t.byDocKey.get key = some page) :
    page ∈ t.pages := by
  rw [byDocKey, Dict.get_indexBy] at h
  exact (List.mem_filter.mp (List.mem_of_getLast? h)).1

theorem mem_of_linked {seeds : List Hit} {n : ℕ} {page : LinkedPage}
    (h : Graph.Linked t.neighbors (t.seedPages seeds) n page) : page ∈ t.pages := by
  cases h with
  | seed h =>
      obtain ⟨s, -, hs⟩ := List.mem_filterMap.mp ((List.mem_insertionSort _).mp h)
      exact t.mem_of_byDocKey hs
  | link hx hy =>
      obtain ⟨slug, -, hslug⟩ := List.mem_filterMap.mp hy
      exact t.mem_of_bySlug hslug

/-- Links from the seeds of a traversal to a page. -/
abbrev LinkedFrom (t : GraphTraversal) (seeds : List Hit) (n : ℕ) (page : LinkedPage) : Prop :=
  Graph.Linked t.neighbors (t.seedPages seeds) n page

/-- The pages of a subgraph. -/
def cutOrder (t : GraphTraversal) (seeds : List Hit) (maxDepth maxNodes : ℤ) : List LinkedPage :=
  (t.bfsOrder (t.seedPages seeds) maxDepth.toNat).take maxNodes.toNat

theorem expand_eq (seeds : List Hit) (maxDepth maxNodes : ℤ) :
    t.expand seeds maxDepth maxNodes = .ok ⟨t.cutOrder seeds maxDepth maxNodes,
      t.collectEntities (t.cutOrder seeds maxDepth maxNodes)⟩ := by
  have hvalues : ∀ pages : List LinkedPage, (entries pages).map (·.2) = pages := by
    intro pages
    simp [entries, Function.comp_def]
  simp only [expand, t.walk_start (t.seedPages seeds)]
  show Except.ok _ = _
  rw [hvalues]
  rfl

/-- The subgraph is the breadth-first order from the sorted seeds up to the depth, cut off at the
number of pages; bounds below zero count as zero. Where a slug names one page of its scope, a
subgraph that is not cut off has every page that is not too many links away. -/
theorem expand_exact (seeds : List Hit) (maxDepth maxNodes : ℤ) :
    ∃ sub, t.expand seeds maxDepth maxNodes = .ok sub ∧
      (sub.pages.map fun p => p.docKey).Nodup ∧ sub.pages.length ≤ maxNodes.toNat ∧
      (∀ n, maxDepth.toNat ≤ n → sub.pages <+: t.bfsOrder (t.seedPages seeds) n) ∧
      (∀ page ∈ sub.pages, ∃ n ≤ maxDepth.toNat, t.LinkedFrom seeds n page) ∧
      ((∀ p ∈ t.pages, ∀ q ∈ t.pages, p.docKey = q.docKey → p = q) →
        sub.pages.length < maxNodes → ∀ page n, n ≤ maxDepth.toNat →
          t.LinkedFrom seeds n page → page ∈ sub.pages) := by
  refine ⟨_, t.expand_eq seeds maxDepth maxNodes, ?_, ?_, ?_, ?_, ?_⟩
  · exact (Graph.nodup_order _ _ _ _).sublist ((List.take_sublist _ _).map _)
  · exact List.length_take_le _ _
  · intro n hn
    exact (List.take_prefix _ _).trans (Graph.order_isPrefix _ _ _ hn)
  · intro page hpage
    exact Graph.linked_of_mem_order (List.mem_of_mem_take hpage)
  · intro hunique hless page n hn hlinked
    simp only [cutOrder, List.length_take] at hless ⊢
    rw [List.take_of_length_le (by omega)]
    apply Graph.mem_order_of_linked _ hlinked hn
    intro i j p q hp hq hkey
    exact hunique p (t.mem_of_linked hp) q (t.mem_of_linked hq) hkey

/-! ### Two notes of one name -/

/-- A page of a user with references. -/
def userPage (folders : List String) (id : String) (refs : List String) : LinkedPage where
  owner := some "ana"
  folders := folders
  id := id
  refs := refs

/-- A hit of a page. -/
def hitOf (page : LinkedPage) : Hit where
  page := page.id
  scope := page.scope
  score := 1
  summary := page.summary
  matchedOn := []
  usageMode := page.usageMode
  slRefs := []
  annotations := []

/-- `note` leads to `plan`, `plan` back to `note` and to a page that does not exist. -/
def circle : GraphTraversal where
  pages := [userPage [] "note" ["plan"], userPage [] "plan" ["note", "gone"]]

/-- The circle from `note` at one link has both pages, the two that are within one link. -/
theorem expand_exact_circle :
    ∃ sub, circle.expand [hitOf (userPage [] "note" [])] 1 3 = .ok sub ∧
      userPage [] "plan" ["note", "gone"] ∈ sub.pages := by
  obtain ⟨sub, hok, -, -, hpre, -, hall⟩ :=
    circle.expand_exact [hitOf (userPage [] "note" [])] 1 3
  have horder : (circle.bfsOrder (circle.seedPages [hitOf (userPage [] "note" [])]) 1).length = 2 :=
    by decide
  have hlen : sub.pages.length ≤ 2 := horder ▸ (hpre 1 le_rfl).length_le
  have hseed : circle.LinkedFrom [hitOf (userPage [] "note" [])] 0 (userPage [] "note" ["plan"]) :=
    .seed (by decide)
  refine ⟨sub, hok, hall (by decide) (by omega) _ 1 le_rfl (.link hseed (by decide))⟩

/-- Two notes of one user in different folders: the one that is found, `b`, refers to its own
slug, which names the other one, `a`. -/
def twoNotes : GraphTraversal where
  pages := [userPage ["a"] "note" [], userPage ["b"] "note" ["note"]]

/-- One note stands for both, although the other is one link away; and bounds below zero admit the
seeds and no page. -/
theorem twoNotes_expand :
    (∃ sub, twoNotes.expand [hitOf (userPage [] "note" [])] 2 10 = .ok sub ∧
      (sub.pages.length : ℤ) < 10 ∧
      twoNotes.LinkedFrom [hitOf (userPage [] "note" [])] 1 (userPage ["a"] "note" []) ∧
      userPage ["a"] "note" [] ∉ sub.pages) ∧
    (∃ sub, circle.expand [hitOf (userPage [] "note" [])] (-1) 3 = .ok sub ∧
      sub.pages ≠ [] ∧ ∀ n : ℕ, ¬ (n : ℤ) ≤ -1) ∧
    (∃ sub, circle.expand [hitOf (userPage [] "note" [])] 1 (-1) = .ok sub ∧
      ¬ (sub.pages.length : ℤ) ≤ -1) := by
  have hseed : twoNotes.LinkedFrom [hitOf (userPage [] "note" [])] 0
      (userPage ["b"] "note" ["note"]) := .seed (by decide)
  have hlink : twoNotes.LinkedFrom [hitOf (userPage [] "note" [])] 1 (userPage ["a"] "note" []) :=
    .link hseed (by decide)
  refine ⟨⟨_, twoNotes.expand_eq _ 2 10, by decide, hlink, by decide⟩,
    ⟨_, circle.expand_eq _ (-1) 3, by decide, by omega⟩,
    ⟨_, circle.expand_eq _ 1 (-1), by decide⟩⟩

end GraphTraversal

end Canonic
