import Canonic.Dict
import Canonic.Semantic.Models

set_option autoImplicit false

/-! # Join-graph planning

`compiler/joins.py`. From the owner of a leaf, find the declared join path to every referenced
alias. A path is a chain of declared joins; each join target is known by its alias
(`join.name or join.to`), and a path never visits an alias twice.

Two functions read the graph independently of one another:

* `buildAliasTree` walks it breadth first and keeps, for each alias, the source of the *first*
  join that introduced it;
* `planJoins` enumerates the simple alias paths to each target (`allSimplePaths`), picks one
  (with `via` where there are several) and merges the picked paths by alias. -/

namespace Canonic

open Sql (Expr)

/-- One declared join traversed from `fromSource` (known as `fromAlias`) to `alias_`. -/
structure JoinEdge where
  fromSource : String
  fromAlias : String
  join : Join
  alias_ : String
  onSql : String
  deriving DecidableEq, Repr

/-! ## The alias tree -/

/-- Enter the joins of one source: each new alias is recorded and queued. -/
def visitJoins (st : Dict String × List String) (join : Join) : Dict String × List String :=
  if st.1.has join.alias_ then st else (st.1 ++ [(join.alias_, join.to_)], st.2 ++ [join.to_])

/-- The breadth-first loop over the queue of sources still to expand. -/
def aliasTreeLoop (ss : Sources) : Nat → List String → Dict String → Dict String
  | 0, _, tree => tree
  | _ + 1, [], tree => tree
  | n + 1, src :: queue, tree =>
      match ss.get src with
      | none => aliasTreeLoop ss n queue tree
      | some s =>
          let st := s.joins.foldl visitJoins (tree, queue)
          aliasTreeLoop ss n st.2 st.1

/-- The number of joins declared in the project, a bound on the length of an alias path. -/
def Sources.joinCount (ss : Sources) : Nat := (ss.list.map fun s => s.joins.length).sum

/-- `build_alias_tree`: the source of every alias reachable from `owner`. -/
def buildAliasTree (ss : Sources) (owner : String) : Dict String :=
  aliasTreeLoop ss (ss.joinCount + 1) [owner] [(owner, owner)]

/-! ## Path enumeration -/

/-- `_rewrite_on`: the ON text with references to either side replaced by the aliases. -/
def rewriteOn (lib : Lib) (onSql fromSrc fromAlias toSrc toAlias fromTable toTable : String) :
    Except Err String :=
  match lib.parseOne none onSql with
  | none => .error (.parseError onSql)
  | some parsed =>
      let fromNames := [fromSrc, fromTable].filter (· ≠ "")
      let toNames := [toSrc, toTable].filter (· ≠ "")
      .ok (lib.sql none (parsed.mapColumns fun c =>
        if c.table ∈ fromNames then Expr.col c.name fromAlias
        else if c.table ∈ toNames then Expr.col c.name toAlias
        else .column c))

/-- The edge a join gives when it is traversed from `source` known as `nodeAlias`. -/
def traverse (lib : Lib) (ss : Sources) (source : SemanticSource) (nodeSrc nodeAlias : String)
    (join : Join) : Except Err JoinEdge := do
  let toTable := match ss.get join.to_ with
    | some child => lastComponent child.table
    | none => join.to_
  let onSql ← rewriteOn lib join.on nodeSrc nodeAlias join.to_ join.alias_
    (lastComponent source.table) toTable
  return ⟨nodeSrc, nodeAlias, join, join.alias_, onSql⟩

/-- The recursion of `_all_simple_paths`: every way on from one node to the target alias. -/
def walkPaths (lib : Lib) (ss : Sources) (target : String) :
    Nat → String → String → List String → Except Err (List (List JoinEdge))
  | 0, _, _, _ => .ok []
  | n + 1, nodeAlias, nodeSrc, visited =>
      if nodeAlias = target then .ok [[]]
      else match ss.get nodeSrc with
        | none => .ok []
        | some source => do
            let found ← source.joins.mapM fun join =>
              if join.alias_ ∈ visited then .ok []
              else do
                let edge ← traverse lib ss source nodeSrc nodeAlias join
                let tails ← walkPaths lib ss target n join.alias_ join.to_ (join.alias_ :: visited)
                return tails.map (edge :: ·)
            return found.flatten

/-- `_all_simple_paths`: every simple path of declared joins from `owner` to `target`. -/
def allSimplePaths (lib : Lib) (ss : Sources) (owner target : String) :
    Except Err (List (List JoinEdge)) :=
  walkPaths lib ss target (ss.joinCount + 2) owner owner [owner]

/-- The aliases of a path, first join first. -/
def aliasesOf (path : List JoinEdge) : List String := path.map (·.alias_)

/-- `_filter_by_via`: the paths whose alias sequence starts with `via`. -/
def filterByVia (paths : List (List JoinEdge)) (via : List String) : List (List JoinEdge) :=
  paths.filter fun path => via.isPrefixOf (aliasesOf path)

/-! ## Planning -/

/-- One route as it is offered to the caller. -/
def joinPathCandidate (owner : String) (path : List JoinEdge) : JoinPathCandidate :=
  { via := aliasesOf path
    route := " → ".intercalate (owner :: aliasesOf path)
    joins := path.map fun e =>
      [("from", e.fromSource), ("to", e.join.to_), ("on", e.onSql), ("alias", e.alias_)] }

/-- With several paths, keep the ones that `via` allows. -/
def narrowByVia (owner target : String) (via : Option (List String))
    (paths : List (List JoinEdge)) : Except Err (List (List JoinEdge)) :=
  match via with
  | none => .ok paths
  | some v =>
      if 1 < paths.length then
        if (filterByVia paths v).isEmpty then
          .error (.unreachable (s!"no join path from {pyRepr owner} to {pyRepr target} passes " ++
            s!"through {pyReprList v}") [])
        else .ok (filterByVia paths v)
      else .ok paths

/-- Pick the path to one target: the only one, or the only one that `via` leaves. -/
def choosePath (lib : Lib) (ss : Sources) (owner : String) (via : Option (List String))
    (target : String) : Except Err (List JoinEdge) := do
  let paths ← allSimplePaths lib ss owner target
  if paths.isEmpty then
    .error (.unreachable
      s!"source {pyRepr target} has no declared join path from {pyRepr owner}" [])
  else
    match ← narrowByVia owner target via paths with
    | [path] => .ok path
    | paths => .error (.ambiguousJoinPath (s!"more than one join path from {pyRepr owner} to " ++
        s!"{pyRepr target}; use \"via\" to specify which path")
        owner target (paths.map (joinPathCandidate owner)))

/-- Add the edges of a path whose alias is not joined yet. -/
def mergePath (edges path : List JoinEdge) (owner : String) : List JoinEdge :=
  path.foldl (fun acc e =>
    if e.alias_ = owner ∨ e.alias_ ∈ aliasesOf acc then acc else acc ++ [e]) edges

/-- Plan one target on top of the edges planned so far. -/
def planTarget (lib : Lib) (ss : Sources) (owner : String) (via : Option (List String))
    (edges : List JoinEdge) (target : String) : Except Err (List JoinEdge) :=
  if target = owner ∨ target ∈ aliasesOf edges then .ok edges
  else do
    let path ← choosePath lib ss owner via target
    return mergePath edges path owner

/-- `plan_joins`: the ordered join edges that connect `owner` to every target alias. -/
def planJoins (lib : Lib) (ss : Sources) (owner : String) (targets : List String)
    (via : Option (List String)) : Except Err (List JoinEdge) :=
  (sortedSet targets).foldlM (planTarget lib ss owner via) []

/-! ## Reachable dimensions -/

/-- The breadth-first loop of `reachable_dimension_names` over the queue of aliases. -/
def reachableDimsLoop (ss : Sources) (tree : Dict String) :
    Nat → List String → List String → List (String × String)
  | 0, _, _ => []
  | _ + 1, [], _ => []
  | n + 1, a :: queue, seen =>
      if a ∈ seen then reachableDimsLoop ss tree n queue seen
      else match ss.get (tree.getD a a) with
        | none => reachableDimsLoop ss tree n queue (a :: seen)
        | some s =>
            s.dimensions.map (fun d => (a, d.name)) ++
              reachableDimsLoop ss tree n
                (queue ++ (s.joins.map Join.alias_).filter (· ∉ a :: seen)) (a :: seen)

/-- `reachable_dimension_names`: each reachable dimension as a caller can request it, with its
alias; the name is qualified when several aliases carry it. -/
def reachableDimensionNames (ss : Sources) (sourceName : String) : List (String × String) :=
  let tree := buildAliasTree ss sourceName
  let dims := reachableDimsLoop ss tree (ss.joinCount * (tree.length + 1) + 1) [sourceName] []
  let entry (p : String × String) : String × String :=
    (if 1 < (dims.filter fun q => q.2 == p.2).length then p.1 ++ "." ++ p.2 else p.2, p.1)
  (dims.map entry).foldl (fun acc p => if acc.any (fun q => q.1 == p.1) then acc else acc ++ [p]) []

end Canonic
