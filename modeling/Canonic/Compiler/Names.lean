import Canonic.Compiler.Parse
import Canonic.Compiler.Query

set_option autoImplicit false

/-! # Name binding

`_helpers.py`: how a name in a query, a filter or a contract becomes a dimension or a column of
an alias. A name with a dot is split at the first one into a join alias and a dimension; a bare
name is looked up on the owner first and then on every alias of the alias tree. -/

namespace Canonic

open Sql (Expr)

/-! ## Dimensions -/

/-- The loaded sources by name (`sorted(sources_by_name)`). -/
def Sources.sorted (ss : Sources) : List SemanticSource :=
  ss.list.insertionSort fun a b => a.name ≤ b.name

/-- A dictionary by key. -/
def Dict.sorted {α : Type} (d : Dict α) : Dict α := d.insertionSort fun a b => a.1 ≤ b.1

/-- Enter the joins of one source: unseen targets are recorded and pushed. -/
def visitTargets (st : List String × List String) (join : Join) : List String × List String :=
  if join.to_ ∈ st.1 then st else (st.1 ++ [join.to_], join.to_ :: st.2)

/-- The depth-first loop of `_reachable_from` over the visited names and the frontier. -/
def reachableLoop (ss : Sources) : Nat → List String → List String → List String
  | 0, visited, _ => visited
  | _ + 1, visited, [] => visited
  | n + 1, visited, node :: frontier =>
      match ss.get node with
      | none => reachableLoop ss n visited frontier
      | some s =>
          let st := s.joins.foldl visitTargets (visited, frontier)
          reachableLoop ss n st.1 st.2

/-- `_reachable_from`: the sources joins lead to, the owner itself left out. -/
def reachableFrom (ss : Sources) (owner : String) : List String :=
  (reachableLoop ss (ss.joinCount + 1) [owner] [owner]).filter (· ≠ owner)

/-- The first dimension of a source that a name matches. -/
def SemanticSource.findDim (s : SemanticSource) (name : String) : Option Dimension :=
  s.dimensions.find? fun d => d.dimMatches name

/-- The aliases a bare name is looked up on after the owner. -/
def reachableAliases (ss : Sources) (owner : String) : Option (Dict String) → Dict String
  | some tree => tree.filter fun p => p.1 ≠ owner
  | none => (reachableFrom ss owner).map fun s => (s, s)

/-- The dimensions of one alias that a name matches. -/
def aliasCandidates (ss : Sources) (name : String) (p : String × String) :
    List (String × Dimension) :=
  match ss.get p.2 with
  | none => []
  | some s => (s.dimensions.filter fun d => d.dimMatches name).map fun d => (p.1, d)

/-- A bare name: the owner wins, else the only match among the reachable aliases. -/
def findBareDimension (ss : Sources) (name owner : String) (tree : Option (Dict String)) :
    Except Err (Option (String × Dimension)) :=
  match (ss.get owner).bind (·.findDim name) with
  | some d => .ok (some (owner, d))
  | none =>
      match (reachableAliases ss owner tree).sorted.flatMap (aliasCandidates ss name) with
      | [] => .ok none
      | [c] => .ok (some c)
      | cs => .error (.ambiguous (s!"dimension {pyRepr name} is present on multiple " ++
          "join-reachable sources; qualify explicitly")
          (cs.map fun c => c.1 ++ "." ++ c.2.name))

/-- A name qualified by a join alias. -/
def findQualifiedDimension (ss : Sources) (role name : String) (tree : Option (Dict String)) :
    Option (String × Dimension) :=
  ((tree.bind fun t => t.get role).bind fun src => (ss.get src).bind (·.findDim name)).map
    fun d => (role, d)

/-- `_find_dimension`: the alias and dimension a name stands for, seen from `owner`. -/
def findDimension (ss : Sources) (name owner : String) (tree : Option (Dict String)) :
    Except Err (Option (String × Dimension)) :=
  match splitRole name with
  | some (role, rest) => .ok (findQualifiedDimension ss role rest tree)
  | none => findBareDimension ss name owner tree

/-- `_dimension_suggestions`: close matches among names, aliases and labels. -/
def dimensionSuggestions (lib : Lib) (name : String) (ss : List SemanticSource) : List String :=
  let tokens : Dict String := (ss.flatMap (·.dimensions)).foldl (fun acc d =>
    let names := d.name :: d.aliases ++ (d.label.toList.filter (· ≠ ""))
    names.foldl (fun acc n => acc.set (lib.lower n) d.name) acc) []
  ((lib.getCloseMatches (lib.lower name) (tokens.map (·.1))).filterMap tokens.get).foldl
    (fun acc n => if n ∈ acc then acc else acc ++ [n]) []

/-- One requested dimension. -/
def resolveDimension (env : Env) (owner : String) (tree : Dict String) (name : String) :
    Except Err (String × Dimension) := do
  match ← findDimension env.sources name owner (some tree) with
  | some found => .ok found
  | none =>
      let reachable := (tree.map (·.2)).dedup.filterMap env.sources.get
      let suggestions := dimensionSuggestions env.lib name reachable
      .error (.unreachable (s!"dimension {pyRepr name} is not declared on any reachable source" ++
        suggestionHint suggestions) suggestions)

/-- `_resolve_dimensions`: the requested dimensions, in request order. -/
def resolveDimensions (env : Env) (dimensions : List String) (owner : String)
    (tree : Dict String) : Except Err (List (String × Dimension)) :=
  dimensions.mapM (resolveDimension env owner tree)

/-- `_dimension_output_names`: a name that several dimensions share is qualified by its role. -/
def dimensionOutputNames (dims : List (String × Dimension)) : List String :=
  dims.map fun p =>
    if (dims.filter fun q => q.2.name == p.2.name).length = 1 then p.2.name
    else p.1 ++ "." ++ p.2.name

/-! ## The value of a dimension -/

/-- `_dimension_base_expr`: a dimension's value before time bucketing. A JSON key is read from
the stored column. -/
def dimensionBaseExpr (env : Env) (shifted : ShiftMap) (source : String) (dim : Dimension) :
    Except Err Expr :=
  match dim.expr, dim.column, dim.jsonPath, dim.type with
  | some e, _, _, _ => do
      let parsed ← env.parse e
      return env.shift shifted (qualifyTo parsed source)
  | none, some c, none, _ => .ok (env.shift shifted (Expr.col c source))
  | none, some c, some path, some type =>
      .ok (env.adapter.jsonValue (Expr.col c source) path type)
  | none, _, _, _ => .error (.internal "AssertionError")

/-! ## Columns -/

/-- The first of the other sources, by name, that has a column. -/
def otherSourceWith (ss : Sources) (name owner : String) : Option String :=
  (ss.sorted.find? fun s => s.name ≠ owner && s.hasColumn name).map (·.name)

/-- `_bind_name`: a bare name as an alias and a physical column. -/
def bindName (ss : Sources) (name owner : String) (tree : Option (Dict String)) :
    Except Err (Option (String × String)) := do
  let found ← findDimension ss name owner tree
  match found.bind fun p => if p.2.jsonPath.isNone then p.2.column.map (p.1, ·) else none with
  | some b => .ok (some b)
  | none =>
      if ((ss.get owner).map (·.hasColumn name)).getD false then .ok (some (owner, name))
      else .ok ((otherSourceWith ss name owner).map fun s => (s, name))

/-- A derived dimension in a filter is inlined. -/
def derivedExpr (env : Env) (shifted : ShiftMap) (alias_ : String) (dim : Dimension) :
    Except Err (Expr × List String) := do
  let e ← dimensionBaseExpr env shifted alias_ dim
  return (.node .paren [e], [alias_])

/-- A column that is qualified in the filter and names no dimension of its role. -/
def physicalColumn (env : Env) (tree : Dict String) (c : Sql.Column) :
    Except Err (Expr × List String) :=
  match env.sources.get (tree.getD c.table c.table) with
  | none => .error (.unreachable s!"filter references unknown role {pyRepr c.table}" [])
  | some s =>
      if s.hasColumn c.name then .ok (.column c, [c.table])
      else
        let suggestions := dimensionSuggestions env.lib c.name [s]
        .error (.unreachable (s!"filter references unknown name {pyRepr c.name} on " ++
          pyRepr c.table ++ suggestionHint suggestions) suggestions)

/-- A dimension named with its role: its column, or its expression inlined. -/
def qualifiedDimension (env : Env) (shifted : ShiftMap) (c : Sql.Column) (alias_ : String)
    (dim : Dimension) : Except Err (Expr × List String) :=
  if dim.isDerived then do
    let r ← derivedExpr env shifted alias_ dim
    return (r.1, c.table :: r.2)
  else match dim.column with
    | some col => .ok (Expr.col col alias_, [c.table])
    | none => .ok (.column c, [c.table])

/-- A column that the filter qualifies. Without an alias tree, and with a third qualifier, it
passes as it is. -/
def qualifiedColumn (env : Env) (shifted : ShiftMap) (owner : String)
    (tree : Option (Dict String)) (c : Sql.Column) : Except Err (Expr × List String) :=
  match tree with
  | none => .ok (.column c, [c.table])
  | some t =>
      if c.db ≠ "" then .ok (.column c, [c.table])
      else do
        match ← findDimension env.sources (c.table ++ "." ++ c.name) owner tree with
        | some (alias_, dim) => qualifiedDimension env shifted c alias_ dim
        | none => physicalColumn env t c

/-- A bare column: a derived dimension first, then whatever `bindName` finds. -/
def bareColumn (env : Env) (shifted : ShiftMap) (owner : String) (tree : Option (Dict String))
    (c : Sql.Column) : Except Err (Expr × List String) := do
  match (← findDimension env.sources c.name owner tree).filter (·.2.isDerived) with
  | some (alias_, dim) => derivedExpr env shifted alias_ dim
  | none =>
      match ← bindName env.sources c.name owner tree with
      | some (alias_, col) => .ok (Expr.col col alias_, [alias_])
      | none => .error (.unreachable s!"filter references unknown name {pyRepr c.name}" [])

/-- The rewriting of one column in a filter. -/
def qualifyColumn (env : Env) (shifted : ShiftMap) (owner : String) (tree : Option (Dict String))
    (c : Sql.Column) : Except Err (Expr × List String) :=
  if c.table ≠ "" then qualifiedColumn env shifted owner tree c
  else bareColumn env shifted owner tree c

/-- `_qualify_columns`: every column of a filter bound to an alias, and the aliases used. -/
def qualifyColumns (env : Env) (shifted : ShiftMap) (e : Expr) (owner : String)
    (tree : Option (Dict String)) : Except Err (Expr × List String) :=
  e.mapColumnsM (qualifyColumn env shifted owner tree)

/-! ## Offsets against one leaf -/

/-- Add one offset to the column it moves. -/
def ShiftMap.add (m : ShiftMap) (key : String × String) (offset : Duration) (isDate : Bool) :
    ShiftMap :=
  let earlier := ((m.lookup key).map (·.offsets)).getD []
  if (m.lookup key).isSome then
    m.map fun p => if p.1 = key then (key, ⟨earlier ++ [offset], isDate⟩) else p
  else m ++ [(key, ⟨[offset], isDate⟩)]

/-- One offset: every column its time dimension reads moves. -/
def resolveShift (env : Env) (owner : String) (tree : Dict String) (m : ShiftMap)
    (shift : TimeShift) : Except Err ShiftMap := do
  match ← findDimension env.sources shift.timeDimension owner (some tree) with
  | none => .error (.unreachable (s!"offset time_dimension {pyRepr shift.timeDimension} is not " ++
      "declared on any reachable source") [])
  | some (alias_, dim) =>
      let source ← env.sources.getKey (tree.getD alias_ alias_)
      return (dim.backingColumns env.lib).foldl (fun m column =>
        m.add (alias_, column) shift.offset (source.columnType column ≠ some .timestamp)) m

/-- `_resolve_shifts`: the columns a leaf moves, each by its offsets in order. -/
def resolveShifts (env : Env) (shifts : List TimeShift) (owner : String) (tree : Dict String) :
    Except Err ShiftMap :=
  shifts.foldlM (resolveShift env owner tree) []

end Canonic
