import Canonic.Contracts.Resolver
import Canonic.Except

set_option autoImplicit false

/-! # Walks along metric names

`resolve_metric` of `contracts/resolver.py` and `_domain_source` of `core/discovery.py` follow the
metrics a binding is computed from. Each keeps the names it has seen: the first the names it was
asked for, the second the metric names of the bindings it has passed. Both are written here with a
bound on the nesting of calls, and `none` where the bound is reached, so that a walk that ends can
be told from one that does not. -/

namespace Canonic

open Relation (ReflTransGen TransGen)

namespace ContractResolver

/-- `_resolve_binding` and `_resolve_component` with at most so many nested calls. -/
def resolveWithin (r : ContractResolver) :
    ℕ → List String → MetricBinding → ExceptT ResolveFailure Option Binding
  | 0, _, _ => ExceptT.mk none
  | n + 1, seen, b =>
      let component (name : String) : ExceptT ResolveFailure Option Binding :=
        if name ∈ seen then throw (.unresolved name)
        else do
          let b' ← ExceptT.mk (some (r.lookupName name))
          r.resolveWithin n (name :: seen) b'
      match b.canonical.of with
      | .offset base dim off => do return .offset b (← component base) dim off
      | .derived expr inputs => do
          let resolved ← inputs.mapM fun i => component i.metric
          return .derived b expr (inputs.map (·.name)) resolved
      | .conversion base conv params => do
          let base ← component base
          let conv ← component conv
          return .conversion b base conv params
      | .ratio num den => do
          let num ← component num
          let den ← component den
          return .composite b num den
      | .weightedAvg ws w => do
          let num ← component ws
          let den ← component w
          return .composite b num den
      | .single .. | .semiAdditive .. | .distinctCount .. | .percentile .. | .opaque_ ..
      | .cumulative .. => return .leaf b

/-- `resolve_metric` with at most so many nested calls. -/
def resolveMetricWithin (r : ContractResolver) (n : ℕ) (name : String) :
    Option (Except ResolveFailure Binding) :=
  match r.lookupName name with
  | .error e => some (.error e)
  | .ok b => (r.resolveWithin n [name] b).run

/-- The first metric a binding is computed from, none for a source-bound kind. -/
def firstName (b : MetricBinding) : Option String :=
  if b.canonical.of.sourceBound.isSome then none else b.canonical.of.dependencyNames.head?

/-- `_domain_source` with at most so many nested calls. -/
def domainSourceWithin (r : ContractResolver) :
    ℕ → List String → MetricBinding → Option (Option String)
  | 0, _, _ => none
  | n + 1, seen, b =>
      match b.canonical.of.sourceBound with
      | some (source, _) => some (some source)
      | none =>
          match b.canonical.of.dependencyNames.head? with
          | none => some none
          | some first =>
              if first ∈ seen then some none
              else
                match r.nameIndex first with
                | [] => some none
                | candidate :: _ => r.domainSourceWithin n (b.metric :: seen) candidate

/-! ## The resolver ends -/

/-- The names and aliases of the active bindings. -/
def indexNames (r : ContractResolver) : List String := r.activeBindings.flatMap (·.names)

/-- How many of them are not seen. -/
def unseen (r : ContractResolver) (seen : List String) : ℕ :=
  (r.indexNames.filter (· ∉ seen)).length

variable {r : ContractResolver}

theorem mem_indexNames {name : String} {b : MetricBinding} (h : b ∈ r.nameIndex name) :
    name ∈ r.indexNames := by
  obtain ⟨a, ha, hb⟩ := List.mem_flatMap.mp h
  obtain ⟨n, hn, -⟩ := List.mem_map.mp hb
  obtain ⟨hmem, heq⟩ := List.mem_filter.mp hn
  rw [beq_iff_eq] at heq
  exact List.mem_flatMap.mpr ⟨a, ha, heq ▸ hmem⟩

theorem active_of_nameIndex {name : String} {b : MetricBinding} (h : b ∈ r.nameIndex name) :
    b ∈ r.activeBindings := by
  obtain ⟨a, ha, hb⟩ := List.mem_flatMap.mp h
  obtain ⟨n, -, rfl⟩ := List.mem_map.mp hb
  exact ha

theorem nameIndex_of_lookupName {name : String} {b : MetricBinding}
    (h : r.lookupName name = .ok b) : r.nameIndex name = [b] := by
  unfold lookupName at h
  split at h
  · cases h
  · rename_i c hc
    rw [hc, Except.ok.inj h]
  · cases h

/-- A name that is looked up for the first time is one less to see. -/
theorem unseen_lt {seen : List String} {name : String} {b : MetricBinding} (hnew : name ∉ seen)
    (h : r.lookupName name = .ok b) : r.unseen (name :: seen) < r.unseen seen := by
  have hmem : name ∈ r.indexNames :=
    mem_indexNames (by rw [nameIndex_of_lookupName h]; exact List.mem_singleton.mpr rfl)
  unfold unseen
  have hsub : (r.indexNames.filter (· ∉ name :: seen)) =
      (r.indexNames.filter (· ∉ seen)).filter (· ≠ name) := by
    rw [List.filter_filter]
    congr 1
    funext x
    simp [not_or]
  rw [hsub]
  apply List.length_filter_lt_length_iff_exists.mpr
  exact ⟨name, List.mem_filter.mpr ⟨hmem, by simpa using hnew⟩, by simp⟩

/-! A computation that ends, among those that may not. -/

theorem mk_bind {α β : Type} (x : Except ResolveFailure α) (f : α → Except ResolveFailure β) :
    (ExceptT.mk (some x) >>= fun a => (ExceptT.mk (some (f a)) : ExceptT ResolveFailure Option β)) =
      ExceptT.mk (some (x >>= f)) := by
  cases x with
  | error e => rfl
  | ok a => rfl

theorem mk_bind_bind {α β γ : Type} (x : Except ResolveFailure α) (y : Except ResolveFailure β)
    (k : α → β → γ) :
    (ExceptT.mk (some x) >>= fun a => ExceptT.mk (some y) >>= fun b =>
        (pure (k a b) : ExceptT ResolveFailure Option γ)) =
      ExceptT.mk (some (x >>= fun a => y >>= fun b => pure (k a b))) := by
  cases x with
  | error e => rfl
  | ok a =>
      cases y with
      | error e => rfl
      | ok b => rfl

theorem mk_mapM {α β : Type} {f : α → ExceptT ResolveFailure Option β}
    {g : α → Except ResolveFailure β} (h : ∀ a, f a = ExceptT.mk (some (g a))) (l : List α) :
    l.mapM f = ExceptT.mk (some (l.mapM g)) := by
  induction l with
  | nil => rfl
  | cons a l ih =>
      rw [List.mapM_cons, List.mapM_cons, h a, ih]
      have htail : ∀ b, ((ExceptT.mk (some (l.mapM g)) >>= fun bs => pure (b :: bs)) :
          ExceptT ResolveFailure Option (List β)) =
            ExceptT.mk (some (l.mapM g >>= fun bs => pure (b :: bs))) :=
        fun b => mk_bind (l.mapM g) fun bs => pure (b :: bs)
      simp only [htail]
      exact mk_bind (g a) fun b => l.mapM g >>= fun bs => pure (b :: bs)

/-- Deeper than the unseen names no call nests. -/
theorem resolveWithin_eq (n : ℕ) : ∀ {m : ℕ} {seen : List String} {b : MetricBinding},
    r.unseen seen < n → r.unseen seen < m →
      r.resolveWithin n seen b = ExceptT.mk (some (r.resolveBinding m seen b)) := by
  induction n with
  | zero => exact fun hn => absurd hn (Nat.not_lt_zero _)
  | succ n ih =>
      intro m seen b hn hm
      obtain ⟨m, rfl⟩ := Nat.exists_eq_succ_of_ne_zero (Nat.ne_zero_of_lt hm)
      have hcomponent : ∀ name, (if name ∈ seen then throw (.unresolved name)
          else do
            let b' ← ExceptT.mk (some (r.lookupName name))
            r.resolveWithin n (name :: seen) b' : ExceptT ResolveFailure Option Binding) =
          ExceptT.mk (some (if name ∈ seen then .error (.unresolved name)
            else do
              let b' ← r.lookupName name
              r.resolveBinding m (name :: seen) b')) := by
        intro name
        by_cases hseen : name ∈ seen
        · rw [if_pos hseen, if_pos hseen]
          rfl
        · rw [if_neg hseen, if_neg hseen]
          cases hlook : r.lookupName name with
          | error e => rfl
          | ok b' =>
              have hlt := unseen_lt hseen hlook
              show r.resolveWithin n (name :: seen) b' = _
              rw [@ih m (name :: seen) b' (by omega) (by omega)]
              rfl
      rw [resolveWithin, resolveBinding]
      simp only [hcomponent]
      cases b.canonical.of with
      | single _ _ | semiAdditive _ _ _ _ | distinctCount _ _ _ | percentile _ _ _ _
      | opaque_ _ _ _ | cumulative _ _ _ => rfl
      | offset base dim off => exact mk_bind _ _
      | derived expr inputs =>
          simp only [mk_mapM fun i : DerivedInput => rfl]
          exact mk_bind _ _
      | conversion base conv p =>
          exact mk_bind_bind _ _ fun t u => Binding.conversion b t u p
      | ratio num den | weightedAvg num den =>
          exact mk_bind_bind _ _ fun t u => Binding.composite b t u

theorem unseen_le (seen : List String) : r.unseen seen ≤ r.nameCount := by
  rw [unseen, nameCount, indexNames]
  have hle := List.length_filter_le (fun x => decide (x ∉ seen))
    (r.activeBindings.flatMap (·.names))
  rwa [List.length_flatMap] at hle

/-- With one call for each name of the project, `resolve_metric` returns. -/
theorem resolveMetricWithin_eq {n : ℕ} (h : r.nameCount < n) (name : String) :
    r.resolveMetricWithin n name = some (r.resolveMetric name) := by
  unfold resolveMetricWithin resolveMetric
  cases hlook : r.lookupName name with
  | error e => rfl
  | ok b =>
      have hle := unseen_le (r := r) [name]
      show (r.resolveWithin n [name] b).run = _
      rw [@resolveWithin_eq r n (r.nameCount + 1) [name] b (by omega) (by omega)]
      rfl

/-! ## Metrics that depend on themselves -/

/-- A binding is computed from a metric that the other one may stand for. -/
def Requires (r : ContractResolver) (b b' : MetricBinding) : Prop :=
  ∃ name ∈ b.canonical.of.dependencyNames, b' ∈ r.nameIndex name

/-- A binding is computed, directly or through others, from itself. -/
def DependsOnItself (r : ContractResolver) (b : MetricBinding) : Prop := TransGen r.Requires b b

/-- Every name a binding is computed from, directly or through others, stands for one metric at
most. -/
def Unambiguous (r : ContractResolver) (b : MetricBinding) : Prop :=
  ∀ b', ReflTransGen r.Requires b b' → ∀ name ∈ b'.canonical.of.dependencyNames,
    (r.nameIndex name).length ≤ 1

/-- What a binding that resolves is computed from resolves. -/
theorem resolveBinding_component {n : ℕ} {seen : List String} {b : MetricBinding} {t : Binding}
    (h : r.resolveBinding (n + 1) seen b = .ok t) {name : String}
    (hname : name ∈ b.canonical.of.dependencyNames) :
    ∃ b' u, r.lookupName name = .ok b' ∧ r.resolveBinding n (name :: seen) b' = .ok u := by
  have hcomponent : ∀ u, (if name ∈ seen then (.error (.unresolved name) : Except _ Binding)
      else (r.lookupName name >>= fun b' => r.resolveBinding n (name :: seen) b')) = .ok u →
      ∃ b' u, r.lookupName name = .ok b' ∧ r.resolveBinding n (name :: seen) b' = .ok u := by
    intro u hu
    by_cases hseen : name ∈ seen
    · rw [if_pos hseen] at hu
      cases hu
    · rw [if_neg hseen, bind_eq_ok] at hu
      obtain ⟨b', hb', hres⟩ := hu
      exact ⟨b', u, hb', hres⟩
  rw [resolveBinding] at h
  cases hof : b.canonical.of with
  | single _ _ | semiAdditive _ _ _ _ | distinctCount _ _ _ | percentile _ _ _ _ | opaque_ _ _ _
  | cumulative _ _ _ => simp [hof, CanonicalKind.dependencyNames] at hname
  | offset base dim off =>
      rw [hof] at h hname
      obtain rfl := List.mem_singleton.mp hname
      obtain ⟨u, hu, -⟩ := bind_eq_ok.mp h
      exact hcomponent u hu
  | derived expr inputs =>
      rw [hof] at h hname
      obtain ⟨i, hi, rfl⟩ := List.mem_map.mp hname
      obtain ⟨ts, hts, -⟩ := bind_eq_ok.mp h
      obtain ⟨u, -, hu⟩ := forall₂_mem_left (mapM_eq_ok.mp hts) hi
      exact hcomponent u hu
  | conversion base conv p =>
      rw [hof] at h hname
      obtain ⟨u, hu, h⟩ := bind_eq_ok.mp h
      obtain ⟨v, hv, -⟩ := bind_eq_ok.mp h
      rcases List.mem_pair.mp hname with rfl | rfl
      · exact hcomponent u hu
      · exact hcomponent v hv
  | ratio num den | weightedAvg num den =>
      rw [hof] at h hname
      obtain ⟨u, hu, h⟩ := bind_eq_ok.mp h
      obtain ⟨v, hv, -⟩ := bind_eq_ok.mp h
      rcases List.mem_pair.mp hname with rfl | rfl
      · exact hcomponent u hu
      · exact hcomponent v hv

/-- What a binding that resolves is computed from goes no way round. -/
theorem acc_of_resolveBinding {n : ℕ} : ∀ {seen : List String} {b : MetricBinding} {t : Binding},
    r.resolveBinding n seen b = .ok t → Acc (fun b' b => r.Requires b b') b := by
  induction n with
  | zero =>
      intro seen b t h
      cases h
  | succ n ih =>
      intro seen b t h
      constructor
      rintro b' ⟨name, hname, hb'⟩
      obtain ⟨c, u, hlook, hres⟩ := resolveBinding_component h hname
      rw [nameIndex_of_lookupName hlook, List.mem_singleton] at hb'
      rw [hb']
      exact ih hres

theorem not_dependsOnItself {b : MetricBinding} (h : Acc (fun b' b => r.Requires b b') b) :
    ¬ r.DependsOnItself b := by
  induction h with
  | intro b _ ih =>
      intro hself
      obtain ⟨c, hstep, hrest⟩ := TransGen.head'_iff.mp hself
      exact ih c hstep (TransGen.tail' hrest hstep)

theorem Unambiguous.requires {b b' : MetricBinding} (h : r.Unambiguous b)
    (hstep : r.Requires b b') : r.Unambiguous b' := fun _ hreach =>
  h _ (ReflTransGen.head hstep hreach)

theorem lookupName_unresolved {name : String} {e : ResolveFailure}
    (hone : (r.nameIndex name).length ≤ 1) (h : r.lookupName name = .error e) :
    e = .unresolved name := by
  unfold lookupName at h
  split at h
  · exact (Except.error.inj h).symm
  · cases h
  · rename_i hnil hsingle
    cases hindex : r.nameIndex name with
    | nil => exact absurd hindex hnil
    | cons c cs =>
        cases cs with
        | nil => exact absurd hindex (hsingle c)
        | cons d ds =>
            rw [hindex, List.length_cons, List.length_cons] at hone
            omega

/-- Where no name on the way is ambiguous, what does not resolve is unresolved. -/
theorem resolveBinding_unresolved {n : ℕ} : ∀ {seen : List String} {b : MetricBinding}
    {e : ResolveFailure}, r.Unambiguous b → r.resolveBinding n seen b = .error e →
      ∃ name, e = .unresolved name := by
  induction n with
  | zero =>
      intro seen b e _ h
      exact ⟨b.metric, (Except.error.inj h).symm⟩
  | succ n ih =>
      intro seen b e hone h
      -- an error of a dependency is its own lookup, or comes from further down
      have hcomponent : ∀ name ∈ b.canonical.of.dependencyNames,
          (if name ∈ seen then (.error (.unresolved name) : Except _ Binding)
            else (r.lookupName name >>= fun b' => r.resolveBinding n (name :: seen) b')) =
              .error e → ∃ name, e = .unresolved name := by
        intro name hname he
        by_cases hseen : name ∈ seen
        · rw [if_pos hseen] at he
          exact ⟨name, (Except.error.inj he).symm⟩
        · rw [if_neg hseen] at he
          rcases bind_eq_error.mp he with hlook | ⟨b', hlook, hres⟩
          · exact ⟨name, lookupName_unresolved (hone b ReflTransGen.refl name hname) hlook⟩
          · have hstep : r.Requires b b' := by
              refine ⟨name, hname, ?_⟩
              rw [nameIndex_of_lookupName hlook]
              exact List.mem_singleton.mpr rfl
            exact ih (hone.requires hstep) hres
      rw [resolveBinding] at h
      cases hof : b.canonical.of with
      | single _ _ | semiAdditive _ _ _ _ | distinctCount _ _ _ | percentile _ _ _ _
      | opaque_ _ _ _ | cumulative _ _ _ =>
          rw [hof] at h
          cases h
      | offset base dim off =>
          rw [hof] at h hcomponent
          rcases bind_eq_error.mp h with h | ⟨t, -, h⟩
          · exact hcomponent base (by simp [CanonicalKind.dependencyNames]) h
          · cases h
      | derived expr inputs =>
          rw [hof] at h hcomponent
          rcases bind_eq_error.mp h with h | ⟨ts, -, h⟩
          · obtain ⟨i, hi, he⟩ := exists_mem_of_mapM_error h
            exact hcomponent i.metric (List.mem_map_of_mem hi) he
          · cases h
      | conversion base conv p =>
          rw [hof] at h hcomponent
          rcases bind_eq_error.mp h with h | ⟨t, -, h⟩
          · exact hcomponent base (by simp [CanonicalKind.dependencyNames]) h
          · rcases bind_eq_error.mp h with h | ⟨u, -, h⟩
            · exact hcomponent conv (by simp [CanonicalKind.dependencyNames]) h
            · cases h
      | ratio num den | weightedAvg num den =>
          rw [hof] at h hcomponent
          rcases bind_eq_error.mp h with h | ⟨t, -, h⟩
          · exact hcomponent num (by simp [CanonicalKind.dependencyNames]) h
          · rcases bind_eq_error.mp h with h | ⟨u, -, h⟩
            · exact hcomponent den (by simp [CanonicalKind.dependencyNames]) h
            · cases h

/-- A metric that depends on itself does not resolve, and is unresolved where no name on the way is
ambiguous. -/
theorem resolveMetric_self {b : MetricBinding} (hself : r.DependsOnItself b) {name : String}
    (hname : b ∈ r.nameIndex name) : ∃ e, r.resolveMetric name = .error e ∧
      ((r.nameIndex name).length ≤ 1 → r.Unambiguous b → ∃ n, e = .unresolved n) := by
  cases hres : r.resolveMetric name with
  | ok t =>
      exfalso
      obtain ⟨c, hlook, hok⟩ := bind_eq_ok.mp hres
      rw [nameIndex_of_lookupName hlook, List.mem_singleton] at hname
      subst hname
      exact not_dependsOnItself (acc_of_resolveBinding hok) hself
  | error e =>
      refine ⟨e, rfl, fun hone hb => ?_⟩
      rcases bind_eq_error.mp hres with hlook | ⟨c, hlook, herror⟩
      · exact ⟨name, lookupName_unresolved hone hlook⟩
      · rw [nameIndex_of_lookupName hlook, List.mem_singleton] at hname
        subst hname
        exact resolveBinding_unresolved hb herror

/-! ## The domain walk -/

/-- The metric the domain walk goes on to, and the name it asks for. -/
def follows (r : ContractResolver) (b : MetricBinding) : Option (String × MetricBinding) :=
  match b.canonical.of.sourceBound with
  | some _ => none
  | none =>
      match b.canonical.of.dependencyNames.head? with
      | none => none
      | some first => (r.nameIndex first).head?.map fun candidate => (first, candidate)

/-- Where the walk goes on from a binding; it stays where it ends. -/
def advance (r : ContractResolver) (b : MetricBinding) : MetricBinding :=
  ((r.follows b).map (·.2)).getD b

/-- The walk comes back to a binding, and from there on asks for no metric by the name of a binding
it has passed: every metric on the loop is reached under an alias. -/
def LoopsThroughAliases (r : ContractResolver) (b : MetricBinding) : Prop :=
  ∃ start period, 0 < period ∧ r.advance^[start + period] b = r.advance^[start] b ∧
    ∀ k ≥ start, ∃ name next, r.follows (r.advance^[k] b) = some (name, next) ∧
      ∀ j, (r.advance^[j] b).metric ≠ name

/-- One call of the walk: it returns, or goes on from the next binding. -/
theorem domainSourceWithin_succ (seen : List String) (b : MetricBinding) :
    (∃ res, ∀ m, r.domainSourceWithin (m + 1) seen b = some res) ∨
      ∃ name next, r.follows b = some (name, next) ∧ name ∉ seen ∧
        ∀ m, r.domainSourceWithin (m + 1) seen b =
          r.domainSourceWithin m (b.metric :: seen) next := by
  simp only [domainSourceWithin, follows]
  cases b.canonical.of.sourceBound with
  | some found => exact Or.inl ⟨some found.1, fun m => rfl⟩
  | none =>
      cases b.canonical.of.dependencyNames.head? with
      | none => exact Or.inl ⟨none, fun m => rfl⟩
      | some first =>
          by_cases hseen : first ∈ seen
          · exact Or.inl ⟨none, fun m => if_pos hseen⟩
          · cases hindex : r.nameIndex first with
            | nil => exact Or.inl ⟨none, fun m => by simp only [hseen, hindex, if_false]⟩
            | cons c cs =>
                right
                refine ⟨first, c, by simp [hindex], hseen, fun m => ?_⟩
                simp only [hseen, hindex, if_false]

theorem domainSourceWithin_mono (n : ℕ) : ∀ {seen : List String} {b : MetricBinding}
    {res : Option String}, r.domainSourceWithin n seen b = some res →
      ∀ m ≥ n, r.domainSourceWithin m seen b = some res := by
  induction n with
  | zero =>
      intro seen b res h
      cases h
  | succ n ih =>
      intro seen b res h m hm
      obtain ⟨m, rfl⟩ := Nat.exists_eq_add_of_le hm
      rw [Nat.add_right_comm]
      rcases domainSourceWithin_succ (r := r) seen b with ⟨res', hres⟩ | ⟨name, next, -, -, hgo⟩
      · rw [hres] at h ⊢
        exact h
      · rw [hgo] at h ⊢
        exact ih h _ (Nat.le_add_right n m)

theorem advance_of_follows {b next : MetricBinding} {name : String}
    (h : r.follows b = some (name, next)) : r.advance b = next := by
  rw [advance, h]
  rfl

theorem active_of_follows {b next : MetricBinding} {name : String}
    (h : r.follows b = some (name, next)) : next ∈ r.activeBindings := by
  unfold follows at h
  split at h
  · cases h
  · split at h
    · cases h
    · rename_i first _
      obtain ⟨c, hc, heq⟩ := Option.map_eq_some_iff.mp h
      cases heq
      exact active_of_nameIndex (List.mem_of_mem_head? hc)

/-- A walk that never returns goes on at each step, by a name that is the metric name of no binding
it has passed. -/
theorem follows_of_endless {b : MetricBinding} (h : ∀ n, r.domainSourceWithin n [] b = none)
    (k : ℕ) : ∃ name next, r.follows (r.advance^[k] b) = some (name, next) ∧
      ∀ j < k, (r.advance^[j] b).metric ≠ name := by
  have hseen : ∀ k, ∃ seen, (∀ n, r.domainSourceWithin n seen (r.advance^[k] b) = none) ∧
      ∀ j < k, (r.advance^[j] b).metric ∈ seen := by
    intro k
    induction k with
    | zero => exact ⟨[], h, fun j hj => absurd hj (Nat.not_lt_zero j)⟩
    | succ k ih =>
        obtain ⟨seen, hnone, hmem⟩ := ih
        rcases domainSourceWithin_succ (r := r) seen (r.advance^[k] b) with
          ⟨res, hres⟩ | ⟨name, next, hfollows, -, hgo⟩
        · have hcontra := hnone 1
          rw [hres] at hcontra
          cases hcontra
        · refine ⟨(r.advance^[k] b).metric :: seen, fun n => ?_, fun j hj => ?_⟩
          · rw [Function.iterate_succ_apply', advance_of_follows hfollows, ← hgo n]
            exact hnone (n + 1)
          · rcases Nat.lt_succ_iff_lt_or_eq.mp hj with hj | rfl
            · exact List.mem_cons_of_mem _ (hmem j hj)
            · exact List.mem_cons_self
  obtain ⟨seen, hnone, hmem⟩ := hseen k
  rcases domainSourceWithin_succ (r := r) seen (r.advance^[k] b) with
    ⟨res, hres⟩ | ⟨name, next, hfollows, hnew, -⟩
  · have hcontra := hnone 1
    rw [hres] at hcontra
    cases hcontra
  · exact ⟨name, next, hfollows, fun j hj heq => hnew (heq ▸ hmem j hj)⟩

/-- A walk that never returns loops, since there are finitely many bindings, and the names it
follows on the loop come round again after every binding is passed. -/
theorem loopsThroughAliases_of_endless {b : MetricBinding}
    (h : ∀ n, r.domainSourceWithin n [] b = none) : r.LoopsThroughAliases b := by
  have hactive : ∀ k, r.advance^[k + 1] b ∈ r.activeBindings := by
    intro k
    obtain ⟨name, next, hfollows, -⟩ := follows_of_endless h k
    rw [Function.iterate_succ_apply', advance_of_follows hfollows]
    exact active_of_follows hfollows
  have hfinite : Finite {c // c ∈ r.activeBindings} :=
    (List.finite_toSet r.activeBindings).to_subtype
  obtain ⟨i, j, hne, heq⟩ := Finite.exists_ne_map_eq_of_infinite
    fun k : ℕ => (⟨r.advance^[k + 1] b, hactive k⟩ : {c // c ∈ r.activeBindings})
  have hsame : r.advance^[i + 1] b = r.advance^[j + 1] b := congrArg Subtype.val heq
  obtain ⟨start, period, hpos, hloop⟩ : ∃ start period, 0 < period ∧
      r.advance^[start + period] b = r.advance^[start] b := by
    rcases Nat.lt_or_gt_of_ne hne with hlt | hlt
    · refine ⟨i + 1, j - i, by omega, ?_⟩
      rw [hsame]
      congr 1
      omega
    · refine ⟨j + 1, i - j, by omega, ?_⟩
      rw [← hsame]
      congr 1
      omega
  refine ⟨start, period, hpos, hloop, fun k hk => ?_⟩
  obtain ⟨name, next, hfollows, -⟩ := follows_of_endless h k
  refine ⟨name, next, hfollows, fun j => ?_⟩
  -- after `j + 1` more rounds the walk is at the same binding, past the `j`-th
  have hperiodic : Function.IsPeriodicPt r.advance period (r.advance^[start] b) := by
    rw [Function.IsPeriodicPt, Function.IsFixedPt, ← Function.iterate_add_apply, Nat.add_comm]
    exact hloop
  have hround : r.advance^[(j + 1) * period + k] b = r.advance^[k] b := by
    have hat : r.advance^[k] b = r.advance^[k - start] (r.advance^[start] b) := by
      rw [← Function.iterate_add_apply]
      congr 1
      omega
    rw [Function.iterate_add_apply, hat]
    exact (hperiodic.apply_iterate (k - start)).const_mul (j + 1)
  obtain ⟨name', next', hfollows', hnot⟩ := follows_of_endless h ((j + 1) * period + k)
  rw [hround, hfollows] at hfollows'
  cases hfollows'
  apply hnot j
  nlinarith

/-- A walk that does not loop through aliases returns. -/
theorem domainSource_returns {b : MetricBinding} (h : ¬ r.LoopsThroughAliases b) :
    ∃ res n, ∀ m ≥ n, r.domainSourceWithin m [] b = some res := by
  by_contra hno
  apply h
  apply loopsThroughAliases_of_endless
  intro n
  cases hres : r.domainSourceWithin n [] b with
  | none => rfl
  | some res => exact absurd ⟨res, n, domainSourceWithin_mono n hres⟩ hno

/-- The walks along metric names, for every set of bindings. -/
theorem nameWalks_end (r : ContractResolver) :
    (∀ name, ∃ n, ∀ m ≥ n, r.resolveMetricWithin m name = some (r.resolveMetric name)) ∧
    (∀ name, ∀ b ∈ r.nameIndex name, r.DependsOnItself b →
      ∃ e, r.resolveMetric name = .error e ∧
        ((r.nameIndex name).length ≤ 1 → r.Unambiguous b → ∃ n, e = .unresolved n)) ∧
    ∀ b, ¬ r.LoopsThroughAliases b → ∃ res n, ∀ m ≥ n, r.domainSourceWithin m [] b = some res := by
  refine ⟨fun name => ?_, fun name b hb hself => resolveMetric_self hself hb,
    fun b hb => domainSource_returns hb⟩
  exact ⟨r.nameCount + 1, fun m hm => resolveMetricWithin_eq (by omega) name⟩

private def total (source : String) : MetricBinding :=
  { metric := "total", canonical := { of := .single source "sum" } }

/-- A ratio over itself, whose numerator is ambiguous. -/
private def ratioToItself : MetricBinding :=
  { metric := "rate", canonical := { of := .ratio "total" "rate" } }

/-- A ratio of itself, by its alias. -/
private def ratioOfAlias : MetricBinding :=
  { metric := "share", aliases := ["portion"], canonical := { of := .ratio "portion" "portion" } }

private def ambiguousRatio : ContractResolver :=
  { bindings := [total "orders", total "refunds", ratioToItself] }

private def aliasRatio : ContractResolver := { bindings := [ratioOfAlias] }

private theorem aliasRatio_endless (n : ℕ) : ∀ seen, "portion" ∉ seen →
    aliasRatio.domainSourceWithin n seen ratioOfAlias = none := by
  induction n with
  | zero => exact fun _ _ => rfl
  | succ n ih =>
      intro seen hseen
      have hgo : aliasRatio.domainSourceWithin (n + 1) seen ratioOfAlias =
          aliasRatio.domainSourceWithin n ("share" :: seen) ratioOfAlias := if_neg hseen
      rw [hgo]
      apply ih
      rw [List.mem_cons]
      rintro (h | h)
      · exact absurd h (by decide)
      · exact hseen h

/-- The ratio to itself is reported as ambiguous, and the walk from the ratio of its alias never
returns. -/
theorem nameWalks_counterexample :
    ambiguousRatio.DependsOnItself ratioToItself ∧
      ambiguousRatio.resolveMetric "rate" =
        .error (.ambiguous "total" [total "orders", total "refunds"]) ∧
      ∀ n, aliasRatio.domainSourceWithin n [] ratioOfAlias = none := by
  refine ⟨?_, by rfl, fun n => aliasRatio_endless n [] List.not_mem_nil⟩
  apply TransGen.single
  exact ⟨"rate", by decide, by decide⟩

end ContractResolver

end Canonic
