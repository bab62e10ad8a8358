import Mathlib

set_option autoImplicit false

/-! # Rules and what they derive

A rule gives one key once all the keys it needs are there. `Derives` is the least set of keys
that contains a base and is closed under a list of rules. Trying each rule once, in the order of
the list, finds all of it when no rule needs a key that a later one gives: `mem_fireAll_iff`.

`turns` puts a list in rounds: those that wait for no other one first, and at the end, as they
stand, those that wait for each other. Whatever the order of the list, each rule fires exactly if it
can, when no two rules that are left to the end and can fire need each other:
`fires_in_every_order_iff`. -/

namespace Canonic.Closure

variable {ρ κ : Type} (gives : ρ → κ) (needs : ρ → List κ) (able : ρ → Prop)

/-- The least set of keys with the base that is closed under the rules that are able to fire. -/
inductive Derives (base : κ → Prop) (rules : List ρ) : κ → Prop where
  | base {k : κ} (h : base k) : Derives base rules k
  | rule {r : ρ} (mem : r ∈ rules) (fires : able r) (h : ∀ k ∈ needs r, Derives base rules k) :
      Derives base rules (gives r)

variable {gives needs able}

theorem Derives.mono {base base' : κ → Prop} {rules rules' : List ρ}
    (hbase : ∀ k, base k → base' k) (hrules : ∀ r ∈ rules, r ∈ rules') {k : κ}
    (h : Derives gives needs able base rules k) : Derives gives needs able base' rules' k := by
  induction h with
  | base h => exact .base (hbase _ h)
  | rule mem fires _ ih => exact .rule (hrules _ mem) fires ih

/-- What a rule among some needs is derived from another base too, if that one has the same of these
keys and lets the same rules fire. -/
theorem Derives.congr_needed {base base' : κ → Prop} {able' among : ρ → Prop} {rules : List ρ}
    (hbase : ∀ r ∈ rules, among r → ∀ k ∈ needs r, base k → base' k)
    (hable : ∀ r ∈ rules, able r → among r ∧ able' r) {k : κ}
    (h : Derives gives needs able base rules k) (hk : ∃ r ∈ rules, among r ∧ k ∈ needs r) :
    Derives gives needs able' base' rules k := by
  induction h with
  | base h =>
      obtain ⟨r, hr, hamong, hk⟩ := hk
      exact .base (hbase r hr hamong _ hk h)
  | rule mem fires _ ih =>
      obtain ⟨hamong, hable'⟩ := hable _ mem fires
      exact .rule mem hable' fun k' hk' => ih k' hk' ⟨_, mem, hamong, hk'⟩

/-- A derived key is in the base, or given by a rule that does not need it. -/
theorem Derives.base_or_rule {base : κ → Prop} {rules : List ρ} {k : κ}
    (h : Derives gives needs able base rules k) : base k ∨ ∃ r ∈ rules, gives r = k ∧ able r ∧
      k ∉ needs r ∧ ∀ k' ∈ needs r, Derives gives needs able base rules k' := by
  induction h with
  | base h => exact .inl h
  | @rule r mem fires h ih =>
      by_cases hself : gives r ∈ needs r
      · exact ih _ hself
      · exact .inr ⟨r, mem, rfl, fires, hself, h⟩

/-- No rule needs what a later one gives. -/
def Ordered (gives : ρ → κ) (needs : ρ → List κ) (rules : List ρ) : Prop :=
  rules.Pairwise fun r s => gives s ∉ needs r

/-- What a rule of an ordered list needs is derived by the rules before it, if at all, also where
further rules follow that give nothing the ordered ones need. -/
theorem Derives.before {base : κ → Prop} {rules : List ρ} (rest : List ρ)
    (hord : Ordered gives needs rules) (hrest : ∀ r ∈ rules, ∀ s ∈ rest, gives s ∉ needs r) {k : κ}
    (h : Derives gives needs able base (rules ++ rest) k) :
    ∀ {pre post : List ρ} {r : ρ}, rules = pre ++ r :: post → k ∈ needs r →
      Derives gives needs able base pre k := by
  induction h with
  | base h => exact fun _ _ => .base h
  | @rule s mem fires _ ih =>
      intro pre post r hsplit hk
      subst hsplit
      have hpair := List.pairwise_append.mp hord
      rcases List.mem_append.mp mem with mem | hlater
      · rcases List.mem_append.mp mem with hpre | hafter
        · -- the needs of an earlier rule are derived before that one
          obtain ⟨pre₁, pre₂, rfl⟩ := List.append_of_mem hpre
          refine .rule hpre fires fun k' hk' => ?_
          have hsplit : pre₁ ++ s :: pre₂ ++ r :: post = pre₁ ++ s :: (pre₂ ++ r :: post) := by
            simp
          refine (ih k' hk' hsplit hk').mono (fun _ => id) ?_
          exact fun r' hr' => List.mem_append_left _ hr'
        · rcases List.mem_cons.mp hafter with rfl | hpost
          · exact ih _ hk rfl hk
          · exact absurd hk ((List.pairwise_cons.mp hpair.2.1).1 s hpost)
      · exact absurd hk (hrest r (by simp) s hlater)

section Fire

variable [DecidableEq κ] [DecidablePred able]

variable (gives needs able)

/-- Try one rule. -/
def fire (bound : List κ) (r : ρ) : List κ :=
  if able r ∧ ∀ k ∈ needs r, k ∈ bound then gives r :: bound else bound

/-- Try each rule of a list once. -/
def fireAll (bound : List κ) (rules : List ρ) : List κ := rules.foldl (fire gives needs able) bound

variable {gives needs able}

theorem mem_fire {bound : List κ} {r : ρ} {k : κ} : k ∈ fire gives needs able bound r ↔
    k ∈ bound ∨ (k = gives r ∧ able r ∧ ∀ k' ∈ needs r, k' ∈ bound) := by
  unfold fire
  split
  · rename_i h
    constructor
    · intro hk
      rcases List.mem_cons.mp hk with rfl | hk
      · exact .inr ⟨rfl, h⟩
      · exact .inl hk
    · rintro (hk | ⟨rfl, -⟩)
      · exact List.mem_cons_of_mem _ hk
      · exact List.mem_cons_self
  · rename_i h
    constructor
    · exact .inl
    · rintro (hk | ⟨-, hable, hneeds⟩)
      · exact hk
      · exact absurd ⟨hable, hneeds⟩ h

theorem fireAll_concat (bound : List κ) (rules : List ρ) (r : ρ) :
    fireAll gives needs able bound (rules ++ [r]) =
      fire gives needs able (fireAll gives needs able bound rules) r := by
  simp [fireAll]

/-- One pass over an ordered list derives everything that can be derived. -/
theorem mem_fireAll_iff {bound : List κ} {rules : List ρ} (hord : Ordered gives needs rules)
    {k : κ} : k ∈ fireAll gives needs able bound rules ↔
      Derives gives needs able (· ∈ bound) rules k := by
  induction rules using List.reverseRecOn generalizing k with
  | nil =>
      constructor
      · exact .base
      · intro h
        cases h with
        | base h => exact h
        | rule mem _ _ => simp at mem
  | append_singleton rules r ih =>
      have hord' : Ordered gives needs rules := (List.pairwise_append.mp hord).1
      rw [fireAll_concat, mem_fire, ih hord']
      constructor
      · rintro (h | ⟨rfl, hable, hneeds⟩)
        · exact h.mono (fun _ => id) fun s hs => List.mem_append_left _ hs
        · refine .rule (by simp) hable fun k' hk' => ?_
          exact ((ih hord').mp (hneeds k' hk')).mono (fun _ => id)
            fun s hs => List.mem_append_left _ hs
      · intro h
        cases h with
        | base h => exact .inl (.base h)
        | @rule s mem fires hneeds =>
            rcases List.mem_append.mp mem with hs | hs
            · obtain ⟨pre, post, rfl⟩ := List.append_of_mem hs
              refine .inl (.rule hs fires fun k' hk' => ?_)
              have hsplit : pre ++ s :: post ++ [r] = pre ++ s :: (post ++ [r]) := by simp
              have hbefore : Derives gives needs able (· ∈ bound) pre k' :=
                Derives.before [] hord (by simp) (by simpa using hneeds k' hk') hsplit hk'
              exact hbefore.mono (fun _ => id) fun s' hs' => List.mem_append_left _ hs'
            · obtain rfl := List.mem_singleton.mp hs
              refine .inr ⟨rfl, fires, fun k' hk' => (ih hord').mpr ?_⟩
              exact Derives.before [] hord (by simp) (by simpa using hneeds k' hk') rfl hk'

/-- What is bound after a row of rules can be derived. -/
theorem derives_of_mem_fireAll {bound : List κ} {rules : List ρ} {k : κ}
    (h : k ∈ fireAll gives needs able bound rules) :
    Derives gives needs able (· ∈ bound) rules k := by
  induction rules using List.reverseRecOn generalizing k with
  | nil => exact .base h
  | append_singleton rules r ih =>
      have hmono {k' : κ} (h : k' ∈ fireAll gives needs able bound rules) :
          Derives gives needs able (· ∈ bound) (rules ++ [r]) k' :=
        (ih h).mono (fun _ => id) fun s hs => List.mem_append_left _ hs
      rw [fireAll_concat, mem_fire] at h
      rcases h with h | ⟨rfl, hable, hneeds⟩
      · exact hmono h
      · exact .rule (by simp) hable fun k' hk' => hmono (hneeds k' hk')

theorem mem_fireAll_of_mem {bound : List κ} {rules : List ρ} (rules' : List ρ) {k : κ}
    (h : k ∈ fireAll gives needs able bound rules) :
    k ∈ fireAll gives needs able bound (rules ++ rules') := by
  induction rules' using List.reverseRecOn with
  | nil => simpa using h
  | append_singleton rules' r ih =>
      rw [← List.append_assoc, fireAll_concat, mem_fire]
      exact .inl ih

/-- A rule finds its needs met when its turn comes. -/
def FiresIn (gives : ρ → κ) (needs : ρ → List κ) (able : ρ → Prop) [DecidablePred able]
    (bound : List κ) (order : List ρ) (r : ρ) : Prop :=
  ∃ pre post, order = pre ++ r :: post ∧ able r ∧
    ∀ k ∈ needs r, k ∈ fireAll gives needs able bound pre

/-- A rule can fire: what it needs can be derived. -/
def CanFire (gives : ρ → κ) (needs : ρ → List κ) (able : ρ → Prop) (base : κ → Prop)
    (rules : List ρ) (r : ρ) : Prop :=
  able r ∧ ∀ k ∈ needs r, Derives gives needs able base rules k

theorem FiresIn.canFire {bound : List κ} {order : List ρ} {r : ρ}
    (h : FiresIn gives needs able bound order r) :
    CanFire gives needs able (· ∈ bound) order r := by
  obtain ⟨pre, post, rfl, hable, hneeds⟩ := h
  exact ⟨hable, fun k hk => (derives_of_mem_fireAll (hneeds k hk)).mono (fun _ => id)
    fun s hs => List.mem_append_left _ hs⟩

/-- A rule that fires has given its key after its turn. -/
theorem FiresIn.mem_fireAll {bound : List κ} {order pre post : List ρ} {r : ρ}
    (hnd : order.Nodup) (h : FiresIn gives needs able bound order r) (horder : order = pre ++ post)
    (hr : r ∈ pre) : gives r ∈ fireAll gives needs able bound pre := by
  obtain ⟨pre', post', hsplit, hable, hneeds⟩ := h
  obtain ⟨pre₁, pre₂, rfl⟩ := List.append_of_mem hr
  subst horder
  rw [List.append_assoc, List.cons_append] at hsplit hnd
  have hnotMem := List.nodup_middle.mp hnd |> List.nodup_cons.mp |>.1
  rw [List.mem_append, not_or] at hnotMem
  obtain ⟨rfl, -, -⟩ := (List.append_cons_inj_of_notMem hnotMem.1 hnotMem.2).mp hsplit
  have hfire : gives r ∈ fireAll gives needs able bound (pre₁ ++ [r]) := by
    rw [fireAll_concat, mem_fire]
    exact .inr ⟨rfl, hable, hneeds⟩
  simpa using mem_fireAll_of_mem pre₂ hfire

/-- A rule of an ordered row fires exactly if it can. -/
theorem firesIn_ordered_iff {bound : List κ} {rules rest : List ρ} {r : ρ}
    (hnd : (rules ++ rest).Nodup) (hord : Ordered gives needs rules)
    (hrest : ∀ r ∈ rules, ∀ s ∈ rest, gives s ∉ needs r) (hr : r ∈ rules) :
    FiresIn gives needs able bound (rules ++ rest) r ↔
      CanFire gives needs able (· ∈ bound) (rules ++ rest) r := by
  refine ⟨FiresIn.canFire, fun h => ?_⟩
  obtain ⟨pre, post, rfl⟩ := List.append_of_mem hr
  have hord' : Ordered gives needs pre := (List.pairwise_append.mp hord).1
  refine ⟨pre, post ++ rest, by simp, h.1, fun k hk => ?_⟩
  exact (mem_fireAll_iff hord').mpr ((h.2 k hk).before rest hord hrest rfl hk)

end Fire

/-! ## Turns -/

section Turns

/-- A rule needs what another one of the list gives. -/
def Waits (gives : ρ → κ) (needs : ρ → List κ) (rules : List ρ) (r : ρ) : Prop :=
  ∃ s ∈ rules, s ≠ r ∧ gives s ∈ needs r

/-- A rule is in a group of rules in which each one needs what another one gives: it is in a circle,
or needs what one in a circle gives. -/
def Stuck (gives : ρ → κ) (needs : ρ → List κ) (rules : List ρ) (r : ρ) : Prop :=
  ∃ group : List ρ, r ∈ group ∧ (∀ s ∈ group, s ∈ rules) ∧ ∀ s ∈ group, Waits gives needs group s

theorem Stuck.mono {rules rules' : List ρ} (hsub : ∀ s ∈ rules, s ∈ rules') {r : ρ}
    (h : Stuck gives needs rules r) : Stuck gives needs rules' r := by
  obtain ⟨group, hr, hmem, hwaits⟩ := h
  exact ⟨group, hr, fun s hs => hsub s (hmem s hs), hwaits⟩

theorem Stuck.waits {rules : List ρ} {r : ρ} (h : Stuck gives needs rules r) :
    Waits gives needs rules r := by
  obtain ⟨group, hr, hmem, hwaits⟩ := h
  obtain ⟨s, hs, hne, hneed⟩ := hwaits r hr
  exact ⟨s, hmem s hs, hne, hneed⟩

variable [DecidableEq ρ] [DecidableEq κ]

instance Waits.decidablePred (rules : List ρ) : DecidablePred (Waits gives needs rules) := fun r =>
  inferInstanceAs (Decidable (∃ s ∈ rules, s ≠ r ∧ gives s ∈ needs r))

variable (gives needs)

/-- The rules in the order of their turns: round by round those that wait for no other one that is
left, and a remainder in which each one does as it stands. -/
def turns : Nat → List ρ → List ρ
  | 0, rules => rules
  | n + 1, rules =>
      let ready := rules.filter fun r => decide (¬ Waits gives needs rules r)
      if ready = [] then rules
      else ready ++ turns n (rules.filter fun r => decide (Waits gives needs rules r))

/-- A round splits the rules. -/
theorem ready_append_waiting (rules : List ρ) :
    (rules.filter (fun r => decide (¬ Waits gives needs rules r)) ++
      rules.filter fun r => decide (Waits gives needs rules r)).Perm rules := by
  have hsplit := List.filter_append_perm (fun r => decide (Waits gives needs rules r)) rules
  refine List.perm_append_comm.trans ?_
  simpa using hsplit

variable {gives needs}

/-- Where some rule does not wait, fewer are left. -/
theorem length_waiting_lt {rules : List ρ}
    (hready : rules.filter (fun r => decide (¬ Waits gives needs rules r)) ≠ []) :
    (rules.filter fun r => decide (Waits gives needs rules r)).length < rules.length := by
  have htotal := (ready_append_waiting gives needs rules).length_eq
  rw [List.length_append] at htotal
  have hpos : 0 < (rules.filter fun r => decide (¬ Waits gives needs rules r)).length :=
    List.length_pos_iff.mpr hready
  omega

theorem turns_perm (n : Nat) (rules : List ρ) : (turns gives needs n rules).Perm rules := by
  induction n generalizing rules with
  | zero => exact .refl _
  | succ n ih =>
      rw [turns]
      split
      · exact .refl _
      · exact ((ih _).append_left _).trans (ready_append_waiting gives needs rules)

/-- The turns of a list: an ordered row, and behind it the stuck rules as they stand. -/
structure Turns (gives : ρ → κ) (needs : ρ → List κ) (rules early late : List ρ) : Prop where
  perm : (early ++ late).Perm rules
  sublist : late.Sublist rules
  mem_late : ∀ r, r ∈ late ↔ Stuck gives needs rules r
  ordered : Ordered gives needs early
  rest : ∀ r ∈ early, ∀ s ∈ late, gives s ∉ needs r

variable (gives needs) in
theorem turns_eq {n : Nat} {rules : List ρ} (hn : rules.length ≤ n) (hnd : rules.Nodup) :
    ∃ early late, turns gives needs n rules = early ++ late ∧
      Turns gives needs rules early late := by
  induction n generalizing rules with
  | zero =>
      obtain rfl : rules = [] := List.length_eq_zero_iff.mp (Nat.le_zero.mp hn)
      refine ⟨[], [], rfl, .refl _, .refl _, fun r => ?_, List.Pairwise.nil, by simp⟩
      constructor
      · simp
      · rintro ⟨group, hr, hmem, -⟩
        exact hmem r hr
  | succ n ih =>
      rw [turns]
      by_cases hready : rules.filter (fun r => decide (¬ Waits gives needs rules r)) = []
      · -- each rule waits, so the list itself is a group
        have hwaits : ∀ r ∈ rules, Waits gives needs rules r := by
          intro r hr
          simpa using List.filter_eq_nil_iff.mp hready r hr
        rw [if_pos hready]
        refine ⟨[], rules, rfl, .refl _, .refl _, fun r => ?_, List.Pairwise.nil, by simp⟩
        constructor
        · exact fun hr => ⟨rules, hr, fun s hs => hs, hwaits⟩
        · rintro ⟨group, hr, hmem, -⟩
          exact hmem r hr
      · rw [if_neg hready]
        have hlen := length_waiting_lt hready
        obtain ⟨early, late, hturns, h⟩ := ih (Nat.le_of_lt_succ (hlen.trans_le hn))
          (hnd.filter _)
        -- a rule that does not wait needs what no other one of the list gives
        have hfree : ∀ r ∈ rules.filter (fun r => decide (¬ Waits gives needs rules r)),
            ∀ s ∈ rules, s ≠ r → gives s ∉ needs r := by
          intro r hr s hs hne hneed
          have hno : ¬ Waits gives needs rules r := by simpa using (List.mem_filter.mp hr).2
          exact hno ⟨s, hs, hne, hneed⟩
        have hcross : ∀ r ∈ rules.filter (fun r => decide (¬ Waits gives needs rules r)),
            ∀ s ∈ early ++ late, gives s ∉ needs r := by
          intro r hr s hs
          have hs' := h.perm.mem_iff.mp hs
          refine hfree r hr s (List.mem_filter.mp hs').1 ?_
          rintro rfl
          have hyes := (List.mem_filter.mp hs').2
          have hno := (List.mem_filter.mp hr).2
          simp_all
        refine ⟨rules.filter (fun r => decide (¬ Waits gives needs rules r)) ++ early, late,
          by rw [hturns, List.append_assoc], ?_, h.sublist.trans List.filter_sublist, fun r => ?_,
          ?_, ?_⟩
        · rw [List.append_assoc]
          exact (h.perm.append_left _).trans (ready_append_waiting gives needs rules)
        · rw [h.mem_late]
          constructor
          · exact fun hstuck => hstuck.mono fun s hs => (List.mem_filter.mp hs).1
          · rintro ⟨group, hr, hmem, hwaits⟩
            refine ⟨group, hr, fun s hs => List.mem_filter.mpr ⟨hmem s hs, ?_⟩, hwaits⟩
            exact decide_eq_true (Stuck.waits ⟨group, hs, hmem, hwaits⟩)
        · refine List.pairwise_append.mpr ⟨?_, h.ordered, ?_⟩
          · refine (hnd.filter _).imp_of_mem fun hr hs hne => ?_
            exact hfree _ hr _ (List.mem_filter.mp hs).1 (Ne.symm hne)
          · exact fun r hr s hs => hcross r hr s (List.mem_append_left _ hs)
        · intro r hr s hs
          rcases List.mem_append.mp hr with hr | hr
          · exact hcross r hr s (List.mem_append_right _ hs)
          · exact h.rest r hr s hs

/-! ## Every order -/

variable [DecidablePred able] {bound : List κ} {rules : List ρ}

/-- No stuck rule that can fire needs what another such rule gives, unless it is there from the
start. -/
def NoStuckNeed (gives : ρ → κ) (needs : ρ → List κ) (able : ρ → Prop) (bound : List κ)
    (rules : List ρ) : Prop :=
  ∀ r ∈ rules, ∀ s ∈ rules, s ≠ r → Stuck gives needs rules r → Stuck gives needs rules s →
    CanFire gives needs able (· ∈ bound) rules r → CanFire gives needs able (· ∈ bound) rules s →
      gives s ∈ needs r → gives s ∈ bound

omit [DecidableEq ρ] [DecidableEq κ] [DecidablePred able] in
theorem canFire_perm {base : κ → Prop} {rules' : List ρ} (h : rules.Perm rules') {r : ρ} :
    CanFire gives needs able base rules r ↔ CanFire gives needs able base rules' r := by
  refine and_congr_right fun _ => forall₂_congr fun k _ => ?_
  constructor
  · exact fun hd => hd.mono (fun _ => id) fun s hs => h.mem_iff.mp hs
  · exact fun hd => hd.mono (fun _ => id) fun s hs => h.mem_iff.mpr hs

omit [DecidableEq ρ] in
theorem mem_fireAll_of_bound {k : κ} (h : k ∈ bound) :
    k ∈ fireAll gives needs able bound rules := by
  have hnil : k ∈ fireAll gives needs able bound [] := h
  exact mem_fireAll_of_mem rules hnil

omit [DecidableEq ρ] in
/-- Where no two stuck rules need each other, each rule fires in its turn exactly if it can. -/
theorem Turns.firesIn_iff {early late : List ρ} (h : Turns gives needs rules early late)
    (hnd : rules.Nodup) (hno : NoStuckNeed gives needs able bound rules) {r : ρ} (hr : r ∈ rules) :
    FiresIn gives needs able bound (early ++ late) r ↔
      CanFire gives needs able (· ∈ bound) rules r := by
  have hnd' : (early ++ late).Nodup := h.perm.nodup_iff.mpr hnd
  have hfires {s : ρ} (hs : s ∈ early) : FiresIn gives needs able bound (early ++ late) s ↔
      CanFire gives needs able (· ∈ bound) (early ++ late) s :=
    firesIn_ordered_iff hnd' h.ordered h.rest hs
  rw [← canFire_perm h.perm]
  rcases List.mem_append.mp (h.perm.mem_iff.mpr hr) with hearly | hlate
  · exact hfires hearly
  · refine ⟨FiresIn.canFire, fun hcan => ?_⟩
    obtain ⟨pre, post, rfl⟩ := List.append_of_mem hlate
    refine ⟨early ++ pre, post, by simp, hcan.1, fun k hk => ?_⟩
    rcases (hcan.2 k hk).base_or_rule with hbound | ⟨s, hs, rfl, hable, hself, hneeds⟩
    · exact mem_fireAll_of_bound hbound
    · rcases List.mem_append.mp hs with hs | hs
      · exact mem_fireAll_of_mem pre (((hfires hs).mpr ⟨hable, hneeds⟩).mem_fireAll hnd' rfl hs)
      · have hne : s ≠ r := fun heq => hself (heq ▸ hk)
        exact mem_fireAll_of_bound (hno r hr s (h.perm.mem_iff.mp (List.mem_append_right _ hs)) hne
          ((h.mem_late r).mp hlate) ((h.mem_late s).mp hs) ((canFire_perm h.perm).mp hcan)
          ((canFire_perm h.perm).mp ⟨hable, hneeds⟩) hk)

/-- In every order, exactly the rules with a property fire. -/
def FireInEveryOrder (gives : ρ → κ) (needs : ρ → List κ) (able : ρ → Prop) [DecidablePred able]
    (bound : List κ) (rules : List ρ) (T : ρ → Prop) : Prop :=
  ∀ rules', rules.Perm rules' → ∀ r ∈ rules,
    (FiresIn gives needs able bound (turns gives needs rules'.length rules') r ↔ T r)

section

variable {T : ρ → Prop} (hnd : rules.Nodup)
  (h : FireInEveryOrder gives needs able bound rules T)

include hnd h

/-- The turns of an order of the rules, and what fires in them. -/
theorem FireInEveryOrder.turns {rules' : List ρ} (hperm : rules.Perm rules') :
    ∃ early late, Turns gives needs rules' early late ∧ (early ++ late).Nodup ∧
      ∀ r ∈ rules, (FiresIn gives needs able bound (early ++ late) r ↔ T r) := by
  obtain ⟨early, late, hturns, hsplit⟩ := turns_eq gives needs le_rfl
    (hperm.nodup_iff.mp hnd)
  refine ⟨early, late, hsplit, hsplit.perm.nodup_iff.mpr (hperm.nodup_iff.mp hnd), fun r hr => ?_⟩
  rw [← hturns]
  exact h rules' hperm r hr

/-- A rule that is able to fire, and whose needs are given from the start or by rules that fire,
fires. -/
theorem FireInEveryOrder.of_given {r : ρ} (hr : r ∈ rules) (hable : able r)
    (hneeds : ∀ k ∈ needs r, k ∈ bound ∨ ∃ s ∈ rules, gives s = k ∧ T s) : T r := by
  by_cases hself : ∃ k ∈ needs r, gives r = k ∧ T r
  · obtain ⟨-, -, -, hT⟩ := hself
    exact hT
  have hothers : ∀ k ∈ needs r, k ∈ bound ∨ ∃ s ∈ rules, s ≠ r ∧ gives s = k ∧ T s := by
    intro k hk
    refine (hneeds k hk).imp_right fun ⟨s, hs, hgives, hT⟩ => ⟨s, hs, ?_, hgives, hT⟩
    rintro rfl
    exact hself ⟨k, hk, hgives, hT⟩
  by_cases hstuck : Stuck gives needs rules r
  · -- listed last, a stuck rule has its turn after all others
    have hperm : rules.Perm (rules.erase r ++ [r]) :=
      (List.perm_cons_erase hr).trans (List.perm_append_singleton r _).symm
    obtain ⟨early, late, hsplit, hnd', hfires⟩ := h.turns hnd hperm
    have hlate : r ∈ late := (hsplit.mem_late r).mpr
      (hstuck.mono fun s hs => hperm.mem_iff.mp hs)
    obtain ⟨late₀, last, rfl, hlate₀, hlast⟩ := List.sublist_append_iff.mp hsplit.sublist
    have hnotMem : r ∉ late₀ := fun hmem => (hnd.mem_erase_iff.mp (hlate₀.subset hmem)).1 rfl
    obtain rfl : last = [r] := by
      rcases List.sublist_singleton.mp hlast with rfl | rfl
      · simp [hnotMem] at hlate
      · rfl
    have horder : early ++ (late₀ ++ [r]) = (early ++ late₀) ++ [r] := by simp
    refine (hfires r hr).mp ⟨early ++ late₀, [], horder, hable, fun k hk => ?_⟩
    rcases hothers k hk with hbound | ⟨s, hs, hne, rfl, hT⟩
    · exact mem_fireAll_of_bound hbound
    · refine ((hfires s hs).mpr hT).mem_fireAll hnd' horder ?_
      have hmem := hsplit.perm.mem_iff.mpr (hperm.mem_iff.mp hs)
      rw [← List.append_assoc] at hmem
      exact (List.mem_append.mp hmem).resolve_right (by simpa using hne)
  · obtain ⟨early, late, hsplit, hnd', hfires⟩ := h.turns hnd (.refl rules)
    have hearly : r ∈ early := (List.mem_append.mp (hsplit.perm.mem_iff.mpr hr)).resolve_right
      fun hlate => hstuck ((hsplit.mem_late r).mp hlate)
    obtain ⟨pre, post, rfl⟩ := List.append_of_mem hearly
    have hpair := List.pairwise_append.mp hsplit.ordered
    have horder : pre ++ r :: post ++ late = pre ++ r :: (post ++ late) := by simp
    refine (hfires r hr).mp ⟨pre, post ++ late, horder, hable, fun k hk => ?_⟩
    rcases hothers k hk with hbound | ⟨s, hs, hne, rfl, hT⟩
    · exact mem_fireAll_of_bound hbound
    · refine ((hfires s hs).mpr hT).mem_fireAll hnd' horder ?_
      -- what the rule needs is given by no rule behind it
      rcases List.mem_append.mp (hsplit.perm.mem_iff.mpr hs) with hmem | hlate
      · rcases List.mem_append.mp hmem with hpre | hmem
        · exact hpre
        · rcases List.mem_cons.mp hmem with rfl | hpost
          · exact absurd rfl hne
          · exact absurd hk ((List.pairwise_cons.mp hpair.2.1).1 s hpost)
      · exact absurd hk (hsplit.rest r hearly s hlate)

/-- What fires in every order can fire. -/
theorem FireInEveryOrder.iff_canFire {r : ρ} (hr : r ∈ rules) :
    T r ↔ CanFire gives needs able (· ∈ bound) rules r := by
  have hgiven : ∀ {k : κ}, Derives gives needs able (· ∈ bound) rules k →
      k ∈ bound ∨ ∃ s ∈ rules, gives s = k ∧ T s := by
    intro k hk
    induction hk with
    | base hk => exact .inl hk
    | @rule s mem fires _ ih => exact .inr ⟨s, mem, rfl, h.of_given hnd mem fires ih⟩
  constructor
  · intro hT
    obtain ⟨early, late, hsplit, -, hfires⟩ := h.turns hnd (.refl rules)
    exact (canFire_perm hsplit.perm).mp ((hfires r hr).mpr hT).canFire
  · exact fun hcan => h.of_given hnd hr hcan.1 fun k hk => hgiven (hcan.2 k hk)

theorem FireInEveryOrder.noStuckNeed (hinj : ∀ r ∈ rules, ∀ s ∈ rules, gives r = gives s → r = s) :
    NoStuckNeed gives needs able bound rules := by
  intro r hr s hs hne hstuck hstuck' hcan _ hneed
  -- listed first, a stuck rule has its turn before all other stuck ones
  have hperm : rules.Perm (r :: rules.erase r) := List.perm_cons_erase hr
  obtain ⟨early, late, hsplit, hnd', hfires⟩ := h.turns hnd hperm
  have hlate {s : ρ} (hs : Stuck gives needs rules s) : s ∈ late :=
    (hsplit.mem_late s).mpr (hs.mono fun s hs => hperm.mem_iff.mp hs)
  obtain ⟨pre, post, horder, -, hneeds⟩ := (hfires r hr).mpr ((h.iff_canFire hnd hr).mpr hcan)
  obtain ⟨late', rfl, -⟩ := (List.sublist_cons_iff.mp hsplit.sublist).resolve_left fun hsub =>
    (hnd.mem_erase_iff.mp (hsub.subset (hlate hstuck))).1 rfl
  have hnotMem := List.nodup_cons.mp (List.nodup_middle.mp hnd') |>.1
  rw [List.mem_append, not_or] at hnotMem
  obtain ⟨rfl, -, -⟩ :=
    (List.append_cons_inj_of_notMem hnotMem.1 hnotMem.2).mp horder
  rcases (derives_of_mem_fireAll (hneeds _ hneed)).base_or_rule with hbound | ⟨s', hs', hsame, -⟩
  · exact hbound
  · obtain rfl : s' = s := hinj s' (hperm.mem_iff.mpr (hsplit.perm.mem_iff.mp
      (List.mem_append_left _ hs'))) s hs hsame
    exact absurd (hlate hstuck') (List.disjoint_of_nodup_append hnd' hs')

end

/-- **Whatever the order of the list, exactly the rules with a property fire** exactly when these
are the rules that can fire, and no two stuck ones among them need each other. -/
theorem fires_in_every_order_iff {T : ρ → Prop} (hnd : rules.Nodup)
    (hinj : ∀ r ∈ rules, ∀ s ∈ rules, gives r = gives s → r = s) :
    FireInEveryOrder gives needs able bound rules T ↔
      (∀ r ∈ rules, (T r ↔ CanFire gives needs able (· ∈ bound) rules r)) ∧
        NoStuckNeed gives needs able bound rules := by
  constructor
  · exact fun h => ⟨fun r hr => h.iff_canFire hnd hr, h.noStuckNeed hnd hinj⟩
  · rintro ⟨hcan, hno⟩ rules' hperm r hr
    obtain ⟨early, late, hturns, hsplit⟩ := turns_eq gives needs le_rfl
      (hperm.nodup_iff.mp hnd)
    have hno' : NoStuckNeed gives needs able bound rules' := by
      intro r hr s hs hne hstuck hstuck' hcan hcan'
      exact hno r (hperm.mem_iff.mpr hr) s (hperm.mem_iff.mpr hs) hne
        (hstuck.mono fun s hs => hperm.mem_iff.mpr hs)
        (hstuck'.mono fun s hs => hperm.mem_iff.mpr hs) ((canFire_perm hperm).mpr hcan)
        ((canFire_perm hperm).mpr hcan')
    rw [hturns, hsplit.firesIn_iff (hperm.nodup_iff.mp hnd) hno' (hperm.mem_iff.mp hr),
      ← canFire_perm hperm]
    exact (hcan r hr).symm

end Turns

end Canonic.Closure
