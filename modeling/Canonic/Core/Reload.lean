import Canonic.Core.Project
import Mathlib.Data.List.Induction

set_option autoImplicit false

/-! # A reloading project serves the files as they are

A refresh reads the signature of the files before it loads them, so a write that falls in between
leaves a signature that the next refresh finds outdated. The construction loads first and signs
afterwards, and a signature that comes back (a file created and removed again) is taken for the
files it was read from. Where neither happens, what is recorded with a signature is right of every
later state of the files that has it. -/

namespace Canonic.Project

/-! ## Files -/

namespace Disk

variable {D : Disk} {p q : Path}

theorem lookup_cons_ne (h : q ≠ p) (f : File) (entries : List (Path × File)) :
    ((p, f) :: entries).lookup q = entries.lookup q := by
  simp [List.lookup_cons, beq_eq_false_iff_ne.mpr h]

theorem lookup_filter_ne (entries : List (Path × File)) (h : q ≠ p) :
    (entries.filter fun e => e.1 ≠ p).lookup q = entries.lookup q := by
  induction entries with
  | nil => rfl
  | cons e entries ih =>
      obtain ⟨r, f⟩ := e
      rw [List.filter_cons]
      by_cases hr : r = p
      · rw [if_neg (by simp [hr]), ih, lookup_cons_ne (hr ▸ h)]
      · rw [if_pos (by simp [hr])]
        by_cases hq : q = r
        · rw [hq, List.lookup_cons_self, List.lookup_cons_self]
        · rw [lookup_cons_ne hq, lookup_cons_ne hq, ih]

theorem lookup_filter_self (entries : List (Path × File)) :
    (entries.filter fun e => e.1 ≠ p).lookup p = none := by
  rw [List.lookup_eq_none_iff]
  intro e he
  have hne : e.1 ≠ p := by simpa using (List.mem_filter.mp he).2
  simpa using Ne.symm hne

theorem get_write_self (D : Disk) (p : Path) (f : Option File) : (D.write p f).get p = f := by
  cases f with
  | none => exact lookup_filter_self D.entries
  | some f => exact List.lookup_cons_self

theorem get_write_ne (h : q ≠ p) (f : Option File) : (D.write p f).get q = D.get q := by
  have hrest := lookup_filter_ne D.entries h
  cases f with
  | none => exact hrest
  | some f => exact (lookup_cons_ne h f _).trans hrest

theorem mem_files {reads : Path → Bool} :
    p ∈ D.files reads ↔ D.get p ≠ none ∧ reads p = true := by
  rw [files, List.mem_insertionSort, List.mem_filter, Disk.get, ne_eq, List.lookup_eq_none_iff]
  refine and_congr_left fun _ => ?_
  constructor
  · intro hmem hno
    obtain ⟨e, he, rfl⟩ := List.mem_map.mp hmem
    simpa using hno e he
  · intro h
    by_contra hmem
    refine h fun e he => ?_
    have hne : e.1 ≠ p := fun heq => hmem (List.mem_map.mpr ⟨e, he, heq⟩)
    simpa using Ne.symm hne

end Disk

theorem mem_watchedFiles {D : Disk} {p : Path} (h : watched p = true) (hget : D.get p ≠ none) :
    p ∈ watchedFiles D := by
  simp only [watched, Bool.or_eq_true, decide_eq_true_eq] at h
  simp only [watchedFiles, List.mem_cons, List.flatMap_cons, List.flatMap_nil, List.append_nil,
    List.mem_append, Disk.mem_files]
  rcases h with (h | h) | h
  · exact Or.inl h
  · exact Or.inr (Or.inl ⟨hget, h⟩)
  · exact Or.inr (Or.inr ⟨hget, h⟩)

theorem yamlBelow_of_cons {d e : String} {p : Path} (h : yamlBelow [d, e] p = true) :
    yamlBelow [d] p = true := by
  simp only [yamlBelow, Bool.and_eq_true, decide_eq_true_eq] at h ⊢
  obtain ⟨⟨hpre, hlen⟩, hsuf⟩ := h
  refine ⟨⟨?_, ?_⟩, hsuf⟩
  · rw [List.isPrefixOf_iff_prefix] at hpre ⊢
    exact List.IsPrefix.trans ⟨[e], rfl⟩ hpre
  · simp only [List.length_cons, List.length_nil] at hlen ⊢
    omega

/-- Every file of a section is watched. -/
theorem Section.watched_of_reads {s : Section} {p : Path} (h : s.reads p = true) :
    watched p = true := by
  have hcontracts : ∀ e, yamlBelow ["contracts", e] p = true → watched p = true := fun e he => by
    simp [watched, yamlBelow_of_cons he]
  cases s with
  | config => simp_all [Section.reads, watched]
  | fingerprint => exact h
  | bindings => exact hcontracts _ h
  | guardrails => exact hcontracts _ (Bool.and_eq_true_iff.mp h).1
  | finality => exact hcontracts _ (Bool.and_eq_true_iff.mp h).1
  | assertions => exact hcontracts _ h
  | tenancy =>
      obtain rfl : p = ["contracts", "policies", "tenancy.yaml"] := by simpa [Section.reads] using h
      decide
  | roles =>
      obtain rfl : p = ["contracts", "policies", "roles.yaml"] := by simpa [Section.reads] using h
      decide
  | sources => simp_all [Section.reads, watched]

theorem Section.mem_files {s : Section} {D : Disk} {p : Path} (h : s.reads p = true)
    (hget : D.get p ≠ none) : p ∈ s.files D := by
  unfold Section.files
  split
  · exact mem_watchedFiles (Section.watched_of_reads h) hget
  · exact Disk.mem_files.mpr ⟨hget, h⟩

/-! ## Looking at files one by one -/

/-- What a scan has seen of each selected file is right, or the file is still to be looked at. -/
def Scan.Sees (good : Path → Option File → Prop) (sel : Path → Bool) (s : Scan) : Prop :=
  match s.listed with
  | none => s.got = []
  | some todo => ∀ p, sel p = true →
      good p (s.got.lookup p) ∨ p ∈ todo ∧ s.got.lookup p = none

namespace Scan

variable {good : Path → Option File → Prop} {sel : Path → Bool} {s : Scan}

theorem sees_new : Sees good sel {} := rfl

theorem Sees.mono {good' : Path → Option File → Prop} (h : s.Sees good sel)
    (himp : ∀ p o, sel p = true → good p o → good' p o) : s.Sees good' sel := by
  unfold Sees at h ⊢
  split at h
  · exact h
  · exact fun p hp => (h p hp).imp_left (himp p _ hp)

/-- One more look at a disk that shows what is right. -/
theorem Sees.look {D : Disk} {list : Disk → List Path} (h : s.Sees good sel)
    (hgood : ∀ p, sel p = true → good p (D.get p))
    (hlist : ∀ p, sel p = true → D.get p ≠ none → p ∈ list D) : (s.look list D).Sees good sel := by
  obtain ⟨listed, got⟩ := s
  unfold Sees at h
  match listed with
  | none =>
      obtain rfl : got = [] := h
      intro p hp
      by_cases hget : D.get p = none
      · have hnone := hgood p hp
        rw [hget] at hnone
        exact Or.inl hnone
      · exact Or.inr ⟨hlist p hp hget, rfl⟩
  | some [] => exact h
  | some (q :: todo) =>
      have hnext : ∀ p, (look list D ⟨some (q :: todo), got⟩).got.lookup p =
          ((got.lookup p).or (if p = q then D.get p else none)) := by
        intro p
        show (got ++ (D.get q).toList.map (q, ·)).lookup p = _
        rw [List.lookup_append]
        congr 1
        by_cases hpq : p = q
        · subst hpq
          cases D.get p <;> simp
        · cases D.get q <;> simp [hpq, Disk.lookup_cons_ne]
      intro p hp
      rw [hnext]
      rcases h p hp with hseen | ⟨hmem, hnone⟩
      · left
        cases hl : got.lookup p with
        | some f => simpa [hl] using hseen
        | none =>
            by_cases hpq : p = q
            · simpa [hpq] using hgood q (hpq ▸ hp)
            · simpa [hpq, hl] using hseen
      · by_cases hpq : p = q
        · left
          rw [hnone]
          simpa [hpq] using hgood q (hpq ▸ hp)
        · exact Or.inr ⟨(List.mem_cons.mp hmem).resolve_left hpq, by simp [hnone, hpq]⟩

/-- What holds of the listed files holds of those that are left. -/
theorem listed_look {D : Disk} {list : Disk → List Path} {P : Path → Prop}
    (h : ∀ todo, s.listed = some todo → ∀ p ∈ todo, P p) (hlist : ∀ p ∈ list D, P p) :
    ∀ todo, (s.look list D).listed = some todo → ∀ p ∈ todo, P p := by
  obtain ⟨listed, got⟩ := s
  match listed with
  | none =>
      rintro todo ⟨rfl⟩
      exact hlist
  | some [] => exact h
  | some (q :: rest) =>
      rintro todo ⟨rfl⟩ p hp
      exact h _ rfl p (List.mem_cons_of_mem q hp)

theorem vanished_eq_some {D : Disk} {p : Path} (h : s.vanished D = some p) :
    ∃ todo, s.listed = some (p :: todo) ∧ D.get p = none := by
  unfold vanished at h
  split at h
  · next q todo hlisted =>
    split at h
    · next hget =>
      obtain rfl := Option.some.inj h
      exact ⟨todo, hlisted, hget⟩
    · cases h
  · cases h

/-- A scan that is done has seen every selected file. -/
theorem Sees.of_done (h : s.Sees good sel) (hdone : s.done = true) {p : Path}
    (hp : sel p = true) : good p (s.got.lookup p) := by
  have hlisted : s.listed = some [] := by simpa [done] using hdone
  unfold Sees at h
  rw [hlisted] at h
  simpa using h p hp

/-- A scan that is not done has fewer files to look at after a look. -/
def remaining (list : Disk → List Path) (D : Disk) (s : Scan) : ℕ :=
  match s.listed with
  | none => (list D).length + 1
  | some todo => todo.length

theorem remaining_look {list : Disk → List Path} {D : Disk} (h : s.done = false) :
    (s.look list D).remaining list D < s.remaining list D := by
  obtain ⟨listed, got⟩ := s
  match listed with
  | none => simp [look, remaining]
  | some [] => simp [done] at h
  | some (q :: todo) => simp [look, remaining]

end Scan

/-! ## Runs -/

section
variable {V : Type} (L : Loader V) (D₀ : Disk)

/-- The world after some steps of a process that starts on the files `D₀`. -/
def after (steps : List Step) : World V := World.run L { disk := D₀ } steps

theorem after_concat (steps : List Step) (s : Step) :
    after L D₀ (steps ++ [s]) = (after L D₀ steps).step L s := by
  simp [after, World.run]

/-- Each write changes the signature of the files. -/
def Changing (steps : List Step) : Prop :=
  ∀ pre p f, pre ++ [.write p f] <+: steps →
    watched p = true ∧ ((after L D₀ pre).disk.get p).map File.stat ≠ f.map File.stat

/-- The construction of the service, from its first file to its signature. -/
def Activity.Constructs : Activity V → Prop
  | .starting _ _ | .constructing _ _ _ => True
  | _ => False

/-- Runs where no signature is recorded for files it was not read from. -/
structure Careful (steps : List Step) : Prop where
  /-- No write falls into the construction of the service. -/
  construct : ∀ pre p f, pre ++ [.write p f] <+: steps →
    ¬ (after L D₀ pre).activity.Constructs
  /-- No write gives a file a time and size it has had before. -/
  stat : ∀ pre p f, pre ++ [.write p (some f)] <+: steps →
    ∀ pre', pre' <+: pre → ∀ g, (after L D₀ pre').disk.get p = some g → g.stat ≠ f.stat
  /-- A file that was created while a refresh ran is not removed. -/
  removed : ∀ pre p, pre ++ [.write p none] <+: steps →
    ∀ pre' g, pre' ++ [.write p (some g)] <+: pre → (after L D₀ pre').disk.get p = none →
      (after L D₀ pre').activity = .idle

/-- **A reloading project serves current definitions.** -/
structure ServesCurrent (steps : List Step) : Prop where
  /-- A refresh during which nothing is written ends, on the state of the files if they validate. -/
  current : ∀ t r, (after L D₀ steps).activity = .idle → (after L D₀ steps).reloader = some r →
    r.mode = .auto → (after L D₀ steps).pinned t = none →
    ∃ n, (after L D₀ (steps ++ .enter t :: List.replicate n .tick)).activity = .idle ∧
      ∀ st, ProjectState.load L (after L D₀ steps).disk = .ok st →
        (after L D₀ (steps ++ .enter t :: List.replicate n .tick)).pinned t = some (st, 1)
  /-- A refresh whose load fails leaves the state from before it in place. -/
  kept : ∀ pre t mid sig g e, steps = pre ++ .enter t :: mid →
    (∀ s ∈ mid, s = .tick ∨ ∃ p f, s = .write p f) →
    (after L D₀ steps).activity = .reloading t sig g →
    g.tick L (after L D₀ steps).disk = .error e →
    (after L D₀ (steps ++ [.tick])).reloader.map (·.state) =
        (after L D₀ pre).reloader.map (·.state) ∧
      (e.isReloadError = true → (after L D₀ (steps ++ [.tick])).pinned t =
        (after L D₀ pre).reloader.map fun r => (r.state, 1))
  /-- Within a request every read sees the state pinned at its start. -/
  pinned : ∀ pre mid t st depth, steps = pre ++ mid →
    (after L D₀ pre).pinned t = some (st, depth) →
    (∀ mid', mid' <+: mid → (after L D₀ (pre ++ mid')).pinned t ≠ none) →
    (after L D₀ steps).state t = some st

/-- The runs the claim of a careful service is about. -/
structure Admissible (steps : List Step) : Prop where
  changing : Changing L D₀ steps
  careful : Careful L D₀ steps

/-- The files of a later moment. -/
def Later (steps : List Step) (D : Disk) : Prop :=
  ∃ more, Admissible L D₀ (steps ++ more) ∧ D = (after L D₀ (steps ++ more)).disk

variable {L D₀}

theorem Admissible.of_prefix {steps pre : List Step} (h : Admissible L D₀ steps)
    (hpre : pre <+: steps) : Admissible L D₀ pre := by
  constructor
  · exact fun p q f hp => h.changing p q f (hp.trans hpre)
  · constructor
    · exact fun p q f hp => h.careful.construct p q f (hp.trans hpre)
    · exact fun p q f hp => h.careful.stat p q f (hp.trans hpre)
    · exact fun p q hp => h.careful.removed p q (hp.trans hpre)

theorem prefix_of_write {steps pre : List Step} {s : Step} {p : Path} {f : Option File}
    (hs : ∀ p f, s ≠ .write p f) (h : pre ++ [.write p f] <+: steps ++ [s]) :
    pre ++ [.write p f] <+: steps := by
  rcases List.prefix_concat_iff.mp h with heq | h
  · have hlast := (List.append_inj' heq rfl).2
    exact absurd (List.singleton_inj.mp hlast).symm (hs p f)
  · exact h

theorem Changing.concat {steps : List Step} (h : Changing L D₀ steps) {s : Step}
    (hs : ∀ p f, s ≠ .write p f) : Changing L D₀ (steps ++ [s]) :=
  fun pre p f hpre => h pre p f (prefix_of_write hs hpre)

/-- A step that writes nothing keeps a run admissible. -/
theorem Admissible.concat {steps : List Step} (h : Admissible L D₀ steps) {s : Step}
    (hs : ∀ p f, s ≠ .write p f) : Admissible L D₀ (steps ++ [s]) := by
  refine ⟨h.changing.concat hs, ⟨fun p q f hp => ?_, fun p q f hp => ?_, fun p q hp => ?_⟩⟩
  · exact h.careful.construct p q f (prefix_of_write hs hp)
  · exact h.careful.stat p q f (prefix_of_write hs hp)
  · exact h.careful.removed p q (prefix_of_write hs hp)

theorem Later.self {steps : List Step} (h : Admissible L D₀ steps) :
    Later L D₀ steps (after L D₀ steps).disk :=
  ⟨[], by simpa using h, by simp⟩

theorem Later.of_concat {steps : List Step} {s : Step} {D : Disk}
    (h : Later L D₀ (steps ++ [s]) D) : Later L D₀ steps D := by
  obtain ⟨more, hadm, rfl⟩ := h
  exact ⟨s :: more, by simpa using hadm, by simp⟩

/-! ## What a file comes back to -/

/-- The task whose refresh is running. -/
def Activity.task : Activity V → Option Task
  | .signing t _ | .reloading t _ _ | .drifting t _ => some t
  | _ => none

/-- What one operation leaves as it is: the files, what other tasks are pinned to, and, until the
event loop is idle again, everything but the loop itself and what the reloader knows of the files.
-/
structure Frame (w w' : World V) : Prop where
  disk : w'.disk = w.disk
  pinned : ∀ t, w.activity.task ≠ some t → w'.pinned t = w.pinned t
  busy : w'.activity = .idle ∨ w'.activity.task = w.activity.task ∧ w'.pinned = w.pinned ∧
    w'.reloader.map (·.state) = w.reloader.map (·.state)

theorem Frame.refl (w : World V) : Frame w w := ⟨rfl, fun _ _ => rfl, Or.inr ⟨rfl, rfl, rfl⟩⟩

/-- The loop moves on. -/
theorem Frame.activity {w w' : World V} (hdisk : w'.disk = w.disk) (hpinned : w'.pinned = w.pinned)
    (hstate : w'.reloader.map (·.state) = w.reloader.map (·.state))
    (htask : w'.activity.task = w.activity.task) : Frame w w' :=
  ⟨hdisk, fun t _ => by rw [hpinned], Or.inr ⟨htask, hpinned, hstate⟩⟩

/-- The running request begins. -/
theorem Frame.pin {w : World V} {t : Task} (h : w.activity.task = some t)
    (r : Option (Reloader V)) (st : ProjectState V) :
    Frame w ({ w with reloader := r }.pin t st) := by
  refine ⟨rfl, fun t' ht' => ?_, Or.inl rfl⟩
  have hne : t' ≠ t := fun heq => ht' (heq ▸ h)
  simp [World.pin, Function.update_of_ne hne]

theorem frame_signed {w : World V} {t : Task} {scan : Scan} {r : Reloader V}
    (h : w.activity = .signing t scan) (hr : w.reloader = some r) :
    Frame w (w.signed r t scan.signature) := by
  have htask : w.activity.task = some t := by rw [h, Activity.task]
  have hpin := Frame.pin htask w.reloader r.state
  unfold World.signed
  split
  · split
    · exact hpin
    · exact .activity rfl rfl (by rw [hr]; rfl) htask.symm
  · split
    · exact Frame.pin htask _ _
    · split
      · exact hpin
      · exact .activity rfl rfl rfl htask.symm

theorem frame_tick (w : World V) : Frame w (w.tick L) := by
  unfold World.tick
  cases hact : w.activity with
  | idle => exact .refl w
  | starting reload g =>
      dsimp only
      cases hg : g.tick L w.disk with
      | error e => exact ⟨rfl, fun _ _ => rfl, Or.inl rfl⟩
      | ok g' =>
          dsimp only
          split
          · exact .activity rfl rfl rfl (by rw [hact]; rfl)
          · exact .activity rfl rfl rfl (by rw [hact]; rfl)
  | constructing reload st scan =>
      dsimp only
      split
      · exact ⟨rfl, fun _ _ => rfl, Or.inl rfl⟩
      · exact .activity rfl rfl rfl (by rw [hact]; rfl)
  | signing t scan =>
      dsimp only
      cases hr : w.reloader with
      | none => exact .refl w
      | some r =>
          dsimp only
          split
          · exact frame_signed hact hr
          · exact .activity rfl rfl (by rw [hr]) (by rw [hact]; rfl)
  | reloading t sig g =>
      have htask : w.activity.task = some t := by rw [hact, Activity.task]
      dsimp only
      cases hr : w.reloader with
      | none => exact .refl w
      | some r =>
          dsimp only
          cases hg : g.tick L w.disk with
          | error e =>
              dsimp only [World.failed]
              split
              · exact Frame.pin htask _ _
              · exact ⟨rfl, fun _ _ => rfl, Or.inl rfl⟩
          | ok g' =>
              dsimp only
              split
              · exact Frame.pin htask _ _
              · exact .activity rfl rfl (by rw [hr]) htask.symm
  | drifting t scan =>
      have htask : w.activity.task = some t := by rw [hact, Activity.task]
      dsimp only
      cases hr : w.reloader with
      | none => exact .refl w
      | some r =>
          dsimp only
          split
          · exact Frame.pin htask _ _
          · exact .activity rfl rfl (by rw [hr]) htask.symm

theorem construct_cases (w : World V) (reload : Option ProjectReload) :
    w.construct reload = w ∨ w.construct reload = { w with activity := .starting reload {} } := by
  unfold World.construct
  split
  · exact Or.inr rfl
  · exact Or.inl rfl

theorem enter_cases (w : World V) (t : Task) :
    w.enter t = w ∨
    w.pinned t = none ∧ w.enter t = { w with activity := .signing t {} } ∨
    ∃ st depth, w.pinned t = some (st, depth) ∧ w.enter t =
      { w with pinned := Function.update w.pinned t (some (st, depth + 1)) } := by
  unfold World.enter
  split
  · next hpin => exact Or.inr (Or.inl ⟨hpin, rfl⟩)
  · next st depth _ _ hpin => exact Or.inr (Or.inr ⟨st, depth, hpin, rfl⟩)
  · exact Or.inl rfl

theorem leave_cases (w : World V) (t : Task) :
    w.leave t = w ∨ w.activity = .idle ∧ ∃ left, w.leave t =
      { w with pinned := Function.update w.pinned t left } ∧
      ∀ st depth, left = some (st, depth) → ∃ depth', w.pinned t = some (st, depth') := by
  unfold World.leave
  split
  · next st depth hidle hpin =>
    refine Or.inr ⟨hidle, _, rfl, ?_⟩
    rintro st' depth' heq
    obtain ⟨rfl, -⟩ := Prod.mk.inj (Option.some.inj heq)
    exact ⟨_, hpin⟩
  · next hidle _ => exact Or.inr ⟨hidle, none, rfl, fun st depth h => by cases h⟩
  · exact Or.inl rfl

/-- Only a write changes the files. -/
theorem disk_step (w : World V) (s : Step) :
    (w.step L s).disk = match s with
      | .write p f => w.disk.write p f
      | _ => w.disk := by
  cases s with
  | write p f => rfl
  | construct reload =>
      show (w.construct reload).disk = w.disk
      rcases construct_cases w reload with h | h <;> rw [h]
  | tick => exact (frame_tick w).disk
  | enter t =>
      show (w.enter t).disk = w.disk
      rcases enter_cases w t with h | ⟨-, h⟩ | ⟨_, _, -, h⟩ <;> rw [h]
  | leave t =>
      show (w.leave t).disk = w.disk
      rcases leave_cases w t with h | ⟨-, _, h, -⟩ <;> rw [h]

/-- A file that is different later was written in between. -/
theorem exists_write {pre more : List Step} {p : Path} {f : Option File}
    (hnow : (after L D₀ pre).disk.get p ≠ f) (hlater : (after L D₀ (pre ++ more)).disk.get p = f) :
    ∃ mid, pre ++ mid ++ [.write p f] <+: pre ++ more := by
  induction more using List.reverseRecOn with
  | nil => exact absurd (by simpa using hlater) hnow
  | append_singleton more s ih =>
      rw [← List.append_assoc] at hlater ⊢
      by_cases hbefore : (after L D₀ (pre ++ more)).disk.get p = f
      · obtain ⟨mid, hmid⟩ := ih hbefore
        exact ⟨mid, hmid.trans (List.prefix_append _ _)⟩
      · rw [after_concat, disk_step] at hlater
        cases s with
        | write q g =>
            by_cases hpq : p = q
            · subst hpq
              rw [Disk.get_write_self] at hlater
              exact ⟨more, hlater ▸ List.prefix_rfl⟩
            · exact absurd ((Disk.get_write_ne hpq g).symm.trans hlater) hbefore
        | construct => exact absurd hlater hbefore
        | tick => exact absurd hlater hbefore
        | enter => exact absurd hlater hbefore
        | leave => exact absurd hlater hbefore

/-- A file with the time and size of now is the file of now. -/
theorem get_of_stat {steps : List Step} {D : Disk} (h : Later L D₀ steps D) {p : Path}
    (hstat : (D.get p).map File.stat = ((after L D₀ steps).disk.get p).map File.stat) :
    D.get p = (after L D₀ steps).disk.get p := by
  obtain ⟨more, hadm, rfl⟩ := h
  by_contra hne
  cases hlater : (after L D₀ (steps ++ more)).disk.get p with
  | none =>
      cases hnow : (after L D₀ steps).disk.get p with
      | none => exact hne (hlater.trans hnow.symm)
      | some g => simp [hlater, hnow] at hstat
  | some g =>
      obtain ⟨mid, hmid⟩ := exists_write (fun heq => hne (hlater.trans heq.symm)) hlater
      cases hnow : (after L D₀ steps).disk.get p with
      | none => simp [hlater, hnow] at hstat
      | some f =>
          refine hadm.careful.stat _ _ _ hmid steps (List.prefix_append _ _) f hnow ?_
          simpa [hlater, hnow] using hstat.symm

/-- What a file was before a write to it, while a refresh runs, it does not become again. -/
theorem get_ne_of_write {steps : List Step} {p : Path} {f : Option File} {D : Disk}
    (h : Later L D₀ (steps ++ [.write p f]) D) (hbusy : (after L D₀ steps).activity ≠ .idle) :
    D.get p ≠ (after L D₀ steps).disk.get p := by
  obtain ⟨more, hadm, rfl⟩ := h
  intro heq
  have hchange := (hadm.changing steps p f (List.prefix_append _ _)).2
  have hnow : (after L D₀ (steps ++ [.write p f])).disk.get p ≠ (after L D₀ steps).disk.get p := by
    rw [after_concat, disk_step, Disk.get_write_self]
    intro hf
    exact hchange (by rw [hf])
  obtain ⟨mid, hmid⟩ := exists_write hnow heq
  cases hold : (after L D₀ steps).disk.get p with
  | some g =>
      rw [hold] at hmid
      exact hadm.careful.stat _ _ _ hmid steps
        ((List.prefix_append _ _).trans (List.prefix_append _ _)) g hold rfl
  | none =>
      rw [hold] at hmid
      cases f with
      | none => exact hchange (by rw [hold])
      | some g =>
          exact hbusy (hadm.careful.removed _ _ hmid steps g (List.prefix_append _ _) hold)

/-! ## What is recorded with a signature -/

/-- The files have the times and sizes of a signature. -/
def Agrees (D : Disk) (sig : ProjectSignature) : Prop :=
  ∀ p, watched p = true → (D.get p).map File.stat = sig.lookup p

theorem Scan.lookup_signature (s : Scan) (p : Path) :
    s.signature.lookup p = (s.got.lookup p).map File.stat := by
  unfold Scan.signature
  induction s.got with
  | nil => rfl
  | cons e got ih =>
      obtain ⟨q, f⟩ := e
      rw [List.map_cons, List.lookup_cons, List.lookup_cons]
      cases p == q with
      | true => rfl
      | false => exact ih

/-- What a scan saw of a file is what later files have, when they have its time and size. -/
def Settled (L : Loader V) (D₀ : Disk) (steps : List Step) (p : Path) (f : Option File) : Prop :=
  ∀ D, Later L D₀ steps D → (D.get p).map File.stat = f.map File.stat →
    D.get p = (after L D₀ steps).disk.get p

theorem settled_now {steps : List Step} (p : Path) :
    Settled L D₀ steps p ((after L D₀ steps).disk.get p) :=
  fun _ hD hstat => get_of_stat hD hstat

/-- A write during the refresh does not unsettle what the scan saw. -/
theorem Settled.concat {steps : List Step} {p : Path} {f : Option File}
    (h : Settled L D₀ steps p f) (hbusy : (after L D₀ steps).activity ≠ .idle) (s : Step) :
    Settled L D₀ (steps ++ [s]) p f := by
  intro D hD hstat
  have hold := h D hD.of_concat hstat
  rw [hold, after_concat, disk_step]
  cases s with
  | write q g =>
      by_cases hpq : p = q
      · subst hpq
        exact absurd hold (get_ne_of_write hD hbusy)
      · exact (Disk.get_write_ne hpq g).symm
  | construct => rfl
  | tick => rfl
  | enter => rfl
  | leave => rfl

/-- Later files with this signature are the watched files of now. -/
def SettledAll (L : Loader V) (D₀ : Disk) (steps : List Step) (sig : ProjectSignature) : Prop :=
  ∀ D, Later L D₀ steps D → Agrees D sig →
    ∀ p, watched p = true → D.get p = (after L D₀ steps).disk.get p

theorem SettledAll.concat {steps : List Step} {sig : ProjectSignature}
    (h : SettledAll L D₀ steps sig) (hbusy : (after L D₀ steps).activity ≠ .idle) (s : Step) :
    SettledAll L D₀ (steps ++ [s]) sig := by
  intro D hD hsig p hp
  have hsettled : Settled L D₀ steps p ((after L D₀ steps).disk.get p) := settled_now p
  have hold := h D hD.of_concat hsig p hp
  exact hsettled.concat hbusy s D hD (by rw [hold])

variable (L) in
/-- A load under way that has read the files `D` so far. -/
structure Progress.On (D : Disk) (g : Progress V) : Prop where
  load : ProjectState.load L D = L.readAll (Section.contents D) g.todo g.state
  scan : ∀ s rest, g.todo = s :: rest →
    g.scan.Sees (fun p f => f = D.get p) s.reads ∧
      (s ≠ .fingerprint → ∀ todo, g.scan.listed = some todo →
        ∀ p ∈ todo, watched p = true ∧ D.get p ≠ none)

theorem Progress.on_new (D : Disk) : Progress.On L D ({} : Progress V) :=
  ⟨rfl, fun _ _ _ => ⟨Scan.sees_new, fun _ _ h => by cases h⟩⟩

theorem Scan.contents_of_done {s : Scan} {sec : Section} {D : Disk}
    (h : s.Sees (fun p f => f = D.get p) sec.reads) (hdone : s.done = true) :
    s.contents sec = Section.contents D sec := by
  funext p
  unfold Scan.contents Section.contents
  split
  · rw [h.of_done hdone (by assumption)]
  · rfl

/-- The next operation of a load, on files that are those of `D` as far as they are watched. -/
theorem Progress.On.tick {D cur : Disk} {g : Progress V} (h : Progress.On L D g)
    (hcur : ∀ p, watched p = true → cur.get p = D.get p) :
    match g.tick L cur with
    | .ok g' => Progress.On L D g'
    | .error e => ProjectState.load L D = .error e := by
  unfold Progress.tick
  cases htodo : g.todo with
  | nil => exact h
  | cons s rest =>
      obtain ⟨hsees, hlisted⟩ := h.scan s rest htodo
      -- a look sees what is loaded from, since no watched file differs
      have hlook : Progress.On L D { g with scan := g.scan.look s.files cur } := by
        refine ⟨h.load, fun s' rest' htodo' => ?_⟩
        obtain ⟨rfl, rfl⟩ := List.cons.inj (htodo.symm.trans htodo')
        constructor
        · exact hsees.look (fun p hp => hcur p (Section.watched_of_reads hp))
            fun p hp hget => Section.mem_files hp hget
        · exact fun hs => Scan.listed_look (hlisted hs) fun p hp => by
            simp only [Section.files, if_neg hs, Disk.mem_files] at hp
            have hw := Section.watched_of_reads hp.2
            exact ⟨hw, hcur p hw ▸ hp.1⟩
      rw [htodo] at hlook
      dsimp only
      by_cases hdone : g.scan.done = true
      · rw [if_pos hdone, Scan.contents_of_done hsees hdone]
        have hload := h.load
        rw [htodo, Loader.readAll] at hload
        cases hread : L.read g.state s (Section.contents D s) with
        | error e =>
            rw [hread] at hload
            exact hload
        | ok st =>
            rw [hread] at hload
            exact ⟨hload, fun _ _ _ => ⟨Scan.sees_new, fun _ _ h => by cases h⟩⟩
      · rw [if_neg hdone]
        cases hgone : g.scan.vanished cur with
        | none => exact hlook
        | some p =>
            dsimp only
            by_cases hs : s = .fingerprint
            · rw [if_pos hs]
              exact hlook
            · -- a listed file is there
              exfalso
              obtain ⟨todo, htodo, hnone⟩ := Scan.vanished_eq_some hgone
              obtain ⟨hw, hget⟩ := hlisted hs _ htodo p List.mem_cons_self
              exact hget (hcur p hw ▸ hnone)

theorem load_congr {D D' : Disk} (h : ∀ p, watched p = true → D.get p = D'.get p) :
    ProjectState.load L D = ProjectState.load L D' := by
  have hcontents : Section.contents D = Section.contents D' := by
    funext s p
    unfold Section.contents
    split
    · rw [h p (Section.watched_of_reads (by assumption))]
    · rfl
  rw [ProjectState.load, hcontents, ProjectState.load]

/-! ## The invariant of a careful run -/

variable (L D₀) in
/-- What is known of the files while the event loop is busy. -/
def ActivityInv (steps : List Step) : Activity V → Prop
  | .idle | .drifting _ _ => True
  | .starting _ g => Progress.On L (after L D₀ steps).disk g
  | .constructing _ st scan => ProjectState.load L (after L D₀ steps).disk = .ok st ∧
      scan.Sees (fun p f => f = (after L D₀ steps).disk.get p) watched
  | .signing _ scan => scan.Sees (Settled L D₀ steps) watched
  | .reloading _ sig g => SettledAll L D₀ steps sig ∧
      ∀ D, Later L D₀ steps D → Agrees D sig → Progress.On L D g

variable (L D₀) in
/-- What a reloader has recorded is right of every later state of the files. -/
structure Recorded (steps : List Step) (r : Reloader V) : Prop where
  state : ∀ D, Later L D₀ steps D → Agrees D r.signature → ProjectState.load L D = .ok r.state
  failure : ∀ sig e, r.failure = some (sig, e) →
    ∀ D, Later L D₀ steps D → Agrees D sig → ProjectState.load L D = .error e

variable (L D₀) in
structure Inv (steps : List Step) : Prop where
  activity : ActivityInv L D₀ steps (after L D₀ steps).activity
  reloader : ∀ r, (after L D₀ steps).reloader = some r → Recorded L D₀ steps r

theorem Recorded.concat {steps : List Step} {r : Reloader V} (h : Recorded L D₀ steps r)
    (s : Step) : Recorded L D₀ (steps ++ [s]) r :=
  ⟨fun D hD => h.state D hD.of_concat, fun sig e hf D hD => h.failure sig e hf D hD.of_concat⟩

/-- What is known stays known when nothing is written. -/
theorem ActivityInv.concat {steps : List Step} {a : Activity V} (h : ActivityInv L D₀ steps a)
    {s : Step} (hdisk : (after L D₀ (steps ++ [s])).disk = (after L D₀ steps).disk) :
    ActivityInv L D₀ (steps ++ [s]) a := by
  cases a with
  | idle => trivial
  | drifting t scan => trivial
  | starting reload g =>
      unfold ActivityInv at h ⊢
      rw [hdisk]
      exact h
  | constructing reload st scan =>
      unfold ActivityInv at h ⊢
      rw [hdisk]
      exact h
  | signing t scan =>
      refine Scan.Sees.mono h fun p f _ hp D hD hstat => ?_
      rw [hdisk]
      exact hp D hD.of_concat hstat
  | reloading t sig g =>
      refine ⟨fun D hD hsig p hp => ?_, fun D hD => h.2 D hD.of_concat⟩
      rw [hdisk]
      exact h.1 D hD.of_concat hsig p hp

/-- What is known stays known when something is written, but in the construction. -/
theorem Inv.write {steps : List Step} {p : Path} {f : Option File} (h : Inv L D₀ steps)
    (hadm : Admissible L D₀ (steps ++ [.write p f])) : Inv L D₀ (steps ++ [.write p f]) := by
  have hconstruct := hadm.careful.construct steps p f List.prefix_rfl
  have hact : (after L D₀ (steps ++ [.write p f])).activity = (after L D₀ steps).activity := by
    rw [after_concat, World.step]
  constructor
  · rw [hact]
    have hinv := h.activity
    have hbusy : ∀ a, (after L D₀ steps).activity = a → a ≠ .idle →
        (after L D₀ steps).activity ≠ .idle := fun a ha hne => ha ▸ hne
    cases ha : (after L D₀ steps).activity with
    | idle => trivial
    | drifting t scan => trivial
    | starting reload g => exact absurd (by rw [ha]; trivial) hconstruct
    | constructing reload st scan => exact absurd (by rw [ha]; trivial) hconstruct
    | signing t scan =>
        rw [ha] at hinv
        exact Scan.Sees.mono hinv fun q g _ hq => hq.concat (hbusy _ ha nofun) _
    | reloading t sig g =>
        rw [ha] at hinv
        exact ⟨hinv.1.concat (hbusy _ ha nofun) _, fun D hD => hinv.2 D hD.of_concat⟩
  · intro r hr
    rw [after_concat, World.step] at hr
    exact (h.reloader r hr).concat _

/-- A signature that was read of files that did not change is theirs. -/
theorem Scan.agrees_of_done {D : Disk} {scan : Scan}
    (h : scan.Sees (fun p f => f = D.get p) watched) (hdone : scan.done = true) :
    Agrees D scan.signature := by
  intro p hp
  rw [Scan.lookup_signature, h.of_done hdone hp]

/-- A refresh that has read its signature. -/
theorem settledAll_of_done {steps : List Step} {scan : Scan}
    (h : scan.Sees (Settled L D₀ steps) watched) (hdone : scan.done = true) :
    SettledAll L D₀ steps scan.signature := by
  intro D hD hsig p hp
  refine h.of_done hdone hp D hD ?_
  rw [hsig p hp, Scan.lookup_signature]

/-! One operation further, the files are what they were. -/

section Tick

variable {steps : List Step}

variable (L D₀) in
theorem disk_after_tick (steps : List Step) :
    (after L D₀ (steps ++ [Step.tick])).disk = (after L D₀ steps).disk := by
  rw [after_concat, disk_step]

variable (L D₀) in
theorem after_tick (steps : List Step) :
    after L D₀ (steps ++ [Step.tick]) = (after L D₀ steps).tick L :=
  after_concat ..

theorem Inv.of_tick {w : World V} (hstep : after L D₀ (steps ++ [Step.tick]) = w)
    (hactivity : ActivityInv L D₀ (steps ++ [Step.tick]) w.activity)
    (hreloader : ∀ r, w.reloader = some r → Recorded L D₀ (steps ++ [Step.tick]) r) :
    Inv L D₀ (steps ++ [Step.tick]) := by
  subst hstep
  exact ⟨hactivity, hreloader⟩

theorem Inv.recorded_tick (h : Inv L D₀ steps) :
    ∀ r, (after L D₀ steps).reloader = some r → Recorded L D₀ (steps ++ [Step.tick]) r :=
  fun r hr => (h.reloader r hr).concat _

theorem Inv.tick_starting (h : Inv L D₀ steps) {reload : Option ProjectReload} {g : Progress V}
    (ha : (after L D₀ steps).activity = .starting reload g) : Inv L D₀ (steps ++ [Step.tick]) := by
  have hdisk := disk_after_tick L D₀ steps
  have hstep := after_tick L D₀ steps
  have hinv := h.activity.concat hdisk
  rw [World.tick] at hstep
  rw [ha] at hstep hinv
  have hon : Progress.On L (after L D₀ (steps ++ [Step.tick])).disk g := hinv
  have hnext := hon.tick fun p _ => rfl
  rw [hdisk] at hnext
  dsimp only at hstep
  cases hg : g.tick L (after L D₀ steps).disk with
  | error e =>
      rw [hg] at hstep
      exact Inv.of_tick hstep trivial h.recorded_tick
  | ok g' =>
      rw [hg] at hstep hnext
      dsimp only at hstep hnext
      rw [← hdisk] at hnext
      split at hstep
      · next htodo =>
        refine Inv.of_tick hstep ⟨?_, Scan.sees_new⟩ h.recorded_tick
        rw [hnext.load, htodo, Loader.readAll]
      · exact Inv.of_tick hstep hnext h.recorded_tick

theorem Inv.tick_constructing (h : Inv L D₀ steps) {reload : Option ProjectReload}
    {st : ProjectState V} {scan : Scan}
    (ha : (after L D₀ steps).activity = .constructing reload st scan) :
    Inv L D₀ (steps ++ [Step.tick]) := by
  have hdisk := disk_after_tick L D₀ steps
  have hstep := after_tick L D₀ steps
  have hinv := h.activity.concat hdisk
  rw [World.tick] at hstep
  rw [ha] at hstep hinv
  obtain ⟨hst, hsees⟩ := hinv
  dsimp only at hstep
  split at hstep
  · next hdone =>
    refine Inv.of_tick hstep trivial fun r hr => ?_
    obtain rfl := Option.some.inj hr
    refine ⟨fun D hD hsig => ?_, fun sig e hf => by cases hf⟩
    rw [← hst]
    refine load_congr fun p hp => get_of_stat hD ?_
    rw [hsig p hp, Scan.agrees_of_done hsees hdone p hp]
  · refine Inv.of_tick hstep ⟨hst, ?_⟩ h.recorded_tick
    rw [hdisk] at hsees ⊢
    exact hsees.look (fun p _ => rfl) fun p hp => mem_watchedFiles hp

theorem Inv.tick_signing (h : Inv L D₀ steps) {t : Task} {scan : Scan}
    (ha : (after L D₀ steps).activity = .signing t scan) : Inv L D₀ (steps ++ [Step.tick]) := by
  have hdisk := disk_after_tick L D₀ steps
  have hstep := after_tick L D₀ steps
  have hinv := h.activity.concat hdisk
  rw [World.tick] at hstep
  rw [ha] at hstep hinv
  dsimp only at hstep
  cases hr : (after L D₀ steps).reloader with
  | none =>
      rw [hr] at hstep
      exact Inv.of_tick hstep (by rw [ha]; exact hinv) fun r' hr' => h.recorded_tick r' hr'
  | some r =>
      rw [hr] at hstep
      dsimp only at hstep
      have hr' := h.recorded_tick r hr
      have hsame : ∀ r', some r = some r' → Recorded L D₀ (steps ++ [Step.tick]) r' := by
        rintro r' ⟨rfl⟩
        exact hr'
      split at hstep
      · next hdone =>
        unfold World.signed at hstep
        split at hstep
        · split at hstep
          · exact Inv.of_tick hstep trivial (hr ▸ hsame)
          · refine Inv.of_tick hstep trivial ?_
            rintro r' ⟨rfl⟩
            exact ⟨hr'.state, hr'.failure⟩
        · split at hstep
          · refine Inv.of_tick hstep trivial ?_
            rintro r' ⟨rfl⟩
            exact ⟨hr'.state, fun sig e hf => by cases hf⟩
          · split at hstep
            · exact Inv.of_tick hstep trivial (hr ▸ hsame)
            · exact Inv.of_tick hstep
                ⟨settledAll_of_done hinv hdone, fun D _ _ => Progress.on_new D⟩
                (hr ▸ hsame)
      · refine Inv.of_tick hstep
          (Scan.Sees.look hinv (fun p _ => ?_) fun p hp => mem_watchedFiles hp) (hr ▸ hsame)
        rw [← hdisk]
        exact settled_now p

theorem Inv.tick_reloading (h : Inv L D₀ steps) {t : Task} {sig : ProjectSignature} {g : Progress V}
    (ha : (after L D₀ steps).activity = .reloading t sig g) : Inv L D₀ (steps ++ [Step.tick]) := by
  have hdisk := disk_after_tick L D₀ steps
  have hstep := after_tick L D₀ steps
  have hinv := h.activity.concat hdisk
  rw [World.tick] at hstep
  rw [ha] at hstep hinv
  obtain ⟨hsettled, hon⟩ := hinv
  dsimp only at hstep
  cases hr : (after L D₀ steps).reloader with
  | none =>
      rw [hr] at hstep
      exact Inv.of_tick hstep (by rw [ha]; exact ⟨hsettled, hon⟩)
        fun r' hr' => h.recorded_tick r' hr'
  | some r =>
      rw [hr] at hstep
      dsimp only at hstep
      have hr' := h.recorded_tick r hr
      -- while the signature is the one that was taken, the disk is what it was taken of
      have hnext : ∀ D, Later L D₀ (steps ++ [Step.tick]) D → Agrees D sig →
          match g.tick L (after L D₀ steps).disk with
          | .ok g' => Progress.On L D g'
          | .error e => ProjectState.load L D = .error e := by
        intro D hD hsig
        refine (hon D hD hsig).tick fun p hp => ?_
        rw [← hdisk]
        exact (hsettled D hD hsig p hp).symm
      cases hg : g.tick L (after L D₀ steps).disk with
      | error e =>
          rw [hg] at hstep hnext
          dsimp only [World.failed] at hstep hnext
          split at hstep
          · refine Inv.of_tick hstep trivial ?_
            rintro r' ⟨rfl⟩
            refine ⟨hr'.state, fun sig' e' hf => ?_⟩
            obtain ⟨rfl, rfl⟩ := Prod.mk.inj (Option.some.inj hf)
            exact hnext
          · exact Inv.of_tick hstep trivial fun r' hr' => h.recorded_tick r' hr'
      | ok g' =>
          rw [hg] at hstep hnext
          dsimp only at hstep hnext
          split at hstep
          · next htodo =>
            refine Inv.of_tick hstep trivial ?_
            rintro r' ⟨rfl⟩
            refine ⟨fun D hD hsig => ?_, fun sig e hf => by cases hf⟩
            rw [(hnext D hD hsig).load, htodo, Loader.readAll]
          · exact Inv.of_tick hstep ⟨hsettled, hnext⟩
              fun r' hr'' => h.recorded_tick r' (hr.trans hr'')

theorem Inv.tick_drifting (h : Inv L D₀ steps) {t : Task} {scan : Scan}
    (ha : (after L D₀ steps).activity = .drifting t scan) : Inv L D₀ (steps ++ [Step.tick]) := by
  have hdisk := disk_after_tick L D₀ steps
  have hstep := after_tick L D₀ steps
  have hinv := h.activity.concat hdisk
  rw [World.tick] at hstep
  rw [ha] at hstep
  dsimp only at hstep
  cases hr : (after L D₀ steps).reloader with
  | none =>
      rw [hr] at hstep
      exact Inv.of_tick hstep (by rw [ha]; trivial) fun r' hr' => h.recorded_tick r' hr'
  | some r =>
      rw [hr] at hstep
      dsimp only at hstep
      have hr' := h.recorded_tick r hr
      split at hstep
      · refine Inv.of_tick hstep trivial ?_
        rintro r' ⟨rfl⟩
        exact ⟨hr'.state, hr'.failure⟩
      · exact Inv.of_tick hstep trivial fun r' hr'' => h.recorded_tick r' (hr.trans hr'')

theorem Inv.tick (h : Inv L D₀ steps) : Inv L D₀ (steps ++ [Step.tick]) := by
  cases ha : (after L D₀ steps).activity with
  | idle =>
      have hstep := after_tick L D₀ steps
      rw [World.tick, ha] at hstep
      exact Inv.of_tick hstep (by rw [ha]; trivial) h.recorded_tick
  | starting reload g => exact h.tick_starting ha
  | constructing reload st scan => exact h.tick_constructing ha
  | signing t scan => exact h.tick_signing ha
  | reloading t sig g => exact h.tick_reloading ha
  | drifting t scan => exact h.tick_drifting ha

end Tick

/-- A step that changes neither the files nor the reloader, and starts nothing but a new scan. -/
theorem Inv.of_same {steps : List Step} (h : Inv L D₀ steps) {s : Step} {w : World V}
    (hstep : after L D₀ (steps ++ [s]) = w) (hdisk : w.disk = (after L D₀ steps).disk)
    (hreloader : w.reloader = (after L D₀ steps).reloader)
    (hactivity : w.activity = (after L D₀ steps).activity ∨
      (∃ reload, w.activity = .starting reload {}) ∨ ∃ t, w.activity = .signing t {}) :
    Inv L D₀ (steps ++ [s]) := by
  refine ⟨?_, fun r hr => (h.reloader r (by rw [← hreloader, ← hstep, hr])).concat s⟩
  rw [hstep]
  rcases hactivity with heq | ⟨reload, heq⟩ | ⟨t, heq⟩
  · rw [heq]
    exact h.activity.concat (by rw [hstep, hdisk])
  · rw [heq]
    exact Progress.on_new _
  · rw [heq]
    unfold ActivityInv
    exact Scan.sees_new

theorem inv_of_admissible {steps : List Step} (h : Admissible L D₀ steps) : Inv L D₀ steps := by
  induction steps using List.reverseRecOn with
  | nil => exact ⟨trivial, fun r hr => by cases hr⟩
  | append_singleton steps s ih =>
      have hsteps := ih (h.of_prefix (List.prefix_append _ _))
      cases s with
      | write p f => exact hsteps.write h
      | construct reload =>
          refine hsteps.of_same (after_concat ..) ?_ ?_ ?_ <;> rw [World.step]
          all_goals rcases construct_cases (after L D₀ steps) reload with heq | heq
          all_goals simp [heq]
      | tick => exact hsteps.tick
      | enter t =>
          refine hsteps.of_same (after_concat ..) ?_ ?_ ?_ <;> rw [World.step]
          all_goals rcases enter_cases (after L D₀ steps) t with heq | ⟨-, heq⟩ | ⟨_, _, -, heq⟩
          all_goals simp [heq]
      | leave t =>
          refine hsteps.of_same (after_concat ..) ?_ ?_ ?_ <;> rw [World.step]
          all_goals rcases leave_cases (after L D₀ steps) t with heq | ⟨-, _, heq, -⟩
          all_goals simp [heq]

/-! ## A refresh without writes -/

variable (L D₀) in
/-- The refresh of a task ends, on the state of the files if they validate. -/
def Served (steps : List Step) (t : Task) : Prop :=
  ∃ n, (after L D₀ (steps ++ List.replicate n Step.tick)).activity = .idle ∧
    ∀ st, ProjectState.load L (after L D₀ steps).disk = .ok st →
      (after L D₀ (steps ++ List.replicate n Step.tick)).pinned t = some (st, 1)

theorem Served.of_tick {steps : List Step} {t : Task} (h : Served L D₀ (steps ++ [Step.tick]) t) :
    Served L D₀ steps t := by
  obtain ⟨n, hidle, hpin⟩ := h
  have hsplit : steps ++ [Step.tick] ++ List.replicate n Step.tick =
      steps ++ List.replicate (n + 1) Step.tick := by
    rw [List.replicate_succ, List.append_assoc, List.singleton_append]
  have hdisk : (after L D₀ (steps ++ [Step.tick])).disk = (after L D₀ steps).disk := by
    rw [after_concat, disk_step]
  rw [hsplit] at hidle hpin
  rw [hdisk] at hpin
  exact ⟨n + 1, hidle, hpin⟩

/-- A refresh that pins the state of the files, when there is one, has ended as it should. -/
theorem served_of_pin {steps : List Step} {t : Task} {w : World V} {st : ProjectState V}
    (hstep : after L D₀ (steps ++ [Step.tick]) = w.pin t st)
    (hload : ∀ st', ProjectState.load L (after L D₀ steps).disk = .ok st' → st' = st) :
    Served L D₀ steps t := by
  refine ⟨1, ?_, fun st' hst' => ?_⟩
  · rw [List.replicate_one, hstep]
    rfl
  · rw [List.replicate_one, hstep, hload st' hst']
    exact Function.update_self ..

/-- The looks left of the section that is being read. -/
def Progress.left (D : Disk) (g : Progress V) : ℕ :=
  match g.todo with
  | [] => 0
  | s :: _ => g.scan.remaining s.files D

/-- Each operation of a load leaves fewer sections, or fewer looks of the current one. -/
theorem Progress.tick_lt {D : Disk} {g g' : Progress V} (h : g.tick L D = .ok g')
    (hne : g'.todo ≠ []) :
    Prod.Lex (· < ·) (· < ·) (g'.todo.length, g'.left D) (g.todo.length, g.left D) := by
  unfold Progress.tick at h
  cases htodo : g.todo with
  | nil =>
      rw [htodo] at h
      obtain rfl := Except.ok.inj h
      exact absurd htodo hne
  | cons s rest =>
      rw [htodo] at h
      dsimp only at h
      by_cases hdone : g.scan.done = true
      · rw [if_pos hdone] at h
        cases hread : L.read g.state s (g.scan.contents s) with
        | error e => simp [hread, Except.map] at h
        | ok st =>
            simp only [hread, Except.map, Except.ok.injEq] at h
            subst h
            exact Prod.Lex.left _ _ (by simp)
      · rw [if_neg hdone] at h
        have hlook : Prod.Lex (· < ·) (· < ·)
            ((s :: rest).length, Progress.left D
              ⟨s :: rest, g.scan.look s.files D, g.state⟩)
            ((s :: rest).length, g.left D) := by
          refine Prod.Lex.right _ ?_
          simp only [Progress.left, htodo]
          exact Scan.remaining_look (by simpa using hdone)
        split at h
        · obtain rfl := Except.ok.inj h
          exact hlook
        · split at h
          · obtain rfl := Except.ok.inj h
            exact hlook
          · cases h

/-- A load of files that have the signature the refresh read. -/
theorem served_of_reloading {steps : List Step} {t : Task} {sig : ProjectSignature}
    {g : Progress V} {r : Reloader V} (hadm : Admissible L D₀ steps)
    (ha : (after L D₀ steps).activity = .reloading t sig g)
    (hr : (after L D₀ steps).reloader = some r) (hsig : Agrees (after L D₀ steps).disk sig) :
    Served L D₀ steps t := by
  have hinv := (inv_of_admissible hadm).activity
  rw [ha] at hinv
  have hon : Progress.On L (after L D₀ steps).disk g := hinv.2 _ (Later.self hadm) hsig
  have hnext := hon.tick fun p _ => rfl
  have hdisk : (after L D₀ (steps ++ [Step.tick])).disk = (after L D₀ steps).disk := by
    rw [after_concat, disk_step]
  have hstep : after L D₀ (steps ++ [Step.tick]) = (after L D₀ steps).tick L := after_concat ..
  rw [World.tick, ha, hr] at hstep
  dsimp only at hstep
  cases hg : g.tick L (after L D₀ steps).disk with
  | error e =>
      rw [hg] at hstep hnext
      have hno : ∀ st, ProjectState.load L (after L D₀ steps).disk ≠ .ok st := by
        intro st hst
        cases hst.symm.trans hnext
      dsimp only [World.failed] at hstep
      split at hstep
      · exact served_of_pin hstep fun st hst => absurd hst (hno st)
      · refine ⟨1, ?_, fun st hst => absurd hst (hno st)⟩
        rw [List.replicate_one, hstep]
  | ok g' =>
      rw [hg] at hstep hnext
      dsimp only at hstep hnext
      by_cases htodo : g'.todo = []
      · rw [if_pos htodo] at hstep
        have hload := hnext.load
        rw [htodo, Loader.readAll] at hload
        exact served_of_pin hstep fun st hst => by cases hst.symm.trans hload; rfl
      · rw [if_neg htodo] at hstep
        have hlt := Progress.tick_lt hg htodo
        refine Served.of_tick (served_of_reloading (hadm.concat nofun) (by rw [hstep])
          (by rw [hstep]) (by rw [hdisk]; exact hsig))
termination_by (g.todo.length, g.left (after L D₀ steps).disk)
decreasing_by
  rw [hdisk]
  exact hlt

/-- A refresh that has seen the files as they are. -/
theorem served_of_signing {steps : List Step} {t : Task} {scan : Scan} {r : Reloader V}
    (hadm : Admissible L D₀ steps) (ha : (after L D₀ steps).activity = .signing t scan)
    (hr : (after L D₀ steps).reloader = some r) (hmode : r.mode = .auto)
    (hsees : scan.Sees (fun p f => f = (after L D₀ steps).disk.get p) watched) :
    Served L D₀ steps t := by
  have hrec := (inv_of_admissible hadm).reloader r hr
  have hnow := Later.self hadm
  have hdisk : (after L D₀ (steps ++ [Step.tick])).disk = (after L D₀ steps).disk := by
    rw [after_concat, disk_step]
  have hstep : after L D₀ (steps ++ [Step.tick]) = (after L D₀ steps).tick L := after_concat ..
  rw [World.tick, ha, hr] at hstep
  dsimp only at hstep
  by_cases hdone : scan.done = true
  · have hsig := Scan.agrees_of_done hsees hdone
    simp only [if_pos hdone, World.signed, hmode] at hstep
    by_cases hsame : scan.signature = r.signature
    · rw [if_pos hsame] at hstep
      have hload := hrec.state _ hnow (hsame ▸ hsig)
      exact served_of_pin hstep fun st hst => by cases hst.symm.trans hload; rfl
    · rw [if_neg hsame] at hstep
      split at hstep
      · next hfail =>
        rw [Option.any_eq_true] at hfail
        obtain ⟨⟨sig, e⟩, hf, hsigEq⟩ := hfail
        obtain rfl : sig = scan.signature := by simpa using hsigEq
        have hload := hrec.failure _ e hf _ hnow hsig
        exact served_of_pin hstep fun st hst => by cases hst.symm.trans hload
      · exact Served.of_tick (served_of_reloading (hadm.concat nofun) (by rw [hstep])
          (by rw [hstep, hr]) (by rw [hdisk]; exact hsig))
  · rw [if_neg hdone] at hstep
    have hlt : (scan.look watchedFiles (after L D₀ steps).disk).remaining watchedFiles
        (after L D₀ steps).disk < scan.remaining watchedFiles (after L D₀ steps).disk :=
      Scan.remaining_look (by simpa using hdone)
    refine Served.of_tick (served_of_signing (hadm.concat nofun) (by rw [hstep])
      (by rw [hstep]) hmode ?_)
    rw [hdisk]
    exact hsees.look (fun p _ => rfl) fun p hp => mem_watchedFiles hp
termination_by scan.remaining watchedFiles (after L D₀ steps).disk
decreasing_by
  rw [hdisk]
  exact hlt

/-! ## What holds of every run -/

/-- A task whose refresh is running is not in a request. -/
theorem pinned_of_task {steps : List Step} {t : Task}
    (h : (after L D₀ steps).activity.task = some t) : (after L D₀ steps).pinned t = none := by
  induction steps using List.reverseRecOn with
  | nil => rfl
  | append_singleton steps s ih =>
      rw [after_concat] at h ⊢
      cases s with
      | write p f => exact ih h
      | construct reload =>
          rw [World.step] at h ⊢
          rcases construct_cases (after L D₀ steps) reload with heq | heq
          · rw [heq] at h ⊢
            exact ih h
          · rw [heq] at h
            cases h
      | tick =>
          rw [World.step] at h ⊢
          rcases (frame_tick (L := L) (after L D₀ steps)).busy with hidle | ⟨htask, hpin, -⟩
          · rw [hidle] at h
            cases h
          · rw [hpin]
            exact ih (htask ▸ h)
      | enter t' =>
          rw [World.step] at h ⊢
          rcases enter_cases (after L D₀ steps) t' with heq | ⟨hnone, heq⟩ | ⟨st, depth, hpin, heq⟩
          · rw [heq] at h ⊢
            exact ih h
          · rw [heq] at h ⊢
            obtain rfl := Option.some.inj h
            exact hnone
          · rw [heq] at h ⊢
            have hne : t ≠ t' := by
              rintro rfl
              simp [ih h] at hpin
            simpa [Function.update_of_ne hne] using ih h
      | leave t' =>
          rw [World.step] at h ⊢
          rcases leave_cases (after L D₀ steps) t' with heq | ⟨hidle, left, heq, -⟩
          · rw [heq] at h ⊢
            exact ih h
          · rw [heq] at h
            rw [hidle] at h
            cases h

/-- While a task is in a request, its state stays. -/
theorem pinned_step {steps : List Step} {s : Step} {t : Task} {st : ProjectState V} {depth : ℕ}
    (h : (after L D₀ steps).pinned t = some (st, depth))
    (hin : (after L D₀ (steps ++ [s])).pinned t ≠ none) :
    ∃ depth', (after L D₀ (steps ++ [s])).pinned t = some (st, depth') := by
  rw [after_concat] at hin ⊢
  cases s with
  | write p f => exact ⟨depth, h⟩
  | construct reload =>
      refine ⟨depth, ?_⟩
      rw [World.step]
      rcases construct_cases (after L D₀ steps) reload with heq | heq <;> rw [heq] <;> exact h
  | tick =>
      refine ⟨depth, ?_⟩
      rw [World.step, (frame_tick (after L D₀ steps)).pinned t fun htask => ?_, h]
      simp [pinned_of_task htask] at h
  | enter t' =>
      rw [World.step] at hin ⊢
      rcases enter_cases (after L D₀ steps) t' with heq | ⟨-, heq⟩ | ⟨st', depth', hpin, heq⟩
      · exact ⟨depth, by rw [heq]; exact h⟩
      · exact ⟨depth, by rw [heq]; exact h⟩
      · rw [heq]
        by_cases ht : t = t'
        · subst ht
          obtain ⟨rfl, -⟩ := Prod.mk.inj (Option.some.inj (h.symm.trans hpin))
          exact ⟨depth' + 1, Function.update_self ..⟩
        · exact ⟨depth, by simpa [Function.update_of_ne ht] using h⟩
  | leave t' =>
      rw [World.step] at hin ⊢
      rcases leave_cases (after L D₀ steps) t' with heq | ⟨-, left, heq, hleft⟩
      · exact ⟨depth, by rw [heq]; exact h⟩
      · rw [heq] at hin ⊢
        by_cases ht : t = t'
        · subst ht
          simp only [Function.update_self] at hin ⊢
          obtain ⟨⟨st', depth'⟩, hsome⟩ := Option.ne_none_iff_exists'.mp hin
          obtain ⟨depth'', hpin⟩ := hleft st' depth' hsome
          obtain ⟨rfl, -⟩ := Prod.mk.inj (Option.some.inj (h.symm.trans hpin))
          exact ⟨depth', hsome⟩
        · exact ⟨depth, by simpa [Function.update_of_ne ht] using h⟩

theorem pinned_run {pre mid : List Step} {t : Task} {st : ProjectState V} {depth : ℕ}
    (h : (after L D₀ pre).pinned t = some (st, depth))
    (hin : ∀ mid', mid' <+: mid → (after L D₀ (pre ++ mid')).pinned t ≠ none) :
    ∃ depth', (after L D₀ (pre ++ mid)).pinned t = some (st, depth') := by
  induction mid using List.reverseRecOn with
  | nil => exact ⟨depth, by simpa using h⟩
  | append_singleton mid s ih =>
      obtain ⟨depth', hmid⟩ := ih fun mid' hmid' => hin mid' (hmid'.trans (List.prefix_append _ _))
      rw [← List.append_assoc]
      refine pinned_step hmid ?_
      rw [List.append_assoc]
      exact hin _ List.prefix_rfl

/-- While a refresh runs, the reloader keeps the state it has. -/
theorem state_of_refreshing {pre mid : List Step} {t : Task}
    (hmid : ∀ s ∈ mid, s = .tick ∨ ∃ p f, s = .write p f)
    (hbusy : (after L D₀ (pre ++ Step.enter t :: mid)).activity ≠ .idle) :
    (after L D₀ (pre ++ Step.enter t :: mid)).reloader.map (·.state) =
      (after L D₀ pre).reloader.map (·.state) := by
  induction mid using List.reverseRecOn with
  | nil =>
      rw [after_concat, World.step]
      rcases enter_cases (after L D₀ pre) t with heq | ⟨-, heq⟩ | ⟨_, _, -, heq⟩ <;> rw [heq]
  | append_singleton mid s ih =>
      have hsplit : pre ++ Step.enter t :: (mid ++ [s]) = (pre ++ Step.enter t :: mid) ++ [s] := by
        simp
      have hrest := ih fun s' hs' => hmid s' (List.mem_append_left _ hs')
      rw [hsplit, after_concat] at hbusy ⊢
      rcases hmid s (by simp) with rfl | ⟨p, f, rfl⟩
      · rw [World.step] at hbusy ⊢
        have hframe := frame_tick (L := L) (after L D₀ (pre ++ Step.enter t :: mid))
        rcases hframe.busy with hidle | ⟨-, -, hstate⟩
        · exact absurd hidle hbusy
        · rw [hstate]
          refine hrest fun hidle => hbusy ?_
          rw [World.tick, hidle]
          exact hidle
      · exact hrest hbusy

theorem kept_of_failing {steps pre mid : List Step} {t : Task} {sig : ProjectSignature}
    {g : Progress V} {e : LoadError} (hsteps : steps = pre ++ Step.enter t :: mid)
    (hmid : ∀ s ∈ mid, s = .tick ∨ ∃ p f, s = .write p f)
    (ha : (after L D₀ steps).activity = .reloading t sig g)
    (hg : g.tick L (after L D₀ steps).disk = .error e) :
    (after L D₀ (steps ++ [Step.tick])).reloader.map (·.state) =
        (after L D₀ pre).reloader.map (·.state) ∧
      (e.isReloadError = true → (after L D₀ (steps ++ [Step.tick])).pinned t =
        (after L D₀ pre).reloader.map fun r => (r.state, 1)) := by
  have hstate : (after L D₀ steps).reloader.map (·.state) =
      (after L D₀ pre).reloader.map (·.state) := by
    subst hsteps
    exact state_of_refreshing hmid (by rw [ha]; nofun)
  have hstep : after L D₀ (steps ++ [Step.tick]) = (after L D₀ steps).tick L := after_concat ..
  rw [World.tick, ha] at hstep
  dsimp only at hstep
  have hpre : (after L D₀ pre).reloader.map (fun r => (r.state, 1)) =
      ((after L D₀ steps).reloader.map (·.state)).map (·, 1) := by
    rw [hstate, Option.map_map]
    rfl
  rw [hpre, ← hstate]
  cases hr : (after L D₀ steps).reloader with
  | none =>
      rw [hr] at hstep
      dsimp only at hstep
      refine ⟨by rw [hstep, hr], fun _ => ?_⟩
      rw [hstep]
      exact pinned_of_task (by rw [ha]; rfl)
  | some r =>
      rw [hr, hg] at hstep
      dsimp only [World.failed] at hstep
      rw [hstep]
      by_cases he : e.isReloadError = true
      · rw [if_pos he]
        exact ⟨rfl, fun _ => Function.update_self ..⟩
      · rw [if_neg he]
        exact ⟨by rw [hr], fun h => absurd h he⟩

/-- **A careful run serves current definitions.** -/
theorem servesCurrent_of_careful {V : Type} (L : Loader V) (D₀ : Disk) (steps : List Step)
    (hchanging : Changing L D₀ steps) (hcareful : Careful L D₀ steps) :
    ServesCurrent L D₀ steps := by
  have hadm : Admissible L D₀ steps := ⟨hchanging, hcareful⟩
  constructor
  · intro t r hidle hr hmode hpin
    have henter : after L D₀ (steps ++ [Step.enter t]) =
        { after L D₀ steps with activity := .signing t {} } := by
      rw [after_concat, World.step, World.enter, hidle, hr, hpin]
      simp only [hr]
    have hadm' : Admissible L D₀ (steps ++ [Step.enter t]) := hadm.concat nofun
    obtain ⟨n, hend, hserved⟩ := served_of_signing hadm' (by rw [henter])
      (by rw [henter]; exact hr) hmode Scan.sees_new
    rw [List.append_assoc, List.singleton_append] at hend hserved
    rw [henter] at hserved
    exact ⟨n, hend, hserved⟩
  · exact fun pre t mid sig g e hsteps hmid ha hg => kept_of_failing hsteps hmid ha hg
  · rintro pre mid t st depth rfl hpin hin
    obtain ⟨depth', hmid⟩ := pinned_run hpin hin
    rw [World.state, hmid]

/-! ## A run that is careful -/

theorem disk_of_no_write {steps : List Step} (h : ∀ s ∈ steps, ∀ p f, s ≠ .write p f) :
    (after L D₀ steps).disk = D₀ := by
  induction steps using List.reverseRecOn with
  | nil => rfl
  | append_singleton steps s ih =>
      have hrest := ih fun s' hs' => h s' (List.mem_append_left _ hs')
      have hs := h s (by simp)
      rw [after_concat, disk_step]
      cases s with
      | write p f => exact absurd rfl (hs p f)
      | construct | tick | enter | leave => exact hrest

/-- A project that is written once, when nothing else is going on. -/
theorem admissible_of_one_write {steps : List Step} {p : Path} {f : File}
    (h : ∀ s ∈ steps, ∀ p f, s ≠ .write p f) (hidle : (after L D₀ steps).activity = .idle)
    (hw : watched p = true) (hold : ∀ g, D₀.get p = some g → g.stat ≠ f.stat) :
    Admissible L D₀ (steps ++ [.write p (some f)]) := by
  have hlast : ∀ pre q g, pre ++ [.write q g] <+: steps ++ [.write p (some f)] →
      pre = steps ∧ q = p ∧ g = some f := by
    intro pre q g hpre
    rcases List.prefix_concat_iff.mp hpre with heq | hpre
    · obtain ⟨rfl, hstep⟩ := List.append_inj' heq rfl
      obtain ⟨rfl, rfl⟩ := Step.write.inj (List.singleton_inj.mp hstep)
      exact ⟨rfl, rfl, rfl⟩
    · exact absurd rfl (h _ (hpre.subset (by simp)) q g)
  have hdisk : ∀ pre, pre <+: steps → (after L D₀ pre).disk = D₀ := fun pre hpre =>
    disk_of_no_write fun s hs => h s (hpre.subset hs)
  refine ⟨fun pre q g hpre => ?_, ⟨fun pre q g hpre => ?_, fun pre q g hpre => ?_,
    fun pre q hpre => ?_⟩⟩
  · obtain ⟨rfl, rfl, rfl⟩ := hlast _ _ _ hpre
    refine ⟨hw, ?_⟩
    rw [hdisk _ List.prefix_rfl]
    cases hget : D₀.get q with
    | none => simp
    | some g => simpa using hold g hget
  · obtain ⟨rfl, rfl, rfl⟩ := hlast _ _ _ hpre
    rw [hidle]
    exact id
  · obtain ⟨rfl, rfl, heq⟩ := hlast _ _ _ hpre
    obtain rfl := Option.some.inj heq
    intro pre' hpre' g' hget
    rw [hdisk _ hpre'] at hget
    exact hold g' hget
  · cases (hlast _ _ _ hpre).2.2

/-! ## Two runs that serve a stale state -/

theorem Changing.ticks {steps : List Step} (h : Changing L D₀ steps) (n : ℕ) :
    Changing L D₀ (steps ++ List.replicate n Step.tick) := by
  induction n with
  | zero => simpa using h
  | succ n ih =>
      rw [List.replicate_succ', ← List.append_assoc]
      exact ih.concat nofun

theorem Changing.write {steps : List Step} (h : Changing L D₀ steps) {p : Path} {f : Option File}
    (hw : watched p = true)
    (hne : ((after L D₀ steps).disk.get p).map File.stat ≠ f.map File.stat) :
    Changing L D₀ (steps ++ [.write p f]) := by
  intro pre q g hpre
  rcases List.prefix_concat_iff.mp hpre with heq | hpre
  · obtain ⟨rfl, hlast⟩ := List.append_inj' heq rfl
    obtain ⟨rfl, rfl⟩ := Step.write.inj (List.singleton_inj.mp hlast)
    exact ⟨hw, hne⟩
  · exact h pre q g hpre

theorem changing_construct (reload : Option ProjectReload) :
    Changing L D₀ [.construct reload] := by
  intro pre p f hpre
  have hlen := hpre.length_le
  obtain rfl : pre = [] := List.eq_nil_of_length_eq_zero (by simpa using hlen)
  obtain ⟨rest, hrest⟩ := hpre
  cases hrest

/-- An idle event loop stays idle. -/
theorem after_ticks {steps : List Step} {n : ℕ}
    (h : (after L D₀ (steps ++ List.replicate n Step.tick)).activity = .idle) (m : ℕ) :
    after L D₀ (steps ++ List.replicate (n + m) Step.tick) =
      after L D₀ (steps ++ List.replicate n Step.tick) := by
  induction m with
  | zero => rfl
  | succ m ih =>
      rw [← Nat.add_assoc, List.replicate_succ', ← List.append_assoc, after_concat, ih, World.step,
        World.tick, h]

/-- A refresh that ends on another state than the one of the files. -/
theorem not_servesCurrent {steps : List Step} {t : Task} (n : ℕ) (st stale : ProjectState V)
    {depth : ℕ} (hidle : (after L D₀ steps).activity = .idle)
    (hmode : ((after L D₀ steps).reloader.map (·.mode)) = some .auto)
    (hpin : (after L D₀ steps).pinned t = none)
    (hload : ProjectState.load L (after L D₀ steps).disk = .ok st)
    (hend : (after L D₀ (steps ++ Step.enter t :: List.replicate n Step.tick)).activity = .idle)
    (hstale : (after L D₀ (steps ++ Step.enter t :: List.replicate n Step.tick)).pinned t =
      some (stale, depth)) (hne : stale ≠ st) : ¬ ServesCurrent L D₀ steps := by
  intro h
  obtain ⟨r, hr, hauto⟩ := Option.map_eq_some_iff.mp hmode
  obtain ⟨m, hm, hserved⟩ := h.current t r hidle hr hauto hpin
  have hnow := hserved st hload
  rw [← List.singleton_append, ← List.append_assoc] at hend hstale hm hnow
  have hsame : after L D₀ (steps ++ [Step.enter t] ++ List.replicate n Step.tick) =
      after L D₀ (steps ++ [Step.enter t] ++ List.replicate m Step.tick) := by
    rw [← after_ticks hend m, ← after_ticks hm n, Nat.add_comm]
  rw [hsame, hnow] at hstale
  exact hne (Prod.mk.inj (Option.some.inj hstale)).1.symm

end

private def configAt (mtime : ℕ) : File := ⟨[118], mtime⟩

private def contractPath : Path := ["contracts", "metrics", "revenue.yaml"]

private def contractFile : File := ⟨[114], 7⟩

/-- Sections are parsed to the bytes of the contract, where they read it. -/
private def bytesLoader : Loader (Option (List UInt8)) where
  digest _ := ""
  parse _ c := .ok (c contractPath)
  reload _ := .auto

private def configOnly : Disk := ⟨[(configFile, configAt 1)], List.nodup_singleton _⟩

/-- The load of the construction, up to its last file. -/
private def loadedRun : List Step := [.construct none] ++ List.replicate 20 .tick

/-- The configuration is edited when the service is there. -/
private def editedConfig : List Step :=
  loadedRun ++ List.replicate 3 .tick ++ [.write configFile (some (configAt 2))]

private theorem admissible_editedConfig : Admissible bytesLoader configOnly editedConfig := by
  refine admissible_of_one_write (fun s hs p f heq => ?_) (by rfl) (by decide +kernel) ?_
  · subst heq
    simp [loadedRun] at hs
  · intro g hg
    obtain rfl : configAt 1 = g := Option.some.inj hg
    decide

theorem servesCurrent_editedConfig : ServesCurrent bytesLoader configOnly editedConfig :=
  servesCurrent_of_careful _ _ _ admissible_editedConfig.changing admissible_editedConfig.careful

/-- A contract is written after the load and before the signature. -/
private def lateContract : List Step :=
  loadedRun ++ [.write contractPath (some contractFile)] ++ List.replicate 4 .tick

/-- A contract is written after a refresh read the signature, and removed when it has ended. -/
private def passingContract : List Step :=
  loadedRun ++ List.replicate 3 .tick ++ [.write configFile (some (configAt 2))] ++ [.enter 0] ++
    List.replicate 3 .tick ++ [.write contractPath (some contractFile)] ++
    List.replicate 22 .tick ++ [.leave 0] ++ [.write contractPath none]

private theorem changing_loadedRun : Changing bytesLoader configOnly loadedRun :=
  (changing_construct none).ticks 20

private theorem changing_lateContract : Changing bytesLoader configOnly lateContract :=
  (changing_loadedRun.write (by decide +kernel) (by decide +kernel)).ticks 4

private theorem changing_passingContract : Changing bytesLoader configOnly passingContract := by
  have hconfig := (changing_loadedRun.ticks 3).write (p := configFile) (f := some (configAt 2))
    (by decide +kernel) (by decide +kernel)
  have hsigned := (hconfig.concat (s := .enter 0) nofun).ticks 3
  have hcontract := hsigned.write (p := contractPath) (f := some contractFile)
    (by decide +kernel) (by decide +kernel)
  exact ((hcontract.ticks 22).concat (s := .leave 0) nofun).write (by decide +kernel)
    (by decide +kernel)

private def withContract : ProjectState (Option (List UInt8)) :=
  ⟨"", [none, some [114], none, none, none, none, none, none]⟩

private def withoutContract : ProjectState (Option (List UInt8)) :=
  ⟨"", [none, none, none, none, none, none, none, none]⟩

theorem servesCurrent_counterexample :
    (Changing bytesLoader configOnly lateContract ∧
      ¬ ServesCurrent bytesLoader configOnly lateContract) ∧
    Changing bytesLoader configOnly passingContract ∧
      ¬ ServesCurrent bytesLoader configOnly passingContract := by
  refine ⟨⟨changing_lateContract, ?_⟩, changing_passingContract, ?_⟩
  · exact not_servesCurrent (t := 0) 4 withContract withoutContract (by rfl)
      (by rfl) (by rfl) (by rfl) (by rfl) (by rfl) (by decide)
  · exact not_servesCurrent (t := 0) 3 withoutContract withContract (by rfl)
      (by rfl) (by rfl) (by rfl) (by rfl) (by rfl) (by decide)

end Canonic.Project
