import Canonic.Except
import Canonic.Text
import Canonic.Instrumentation.Events

set_option autoImplicit false

/-! # What the event log keeps

The log as a run of appends, rotations that crash between two file operations, and lines that
others put into the active file. One invariant says where the lines that were appended are: those
that rotate in the segments and the active file, the others in the active file. -/

namespace Canonic

/-! ## Names -/

instance : LT Stamp := ⟨fun s t => s.text < t.text⟩

/-- The names of the segment a rotation writes, and of its temporary file. -/
def Stamp.Names (t : Stamp) (name : String) : Prop :=
  ∃ rest, name.toList = segmentPrefix ++ t.text ++ segmentSuffix false ++ rest

theorem Stamp.names_segment (r : Rotation) : r.stamp.Names r.segment := by
  refine ⟨if r.compress then ['.', 'g', 'z'] else [], ?_⟩
  simp [Rotation.segment, LogFile.name, LogFile.chars, segmentSuffix]

theorem Stamp.names_segmentTmp (r : Rotation) : r.stamp.Names r.segmentTmp := by
  refine ⟨(if r.compress then ['.', 'g', 'z'] else []) ++ tmpSuffix, ?_⟩
  simp [Rotation.segmentTmp, LogFile.name, LogFile.chars, segmentSuffix]

/-- Later rotations have later names. -/
theorem Stamp.Names.lt {s t : Stamp} {a b : String} (ha : s.Names a) (hb : t.Names b)
    (h : s < t) : a < b := by
  obtain ⟨x, hx⟩ := ha
  obtain ⟨y, hy⟩ := hb
  rw [String.lt_iff_toList_lt, hx, hy]
  simp only [List.append_assoc]
  refine List.append_left_lt (append_lt_append h ?_ _ _)
  rw [s.length_text, t.length_text]

theorem Stamp.Names.matches {t : Stamp} {name : String} (h : t.Names name) :
    matchesSegment name = true := by
  obtain ⟨rest, hname⟩ := h
  rw [matchesSegment, hname, Bool.and_eq_true]
  simp only [List.append_assoc, List.drop_left]
  constructor
  · exact List.isPrefixOf_iff_prefix.mpr (List.prefix_append _ _)
  · refine List.any_eq_true.mpr ⟨segmentSuffix false ++ rest, ?_, ?_⟩
    · exact (List.mem_tails _ _).mpr (List.suffix_append _ _)
    · exact List.isPrefixOf_iff_prefix.mpr (List.prefix_append _ _)

theorem matchesSegment_active : matchesSegment LogFile.active.name = false := by decide

theorem matchesSegment_activeTmp : matchesSegment LogFile.activeTmp.name = false := by decide

theorem hasGzSuffix_segment (r : Rotation) : hasGzSuffix r.segment = r.compress := by
  unfold Rotation.segment
  cases r.compress with
  | false =>
      simp [LogFile.name, LogFile.chars, segmentSuffix, hasGzSuffix, List.isSuffixOf,
        List.isPrefixOf]
  | true =>
      simp [LogFile.name, LogFile.chars, segmentSuffix, hasGzSuffix, List.isSuffixOf,
        List.isPrefixOf]

theorem hasGzSuffix_segmentTmp (r : Rotation) : hasGzSuffix r.segmentTmp = false := by
  simp [Rotation.segmentTmp, LogFile.name, LogFile.chars, tmpSuffix, hasGzSuffix, List.isSuffixOf,
    List.isPrefixOf]

/-! ## The directory -/

namespace Dir

/-- The files that match the pattern of the segments, in the order they were made. -/
def segments (d : Dir) : Dir := d.filter fun p => matchesSegment p.1

theorem get_erase (d : Dir) (f g : String) :
    Dict.get (erase d f) g = if g = f then none else Dict.get d g := by
  induction d with
  | nil => simp [erase, Dict.get]
  | cons p d ih =>
      unfold erase at ih ⊢
      rw [List.filter_cons]
      by_cases hp : p.1 = f
      · rw [if_neg (by simpa using hp), ih, Dict.get_cons]
        by_cases hg : g = f
        · rw [if_pos hg, if_pos hg]
        · have hne : ¬ p.1 = g := fun h => hg (h.symm.trans hp)
          rw [if_neg hg, if_neg hg, if_neg hne]
      · rw [if_pos (by simpa using hp), Dict.get_cons, Dict.get_cons, ih]
        by_cases hg : p.1 = g
        · have hne : ¬ g = f := fun h => hp (hg.trans h)
          rw [if_pos hg, if_neg hne, if_pos hg]
        · rw [if_neg hg, if_neg hg]

theorem segments_erase (d : Dir) (f : String) : segments (erase d f) = erase (segments d) f := by
  rw [segments, erase, segments, erase, List.filter_comm]

/-- A write touches the segments where its name matches. -/
theorem segments_set (d : Dir) (f : String) (c : FileContent) : segments (Dict.set d f c) =
    if matchesSegment f then Dict.set (segments d) f c else segments d := by
  have hmap : ∀ e : Dir, segments (e.map fun p => if p.1 == f then (f, c) else p) =
      (segments e).map fun p => if p.1 == f then (f, c) else p := by
    intro e
    rw [segments, List.filter_map, segments]
    congr 1
    refine List.filter_congr fun p _ => ?_
    by_cases hp : p.1 = f
    · simp [hp]
    · simp [hp]
  have hhas : matchesSegment f = true → Dict.has (segments d) f = Dict.has d f := by
    intro hf
    rw [Dict.has, Dict.has, segments, List.any_filter]
    congr 1
    funext p
    by_cases hp : p.1 = f
    · simp [hp, hf]
    · simp [hp]
  by_cases hf : matchesSegment f = true
  · rw [if_pos hf, Dict.set, Dict.set, hhas hf]
    by_cases hd : Dict.has d f = true
    · rw [if_pos hd, if_pos hd, hmap]
    · rw [if_neg hd, if_neg hd, segments, List.filter_append, segments]
      simp [hf]
  · rw [if_neg hf, Dict.set]
    by_cases hd : Dict.has d f = true
    · rw [if_pos hd, hmap]
      refine (List.map_congr_left fun p hp => ?_).trans (List.map_id _)
      have hne : ¬ p.1 = f := fun h => hf (h ▸ (List.mem_filter.mp hp).2)
      simp [hne]
    · rw [if_neg hd, segments, List.filter_append, segments]
      simp [hf]

/-- A file that is rewritten at the end of a directory. -/
theorem set_concat {d : Dir} {f : String} (hf : ∀ p ∈ d, p.1 ≠ f) (c c' : FileContent) :
    Dict.set (d ++ [(f, c)]) f c' = d ++ [(f, c')] := by
  have hhas : Dict.has (d ++ [(f, c)]) f = true := by simp [Dict.has]
  rw [Dict.set, if_pos hhas, List.map_append]
  congr 1
  · refine (List.map_congr_left fun p hp => ?_).trans (List.map_id _)
    simp [hf p hp]
  · simp

/-- A new file stands at the end. -/
theorem set_new {d : Dir} {f : String} (hf : ∀ p ∈ d, p.1 ≠ f) (c : FileContent) :
    Dict.set d f c = d ++ [(f, c)] := by
  have hhas : ¬ Dict.has d f = true := by
    intro h
    obtain ⟨p, hp, heq⟩ := List.any_eq_true.mp h
    exact hf p hp (by simpa using heq)
  rw [Dict.set, if_neg hhas]

theorem erase_concat {d : Dir} {f : String} (hf : ∀ p ∈ d, p.1 ≠ f) (c : FileContent) :
    erase (d ++ [(f, c)]) f = d := by
  rw [erase, List.filter_append, List.filter_eq_self.mpr fun p hp => by simpa using hf p hp]
  simp

theorem get_eq_none {d : Dir} {f : String} (hf : ∀ p ∈ d, p.1 ≠ f) : Dict.get d f = none := by
  cases hg : Dict.get d f with
  | none => rfl
  | some c => exact absurd rfl (hf _ (Dict.get_eq_some_mem hg))

theorem get_segments {d : Dir} {f : String} (hf : matchesSegment f = true) :
    Dict.get (segments d) f = Dict.get d f := by
  induction d with
  | nil => rfl
  | cons p d ih =>
      unfold segments at ih ⊢
      rw [List.filter_cons]
      by_cases hp : matchesSegment p.1 = true
      · rw [if_pos hp, Dict.get_cons, Dict.get_cons, ih]
      · have hne : ¬ p.1 = f := fun h => hp (h ▸ hf)
        rw [if_neg hp, Dict.get_cons, if_neg hne, ih]

/-- Sorted by name, files whose names increase stay as they are. -/
theorem segmentPaths_eq {d : Dir} (h : (segments d).Pairwise fun p q => p.1 < q.1) :
    segmentPaths d = segments d :=
  (h.imp fun hlt => le_of_lt hlt).insertionSort_eq

end Dir

/-! ## A rotation, operation by operation -/

section Rotation

variable {ε : Type} (F : EventFormat ε) {d : Dir} {r : Rotation}

open Dir EventFormat

/-- The directory `d` while a rotation copies: the lines `xs` are copied. -/
structure Copying (d : Dir) (r : Rotation) (xs : List String) (d' : Dir) : Prop where
  segments : segments d' =
    segments d ++ [(r.segmentTmp, ⟨r.compress, xs.filter F.moves⟩)]
  tmp : Dict.get d' LogFile.activeTmp.name = some ⟨false, xs.filter fun raw => !F.moves raw⟩
  active : Dict.get d' LogFile.active.name = Dict.get d LogFile.active.name

theorem name_ne_of_matches {f g : String} (hf : matchesSegment f = true)
    (hg : matchesSegment g = false) : f ≠ g := by
  rintro rfl
  simp [hf] at hg

theorem active_ne_activeTmp : LogFile.active.name ≠ LogFile.activeTmp.name := by decide

/-- No segment has the names of a rotation yet. -/
def Fresh (d : Dir) (r : Rotation) : Prop :=
  ∀ p ∈ Dir.segments d, p.1 ≠ r.segment ∧ p.1 ≠ r.segmentTmp

theorem segmentTmp_matches (r : Rotation) : matchesSegment r.segmentTmp = true :=
  (Stamp.names_segmentTmp r).matches

theorem segment_matches (r : Rotation) : matchesSegment r.segment = true :=
  (Stamp.names_segment r).matches

/-- Both temporary files are made, with nothing in them. -/
theorem copying_create (hfresh : Fresh d r) :
    Copying F d r [] (Dict.set (Dict.set d r.segmentTmp ⟨r.compress, []⟩)
      LogFile.activeTmp.name ⟨false, []⟩) where
  segments := by
    rw [segments_set, matchesSegment_activeTmp, segments_set, segmentTmp_matches,
      if_neg (by decide), if_pos rfl, set_new fun p hp => (hfresh p hp).2]
    rfl
  tmp := by rw [Dict.get_set, if_pos rfl]; rfl
  active := by
    have hne := name_ne_of_matches (segmentTmp_matches r) matchesSegment_active
    rw [Dict.get_set, if_neg active_ne_activeTmp, Dict.get_set, if_neg hne.symm]

/-- The lines that were moved so far. -/
theorem Copying.get_segmentTmp {xs : List String} {d' : Dir} (hfresh : Fresh d r)
    (h : Copying F d r xs d') :
    Dict.get d' r.segmentTmp = some ⟨r.compress, xs.filter F.moves⟩ := by
  rw [← get_segments (segmentTmp_matches r), h.segments, Dict.get_append,
    get_eq_none fun p hp => (hfresh p hp).2, Option.none_or, Dict.get_cons, if_pos rfl]

/-- One line is copied. -/
theorem Copying.copy {xs : List String} {d' : Dir} (hfresh : Fresh d r)
    (h : Copying F d r xs d') (raw : String) :
    Copying F d r (xs ++ [raw]) ((F.copyOp r raw).run d') := by
  have hne := name_ne_of_matches (segmentTmp_matches r) matchesSegment_active
  have hne' := name_ne_of_matches (segmentTmp_matches r) matchesSegment_activeTmp
  by_cases hraw : F.moves raw = true
  · have hget := h.get_segmentTmp F hfresh
    have hop : (F.copyOp r raw).run d' =
        Dict.set d' r.segmentTmp ⟨r.compress, xs.filter F.moves ++ [raw]⟩ := by
      rw [copyOp, if_pos hraw, FileOp.run, writeLine, hget]
    rw [hop]
    constructor
    · rw [segments_set, segmentTmp_matches, if_pos rfl, h.segments,
        set_concat fun p hp => (hfresh p hp).2]
      simp [hraw]
    · rw [Dict.get_set, if_neg hne'.symm, h.tmp]
      simp [hraw]
    · rw [Dict.get_set, if_neg hne.symm, h.active]
  · have hop : (F.copyOp r raw).run d' = Dict.set d' LogFile.activeTmp.name
        ⟨false, xs.filter (fun raw => !F.moves raw) ++ [raw]⟩ := by
      rw [copyOp, if_neg hraw, FileOp.run, writeLine, h.tmp]
    rw [hop]
    constructor
    · rw [segments_set, matchesSegment_activeTmp, if_neg (by decide), h.segments]
      simp [hraw]
    · rw [Dict.get_set, if_pos rfl]
      simp [hraw]
    · rw [Dict.get_set, if_neg active_ne_activeTmp, h.active]

theorem Copying.copies {xs : List String} {d' : Dir} (hfresh : Fresh d r)
    (h : Copying F d r xs d') (ys : List String) :
    Copying F d r (xs ++ ys) ((ys.map (F.copyOp r)).foldl FileOp.run d') := by
  induction ys generalizing xs d' with
  | nil => simpa using h
  | cons y ys ih =>
      rw [List.map_cons, List.foldl_cons, List.append_cons]
      exact ih (h.copy F hfresh y)

/-- What a rotation over the lines `A` has left after `n` of its file operations. -/
inductive Left (d : Dir) (r : Rotation) (A : List String) (n : ℕ) (d' : Dir) : Prop where
  | same (hseg : segments d' = segments d)
      (hact : Dict.get d' LogFile.active.name = Dict.get d LogFile.active.name)
  | copying (xs : List String) (hxs : xs <+: A) (hn : 0 < n ∧ n + 1 < (F.rotateOps r A).length)
      (hseg : segments d' = segments d ++ [(r.segmentTmp, ⟨r.compress, xs.filter F.moves⟩)])
      (hact : Dict.get d' LogFile.active.name = Dict.get d LogFile.active.name)
  | twice (hn : n < (F.rotateOps r A).length)
      (hseg : segments d' = segments d ++ [(r.segment, ⟨r.compress, A.filter F.moves⟩)])
      (hact : Dict.get d' LogFile.active.name = Dict.get d LogFile.active.name)
  | moved (hseg : segments d' = segments d ++ [(r.segment, ⟨r.compress, A.filter F.moves⟩)])
      (hact : Dict.get d' LogFile.active.name =
        some ⟨false, A.filter fun raw => !F.moves raw⟩)

/-- The segment is in place, the active file not yet. -/
theorem replace_segmentTmp {A : List String} {d' : Dir} (hfresh : Fresh d r)
    (h : Copying F d r A d') :
    segments (replace d' r.segmentTmp r.segment) =
        segments d ++ [(r.segment, ⟨r.compress, A.filter F.moves⟩)] ∧
      Dict.get (replace d' r.segmentTmp r.segment) LogFile.active.name =
        Dict.get d LogFile.active.name ∧
      Dict.get (replace d' r.segmentTmp r.segment) LogFile.activeTmp.name =
        some ⟨false, A.filter fun raw => !F.moves raw⟩ := by
  have htmp := name_ne_of_matches (segmentTmp_matches r) matchesSegment_active
  have htmp' := name_ne_of_matches (segmentTmp_matches r) matchesSegment_activeTmp
  have hseg := name_ne_of_matches (segment_matches r) matchesSegment_active
  have hseg' := name_ne_of_matches (segment_matches r) matchesSegment_activeTmp
  have hop : replace d' r.segmentTmp r.segment =
      Dict.set (erase d' r.segmentTmp) r.segment ⟨r.compress, A.filter F.moves⟩ := by
    rw [replace, h.get_segmentTmp F hfresh]
  rw [hop]
  refine ⟨?_, ?_, ?_⟩
  · rw [segments_set, segment_matches, if_pos rfl, segments_erase, h.segments,
      erase_concat fun p hp => (hfresh p hp).2, set_new fun p hp => (hfresh p hp).1]
  · rw [Dict.get_set, if_neg hseg.symm, get_erase, if_neg htmp.symm, h.active]
  · rw [Dict.get_set, if_neg hseg'.symm, get_erase, if_neg htmp'.symm, h.tmp]

theorem erase_segments {d : Dir} {f : String} (hf : matchesSegment f = false) :
    erase (segments d) f = segments d := by
  rw [erase, List.filter_eq_self]
  intro p hp
  simpa using name_ne_of_matches (List.mem_filter.mp hp).2 hf

/-- The operations of a rotation that reads every line. -/
theorem rotateOps_eq {A : List String}
    (hgood : ∀ raw ∈ A, (F.isRotatedKind raw).isSome = true) :
    F.rotateOps r A = .create r.segmentTmp r.compress ::
      .create LogFile.activeTmp.name false :: (A.map (F.copyOp r) ++
        if A.any F.moves then
          [.replace r.segmentTmp r.segment, .replace LogFile.activeTmp.name LogFile.active.name]
        else [.unlink r.segmentTmp, .unlink LogFile.activeTmp.name]) := by
  have hcopied : F.copied A = A := by
    rw [copied, List.takeWhile_eq_self_iff]
    exact hgood
  rw [rotateOps, hcopied, if_neg (lt_irrefl _)]

/-- The last two operations: both files are put in place, or removed when no line moves. -/
theorem left_finish {A : List String} {d' : Dir} (hfresh : Fresh d r) (h : Copying F d r A d')
    {n k : ℕ} (hk : k ≠ 0) (hn : k = 1 → n < (F.rotateOps r A).length) :
    Left F d r A n (((if A.any F.moves then
        [FileOp.replace r.segmentTmp r.segment,
          .replace LogFile.activeTmp.name LogFile.active.name]
      else
        [.unlink r.segmentTmp, .unlink LogFile.activeTmp.name]).take k).foldl FileOp.run d') := by
  obtain ⟨k, rfl⟩ := Nat.exists_eq_succ_of_ne_zero hk
  by_cases hany : A.any F.moves = true
  · obtain ⟨hseg, hact, htmp⟩ := replace_segmentTmp F hfresh h
    rw [if_pos hany]
    cases k with
    | zero => exact .twice (hn rfl) hseg hact
    | succ k =>
        simp only [List.take_succ_cons, List.take_nil, List.foldl_cons, List.foldl_nil,
          FileOp.run]
        have hop : ∀ d'' : Dir, Dict.get d'' LogFile.activeTmp.name =
            some ⟨false, A.filter fun raw => !F.moves raw⟩ →
            replace d'' LogFile.activeTmp.name LogFile.active.name =
              Dict.set (erase d'' LogFile.activeTmp.name) LogFile.active.name
                ⟨false, A.filter fun raw => !F.moves raw⟩ := by
          intro d'' hget
          rw [replace, hget]
        rw [hop _ htmp]
        refine .moved ?_ ?_
        · rw [segments_set, matchesSegment_active, if_neg (by decide), segments_erase,
            erase_segments matchesSegment_activeTmp, hseg]
        · rw [Dict.get_set, if_pos rfl]
  · have htmp := name_ne_of_matches (segmentTmp_matches r) matchesSegment_active
    have hseg : segments (erase d' r.segmentTmp) = segments d := by
      rw [segments_erase, h.segments, erase_concat fun p hp => (hfresh p hp).2]
    have hact : Dict.get (erase d' r.segmentTmp) LogFile.active.name =
        Dict.get d LogFile.active.name := by
      rw [get_erase, if_neg htmp.symm, h.active]
    rw [if_neg hany]
    cases k with
    | zero => exact .same hseg hact
    | succ k =>
        simp only [List.take_succ_cons, List.take_nil, List.foldl_cons, List.foldl_nil,
          FileOp.run]
        refine .same ?_ ?_
        · rw [segments_erase, erase_segments matchesSegment_activeTmp, hseg]
        · rw [get_erase, if_neg active_ne_activeTmp, hact]

/-- What a rotation leaves, wherever it stops. -/
theorem left_take {A : List String} (hfresh : Fresh d r)
    (hgood : ∀ raw ∈ A, (F.isRotatedKind raw).isSome = true) (n : ℕ) :
    Left F d r A n (((F.rotateOps r A).take n).foldl FileOp.run d) := by
  have hlen : (F.rotateOps r A).length = A.length + 4 := by
    rw [rotateOps_eq F hgood]
    by_cases hany : A.any F.moves = true
    · simp [hany]
    · simp [hany]
  match n with
  | 0 => exact .same rfl rfl
  | 1 =>
      have htmp := name_ne_of_matches (segmentTmp_matches r) matchesSegment_active
      rw [rotateOps_eq F hgood]
      refine .copying [] (List.nil_prefix) ⟨by omega, by omega⟩ ?_ ?_
      · show segments (Dict.set d r.segmentTmp ⟨r.compress, []⟩) = _
        rw [segments_set, segmentTmp_matches, if_pos rfl, set_new fun p hp => (hfresh p hp).2]
        rfl
      · show Dict.get (Dict.set d r.segmentTmp ⟨r.compress, []⟩) LogFile.active.name = _
        rw [Dict.get_set, if_neg htmp.symm]
  | n + 2 =>
      have hcopy := (copying_create F hfresh).copies F hfresh (A.take n)
      rw [List.nil_append] at hcopy
      rw [rotateOps_eq F hgood, List.take_succ_cons, List.take_succ_cons, List.foldl_cons,
        List.foldl_cons, List.take_append, List.foldl_append, ← List.map_take, List.length_map]
      by_cases hn : n - A.length = 0
      · rw [hn, List.take_zero, List.foldl_nil]
        exact .copying (A.take n) (List.take_prefix n A) ⟨by omega, by omega⟩ hcopy.segments
          hcopy.active
      · rw [List.take_of_length_le (by omega : A.length ≤ n)] at hcopy ⊢
        exact left_finish F hfresh hcopy hn fun h1 => by omega

end Rotation

/-! ## Runs -/

/-- One step of the log. -/
inductive LogStep (ε : Type) where
  /-- An event is appended, with a rotation first if the size asks for one. -/
  | append (rotation : Option Rotation) (e : ε)
  /-- An append that crashes in its rotation, after `n` file operations. -/
  | crashed (rotation : Rotation) (n : ℕ)
  /-- A line of the active file that the log did not write. -/
  | foreign (line : String)

section Runs

variable {ε : Type} (F : EventFormat ε)

open Dir EventFormat

/-- The directory after a step. An exception in the rotation keeps the event from being written. -/
def LogStep.run (d : Dir) : LogStep ε → Dir
  | .append none e => appendLine d (F.dumps e)
  | .append (some r) e =>
      if F.rotates d then appendLine (F.rotate r d) (F.dumps e) else F.rotate r d
  | .crashed r n => F.rotateFor r n d
  | .foreign line => appendLine d line

/-- The directory after a run. -/
def runLog (steps : List (LogStep ε)) : Dir := steps.foldl (LogStep.run F) []

def LogStep.event : LogStep ε → Option ε
  | .append _ e => some e
  | _ => none

def LogStep.stamp : LogStep ε → Option Stamp
  | .append rotation _ => rotation.map (·.stamp)
  | .crashed r _ => some r.stamp
  | .foreign _ => none

def LogStep.line : LogStep ε → Option String
  | .append _ e => some (F.dumps e)
  | .crashed _ _ => none
  | .foreign line => some line

/-- The events a run appends. -/
def appendedBy (steps : List (LogStep ε)) : List ε := steps.filterMap LogStep.event

/-- Rotation times increase, and a foreign line is no event. -/
structure Admissible (steps : List (LogStep ε)) : Prop where
  increasing : (steps.filterMap LogStep.stamp).Pairwise (· < ·)
  foreign : ∀ line, .foreign line ∈ steps → ∀ e, F.readLine line ≠ .ok (some e)

/-- **The log loses nothing**: reading succeeds, returns every appended event, each once if no
rotation crashed, in the order of its kind, and no others; and the last lines are the last lines of
all files. -/
structure LosesNothing (d : Dir) (appended : List ε) (crashFree : Prop) : Prop where
  all : ∀ kind, ∃ events, F.readEvents d none kind = .ok events ∧
    (∀ e ∈ events, e ∈ appended) ∧
    ∀ k, kind = none ∨ kind = some k →
      (appended.filter fun e => F.kind e = k).Sublist (events.filter fun e => F.kind e = k) ∧
      (crashFree → (events.filter fun e => F.kind e = k) = appended.filter fun e => F.kind e = k)
  last : ∀ n kind, ∃ lines, rawLines (eventLogPaths d (inSegments kind)) none = .ok lines ∧
    F.readEvents d (some n) kind = F.parseLines kind (lastLines n lines)

/-! ### Lines -/

/-- The event of a line, if it is one. -/
def eventOf (line : String) : Option ε := (F.readLine line).toOption.join

/-- A line that is read and classified without an exception, and moves when it is a served answer.
-/
structure Good (line : String) : Prop where
  read : F.readLine line = .ok (eventOf F line)
  classified : (F.isRotatedKind line).isSome = true
  moves : ∀ e, eventOf F line = some e →
    (F.moves line = true ↔ F.kind e = .servedAnswer)

theorem good_of_read {line : String} {o : Option ε} (h : F.readLine line = .ok o) :
    F.readLine line = .ok (eventOf F line) := by
  rw [eventOf, h]
  rfl

theorem find_kind {fields : Dict Json} {k : EventKind}
    (h : Dict.get fields "kind" = some (.str k.value)) :
    EventKind.all.find? (fun k => Dict.get fields "kind" = some (.str k.value)) = some k := by
  rw [h]
  cases k <;> decide

/-- The line of an event. -/
theorem readLine_dumps (e : ε) : F.readLine (F.dumps e) = .ok (some e) := by
  obtain ⟨fields, hloads, hkind, hvalid⟩ := F.loads_dumps e
  rw [readLine, F.strip_dumps, if_neg (F.dumps_ne e), parseLine, hloads]
  simp only [find_kind hkind, hvalid]

theorem good_dumps (e : ε) : Good F (F.dumps e) := by
  obtain ⟨fields, hloads, hkind, -⟩ := F.loads_dumps e
  have hrot : F.isRotatedKind (F.dumps e) =
      some (decide (some (Json.str (F.kind e).value) = some (.str "served_answer"))) := by
    rw [isRotatedKind, hloads]
    show some (decide (Dict.get fields "kind" = _)) = _
    rw [hkind]
  refine ⟨good_of_read F (readLine_dumps F e), by rw [hrot]; rfl, fun e' he' => ?_⟩
  have hee : e = e' := by
    have h1 : eventOf F (F.dumps e) = some e := by
      rw [eventOf, readLine_dumps]
      rfl
    exact Option.some.inj (h1.symm.trans he')
  subst hee
  rw [EventFormat.moves, hrot]
  cases F.kind e <;> decide

/-- A text that holds no JSON value, or an object. -/
def ObjectOrNone (text : String) : Prop :=
  F.loads text = .decodeError ∨ ∃ fields, F.loads text = .json (.obj fields)

theorem parseLine_of_objectOrNone {text : String} (h : ObjectOrNone F text) :
    ∃ o, F.parseLine text = .ok o := by
  rcases h with h | ⟨fields, h⟩
  · exact ⟨none, by rw [parseLine, h]⟩
  · rw [parseLine, h]
    cases hk : EventKind.all.find? fun k => Dict.get fields "kind" = some (.str k.value) with
    | none => exact ⟨none, by simp only [hk]⟩
    | some k => exact ⟨F.validate k fields, by simp only [hk]⟩

theorem isRotatedKind_of_objectOrNone {text : String} (h : ObjectOrNone F text) :
    (F.isRotatedKind text).isSome = true := by
  rcases h with h | ⟨fields, h⟩
  · rw [isRotatedKind, h]
    rfl
  · rw [isRotatedKind, h]
    rfl

/-- A foreign line that is skipped. -/
theorem good_foreign {line : String} (hraw : ObjectOrNone F line)
    (hstrip : ObjectOrNone F (F.strip line)) (hne : ∀ e, F.readLine line ≠ .ok (some e)) :
    eventOf F line = none ∧ Good F line := by
  have hread : F.readLine line = .ok none := by
    rw [readLine]
    by_cases hs : F.strip line = ""
    · rw [if_pos hs]
    · rw [if_neg hs]
      obtain ⟨o, ho⟩ := parseLine_of_objectOrNone F hstrip
      cases o with
      | none => exact ho
      | some e =>
          refine absurd ?_ (hne e)
          rw [readLine, if_neg hs, ho]
  have hnone : eventOf F line = none := by
    rw [eventOf, hread]
    rfl
  refine ⟨hnone, good_of_read F hread, isRotatedKind_of_objectOrNone F hraw, fun e he => ?_⟩
  simp [hnone] at he

/-! ### The invariant -/

/-- The lines of the segments. -/
def segmentLines (d : Dir) : List String := (segments d).flatMap (·.2.lines)

/-- Where the appended lines `L` are, with the lines `A` in the active file. -/
structure Keeps (d : Dir) (L A : List String) (used : List Stamp) (crashFree : Prop) : Prop where
  active : Dict.get d LogFile.active.name = some ⟨false, A⟩ ∨
    Dict.get d LogFile.active.name = none ∧ A = []
  sorted : (segments d).Pairwise fun p q => p.1 < q.1
  named : ∀ p ∈ segments d, ∃ t ∈ used, t.Names p.1
  opens : ∀ p ∈ segments d, hasGzSuffix p.1 = p.2.gzip
  segmented : ∀ line ∈ segmentLines d, line ∈ L ∧ F.moves line = true
  inActive : ∀ line ∈ A, line ∈ L
  stays : (A.filter fun line => !F.moves line) = L.filter fun line => !F.moves line
  moved : (L.filter F.moves).Sublist (segmentLines d ++ A.filter F.moves)
  whole : crashFree → L.filter F.moves = segmentLines d ++ A.filter F.moves

variable {F} {d : Dir} {L A : List String} {used : List Stamp} {crashFree : Prop}

theorem keeps_nil : Keeps F [] [] [] [] True where
  active := Or.inr ⟨rfl, rfl⟩
  sorted := List.Pairwise.nil
  named := by simp [segments]
  opens := by simp [segments]
  segmented := by simp [segmentLines, segments]
  inActive := by simp
  stays := rfl
  moved := List.nil_sublist _
  whole _ := rfl

/-- A line is written at the end of the active file. -/
theorem Keeps.appendLine (h : Keeps F d L A used crashFree) (line : String) :
    Keeps F (appendLine d line) (L ++ [line]) (A ++ [line]) used crashFree := by
  have hdir : EventFormat.appendLine d line =
      Dict.set d LogFile.active.name ⟨false, A ++ [line]⟩ := by
    rcases h.active with hget | ⟨hget, rfl⟩
    · rw [EventFormat.appendLine, hget]
    · rw [EventFormat.appendLine, hget]
      rfl
  have hseg : segments (EventFormat.appendLine d line) = segments d := by
    rw [hdir, segments_set, matchesSegment_active, if_neg (by decide)]
  have hlines : segmentLines (EventFormat.appendLine d line) = segmentLines d := by
    rw [segmentLines, hseg, segmentLines]
  have hmem : ∀ l, l ∈ L → l ∈ L ++ [line] := fun l hl => List.mem_append_left _ hl
  constructor
  · exact Or.inl (by rw [hdir, Dict.get_set, if_pos rfl])
  · rw [hseg]
    exact h.sorted
  · rw [hseg]
    exact h.named
  · rw [hseg]
    exact h.opens
  · rw [hlines]
    exact fun l hl => ⟨hmem l (h.segmented l hl).1, (h.segmented l hl).2⟩
  · intro l hl
    rcases List.mem_append.mp hl with hl | hl
    · exact hmem l (h.inActive l hl)
    · exact List.mem_append_right _ hl
  · rw [List.filter_append, List.filter_append, h.stays]
  · rw [hlines, List.filter_append, List.filter_append, ← List.append_assoc]
    exact h.moved.append (List.Sublist.refl _)
  · intro hfree
    rw [hlines, List.filter_append, List.filter_append, ← List.append_assoc, h.whole hfree]

theorem segmentLines_concat {d' : Dir} {f : String} {c : FileContent}
    (h : segments d' = segments d ++ [(f, c)]) : segmentLines d' = segmentLines d ++ c.lines := by
  rw [segmentLines, h, List.flatMap_append, segmentLines]
  simp

/-- A rotation puts lines into a new file. -/
theorem Keeps.extend (h : Keeps F d L A used crashFree) {d' : Dir} {r : Rotation} {f : String}
    {gz : Bool} {xs A' : List String} {crashFree' : Prop}
    (hseg : segments d' = segments d ++ [(f, ⟨gz, xs⟩)])
    (hact : Dict.get d' LogFile.active.name = some ⟨false, A'⟩) (hname : r.stamp.Names f)
    (hlt : ∀ t ∈ used, t < r.stamp) (hopen : hasGzSuffix f = gz)
    (hxs : ∀ line ∈ xs, line ∈ A ∧ F.moves line = true) (hA : ∀ line ∈ A', line ∈ A)
    (hstays : (A'.filter fun line => !F.moves line) = A.filter fun line => !F.moves line)
    (hmoved : (A.filter F.moves).Sublist (xs ++ A'.filter F.moves))
    (hwhole : crashFree' → crashFree ∧ A.filter F.moves = xs ++ A'.filter F.moves) :
    Keeps F d' L A' (used ++ [r.stamp]) crashFree' := by
  have hlines := segmentLines_concat hseg
  constructor
  · exact Or.inl hact
  · rw [hseg, List.pairwise_append]
    refine ⟨h.sorted, List.pairwise_singleton _ _, fun p hp q hq => ?_⟩
    obtain ⟨t, ht, hpt⟩ := h.named p hp
    rw [List.mem_singleton.mp hq]
    exact hpt.lt hname (hlt t ht)
  · intro p hp
    rw [hseg] at hp
    rcases List.mem_append.mp hp with hp | hp
    · obtain ⟨t, ht, hpt⟩ := h.named p hp
      exact ⟨t, List.mem_append_left _ ht, hpt⟩
    · rw [List.mem_singleton.mp hp]
      exact ⟨r.stamp, List.mem_append_right _ (List.mem_singleton_self _), hname⟩
  · intro p hp
    rw [hseg] at hp
    rcases List.mem_append.mp hp with hp | hp
    · exact h.opens p hp
    · rw [List.mem_singleton.mp hp]
      exact hopen
  · intro line hline
    rw [hlines] at hline
    rcases List.mem_append.mp hline with hline | hline
    · exact h.segmented line hline
    · exact ⟨h.inActive line (hxs line hline).1, (hxs line hline).2⟩
  · exact fun line hline => h.inActive line (hA line hline)
  · rw [hstays, h.stays]
  · rw [hlines, List.append_assoc]
    exact h.moved.trans ((List.Sublist.refl _).append hmoved)
  · intro hfree
    rw [hlines, List.append_assoc, ← (hwhole hfree).2]
    exact h.whole (hwhole hfree).1

/-- Nothing a reader sees has changed. -/
theorem Keeps.same (h : Keeps F d L A used crashFree) {d' : Dir} (more : List Stamp)
    {crashFree' : Prop} (hseg : segments d' = segments d)
    (hact : Dict.get d' LogFile.active.name = Dict.get d LogFile.active.name)
    (hfree : crashFree' → crashFree) : Keeps F d' L A (used ++ more) crashFree' := by
  have hlines : segmentLines d' = segmentLines d := by rw [segmentLines, hseg, segmentLines]
  constructor
  · rw [hact]
    exact h.active
  · rw [hseg]
    exact h.sorted
  · intro p hp
    obtain ⟨t, ht, hpt⟩ := h.named p (hseg ▸ hp)
    exact ⟨t, List.mem_append_left _ ht, hpt⟩
  · rw [hseg]
    exact h.opens
  · rw [hlines]
    exact h.segmented
  · exact h.inActive
  · exact h.stays
  · rw [hlines]
    exact h.moved
  · rw [hlines]
    exact fun hf => h.whole (hfree hf)

/-- A rotation that stops after `n` operations, leaving no compressed temporary segment. -/
theorem Keeps.left (h : Keeps F d L A used crashFree) {d' : Dir} {r : Rotation} {n : ℕ}
    (hleft : Left F d r A n d') (hact : Dict.get d LogFile.active.name = some ⟨false, A⟩)
    (hlt : ∀ t ∈ used, t < r.stamp)
    (hopen : r.compress = true → n = 0 ∨ (F.rotateOps r A).length ≤ n + 1) {crashFree' : Prop}
    (hfree : crashFree' → crashFree ∧ (F.rotateOps r A).length ≤ n) :
    ∃ A', Keeps F d' L A' (used ++ [r.stamp]) crashFree' := by
  have hfilter : ∀ line ∈ A.filter F.moves, line ∈ A ∧ F.moves line = true := by
    intro line hline
    exact List.mem_filter.mp hline
  cases hleft with
  | same hseg hact' => exact ⟨A, h.same _ hseg hact' fun hf => (hfree hf).1⟩
  | copying xs hxs hn hseg hact' =>
      have hgz : r.compress = false := by
        by_contra hc
        have hc' := hopen (by simpa using hc)
        omega
      refine ⟨A, h.extend hseg (hact'.trans hact) (Stamp.names_segmentTmp r) hlt ?_ ?_
        (fun _ hl => hl) rfl (List.sublist_append_right _ _) fun hf => ?_⟩
      · rw [hasGzSuffix_segmentTmp, hgz]
      · intro line hline
        exact hfilter line ((hxs.sublist.filter F.moves).subset hline)
      · have := (hfree hf).2
        omega
  | twice hn hseg hact' =>
      refine ⟨A, h.extend hseg (hact'.trans hact) (Stamp.names_segment r) hlt
        (hasGzSuffix_segment r) hfilter (fun _ hl => hl) rfl (List.sublist_append_right _ _)
        fun hf => ?_⟩
      have := (hfree hf).2
      omega
  | moved hseg hact' =>
      have hnone : (A.filter fun line => !F.moves line).filter F.moves = [] := by
        rw [List.filter_filter, List.filter_eq_nil_iff]
        intro line _
        cases F.moves line <;> decide
      refine ⟨A.filter fun line => !F.moves line, h.extend hseg hact' (Stamp.names_segment r) hlt
        (hasGzSuffix_segment r) hfilter (fun _ hl => (List.mem_filter.mp hl).1) ?_ ?_
        fun hf => ⟨(hfree hf).1, ?_⟩⟩
      · rw [List.filter_filter]
        simp
      · rw [hnone, List.append_nil]
      · rw [hnone, List.append_nil]

theorem Keeps.fresh (h : Keeps F d L A used crashFree) {r : Rotation}
    (hlt : ∀ t ∈ used, t < r.stamp) : Fresh d r := by
  intro p hp
  obtain ⟨t, ht, hpt⟩ := h.named p hp
  exact ⟨(hpt.lt (Stamp.names_segment r) (hlt t ht)).ne,
    (hpt.lt (Stamp.names_segmentTmp r) (hlt t ht)).ne⟩

/-- A rotation that stops after `n` operations, whether or not there is an active file. -/
theorem Keeps.rotateFor (h : Keeps F d L A used crashFree) (hgood : ∀ line ∈ L, Good F line)
    {r : Rotation} {n : ℕ} (hlt : ∀ t ∈ used, t < r.stamp)
    (hopen : r.compress = true → ∀ c, Dict.get d LogFile.active.name = some c →
      n = 0 ∨ (F.rotateOps r c.lines).length ≤ n + 1) {crashFree' : Prop}
    (hfree : crashFree' → crashFree ∧ ∀ c, Dict.get d LogFile.active.name = some c →
      (F.rotateOps r c.lines).length ≤ n) :
    ∃ A', Keeps F (F.rotateFor r n d) L A' (used ++ [r.stamp]) crashFree' := by
  rcases h.active with hget | ⟨hget, -⟩
  · have hdir : F.rotateFor r n d = ((F.rotateOps r A).take n).foldl FileOp.run d := by
      rw [EventFormat.rotateFor, hget]
    rw [hdir]
    have hclassified := fun line hl => (hgood line (h.inActive line hl)).classified
    exact h.left (left_take F (h.fresh hlt) hclassified n)
      hget hlt (fun hc => hopen hc _ hget) fun hf => ⟨(hfree hf).1, (hfree hf).2 _ hget⟩
  · have hdir : F.rotateFor r n d = d := by rw [EventFormat.rotateFor, hget]
    rw [hdir]
    exact ⟨A, h.same _ rfl rfl fun hf => (hfree hf).1⟩

/-- A rotation that runs to its end. -/
theorem Keeps.rotate (h : Keeps F d L A used crashFree) (hgood : ∀ line ∈ L, Good F line)
    {r : Rotation} (hlt : ∀ t ∈ used, t < r.stamp) :
    F.rotates d = true ∧ ∃ A', Keeps F (F.rotate r d) L A' (used ++ [r.stamp]) crashFree := by
  rcases h.active with hget | ⟨hget, -⟩
  · have hcopied : F.copied A = A := by
      rw [copied, List.takeWhile_eq_self_iff]
      exact fun line hl => (hgood line (h.inActive line hl)).classified
    have hdir : F.rotate r d = F.rotateFor r (F.rotateOps r A).length d := by
      rw [EventFormat.rotate, EventFormat.rotateFor, hget]
      simp only [List.take_length]
    have hlen : ∀ c, Dict.get d LogFile.active.name = some c →
        (F.rotateOps r c.lines).length ≤ (F.rotateOps r A).length := by
      intro c hc
      obtain rfl := Option.some.inj (hget.symm.trans hc)
      exact Nat.le_refl _
    refine ⟨by rw [rotates, hget]; simp [hcopied], ?_⟩
    rw [hdir]
    exact h.rotateFor hgood hlt (fun _ c hc => Or.inr (Nat.le_succ_of_le (hlen c hc)))
      fun hf => ⟨hf, hlen⟩
  · have hdir : F.rotate r d = d := by rw [EventFormat.rotate, hget]
    rw [hdir]
    exact ⟨by rw [rotates, hget], A, h.same _ rfl rfl id⟩

variable (F)

/-- A step that keeps clear of what the reader cannot read: a crash leaves no compressed temporary
segment behind, and a foreign line holds an object or no JSON value. -/
def LogStep.Safe (d : Dir) : LogStep ε → Prop
  | .append _ _ => True
  | .crashed r n => r.compress = true → ∀ c, Dict.get d LogFile.active.name = some c →
      n = 0 ∨ (F.rotateOps r c.lines).length ≤ n + 1
  | .foreign line => ObjectOrNone F line ∧ ObjectOrNone F (F.strip line)

/-- Every step of a run is safe, in the directory it starts from. -/
def SafeRun (steps : List (LogStep ε)) : Prop :=
  ∀ before s after, steps = before ++ s :: after → s.Safe F (runLog F before)

def CrashFree (steps : List (LogStep ε)) : Prop := ∀ r n, .crashed r n ∉ steps

variable {F} {steps : List (LogStep ε)}

theorem SafeRun.init {s : LogStep ε} (h : SafeRun F (steps ++ [s])) : SafeRun F steps := by
  rintro before s' after rfl
  exact h before s' (after ++ [s]) (by simp)

theorem Admissible.init {s : LogStep ε} (h : Admissible F (steps ++ [s])) :
    Admissible F steps := by
  have hinc := h.increasing
  rw [List.filterMap_append] at hinc
  exact ⟨(List.pairwise_append.mp hinc).1, fun line hl =>
    h.foreign line (List.mem_append_left _ hl)⟩

/-- The lines of a run are read, and its events are those of its lines. -/
theorem lines_of_run (hadm : Admissible F steps) (hsafe : SafeRun F steps) :
    (∀ line ∈ steps.filterMap (LogStep.line F), Good F line) ∧
      (steps.filterMap (LogStep.line F)).filterMap (eventOf F) = appendedBy steps := by
  induction steps using List.reverseRecOn with
  | nil => simp [appendedBy]
  | append_singleton steps s ih =>
      obtain ⟨hgood, hevents⟩ := ih hadm.init hsafe.init
      have hs := hsafe steps s [] rfl
      rw [List.filterMap_append, List.filterMap_append, hevents, appendedBy, appendedBy,
        List.filterMap_append]
      cases s with
      | append rotation e =>
          have hev : eventOf F (F.dumps e) = some e := by
            rw [eventOf, readLine_dumps]
            rfl
          refine ⟨fun line hl => ?_, by simp [LogStep.line, LogStep.event, hev]⟩
          rcases List.mem_append.mp hl with hl | hl
          · exact hgood line hl
          · have hline : line = F.dumps e := by simpa [LogStep.line] using hl
            exact hline ▸ good_dumps F e
      | crashed r n =>
          refine ⟨fun line hl => ?_, by simp [List.filterMap_cons, LogStep.line, LogStep.event]⟩
          exact hgood line (by simpa [List.filterMap_cons, LogStep.line] using hl)
      | foreign text =>
          obtain ⟨hnone, htext⟩ := good_foreign F hs.1 hs.2
            (hadm.foreign text (by simp))
          refine ⟨fun line hl => ?_, by simp [LogStep.line, LogStep.event, hnone]⟩
          rcases List.mem_append.mp hl with hl | hl
          · exact hgood line hl
          · have hline : line = text := by simpa [LogStep.line] using hl
            exact hline ▸ htext

/-- **Where the lines of a run are.** -/
theorem keeps_run (hadm : Admissible F steps) (hsafe : SafeRun F steps) :
    ∃ A, Keeps F (runLog F steps) (steps.filterMap (LogStep.line F)) A
      (steps.filterMap LogStep.stamp) (CrashFree steps) := by
  induction steps using List.reverseRecOn with
  | nil => exact ⟨[], keeps_nil.same _ rfl rfl fun _ => trivial⟩
  | append_singleton steps s ih =>
      obtain ⟨A, hkeeps⟩ := ih hadm.init hsafe.init
      have hgood := (lines_of_run hadm.init hsafe.init).1
      have hs := hsafe steps s [] rfl
      have hfree : CrashFree (steps ++ [s]) → CrashFree steps := fun h r n hmem =>
        h r n (List.mem_append_left _ hmem)
      have hlt : ∀ r, s.stamp = some r → ∀ t ∈ steps.filterMap LogStep.stamp, t < r := by
        intro r hr t ht
        have hinc := hadm.increasing
        rw [List.filterMap_append] at hinc
        exact (List.pairwise_append.mp hinc).2.2 t ht r (by simp [hr])
      have hrun : runLog F (steps ++ [s]) = s.run F (runLog F steps) := by simp [runLog]
      rw [hrun, List.filterMap_append, List.filterMap_append]
      cases s with
      | append rotation e =>
          cases rotation with
          | none =>
              have hk := (hkeeps.same [] rfl rfl hfree).appendLine (F.dumps e)
              exact ⟨_, by
                simpa [List.filterMap_cons, LogStep.line, LogStep.stamp, LogStep.run] using hk⟩
          | some r =>
              obtain ⟨hrot, A', hk⟩ := hkeeps.rotate hgood (hlt r.stamp rfl)
              have hk' := (hk.same [] rfl rfl hfree).appendLine (F.dumps e)
              refine ⟨A' ++ [F.dumps e], ?_⟩
              rw [LogStep.run, if_pos hrot]
              simpa [LogStep.line, LogStep.stamp] using hk'
      | crashed r n =>
          have hcrash : ¬ CrashFree (steps ++ [.crashed r n]) := fun hf => absurd (by simp) (hf r n)
          obtain ⟨A', hk⟩ := hkeeps.rotateFor hgood (hlt r.stamp rfl) hs
            fun hf => absurd hf hcrash
          exact ⟨A', by
                simpa [List.filterMap_cons, LogStep.line, LogStep.stamp, LogStep.run] using hk⟩
      | foreign text =>
          have hk := (hkeeps.same [] rfl rfl hfree).appendLine text
          exact ⟨_, by
                simpa [List.filterMap_cons, LogStep.line, LogStep.stamp, LogStep.run] using hk⟩

/-! ### Reading -/

/-- Files whose names say how they were written. -/
def Opens (paths : Dir) : Prop := ∀ p ∈ paths, hasGzSuffix p.1 = p.2.gzip

theorem openEventFile_eq {p : String × FileContent} (h : hasGzSuffix p.1 = p.2.gzip) :
    openEventFile p = .ok p.2.lines := by
  rw [openEventFile, if_pos h]

theorem mapM_ok {α β : Type} {f : α → Except String β} {g : α → β} {l : List α}
    (h : ∀ a ∈ l, f a = .ok (g a)) : l.mapM f = .ok (l.map g) := by
  rw [mapM_eq_ok, List.forall₂_map_right_iff, List.forall₂_same]
  exact h

theorem rawLines_none {paths : Dir} (h : Opens paths) :
    rawLines paths none = .ok (paths.flatMap (·.2.lines)) := by
  rw [rawLines, mapM_ok fun p hp => openEventFile_eq (h p hp)]
  rfl

theorem lastLines_append (n : ℕ) (xs ys : List String) :
    lastLines n (xs ++ ys) = lastLines (n - ys.length) xs ++ lastLines n ys := by
  unfold lastLines
  rw [List.drop_append, List.length_append]
  congr 1
  · by_cases hn : ys.length ≤ n
    · congr 1
      omega
    · rw [List.drop_of_length_le (by omega), List.drop_of_length_le (by omega)]
  · congr 1
    omega

theorem length_lastLines (n : ℕ) (xs : List String) :
    (lastLines n xs).length = min n xs.length := by
  rw [lastLines, List.length_drop]
  omega

/-- The tail that is collected from the newest files on. -/
theorem tailLoop_eq {n : ℕ} {paths : Dir} (h : Opens paths) {tail : List String}
    (htail : tail.length ≤ n) :
    tailLoop n tail paths =
      .ok (lastLines (n - tail.length) (paths.reverse.flatMap (·.2.lines)) ++ tail) := by
  induction paths generalizing tail with
  | nil => simp [tailLoop, lastLines]
  | cons p paths ih =>
      rw [tailLoop]
      by_cases hfull : n - tail.length = 0
      · rw [if_pos hfull, hfull]
        simp [lastLines]
      · have hlen : (lastLines (n - tail.length) p.2.lines).length =
            min (n - tail.length) p.2.lines.length := length_lastLines _ _
        rw [if_neg hfull, openEventFile_eq (h p List.mem_cons_self), ok_bind,
          ih (fun q hq => h q (List.mem_cons_of_mem p hq))
            (by rw [List.length_append, hlen]; omega)]
        congr 1
        rw [List.reverse_cons, List.flatMap_append, List.flatMap_singleton, lastLines_append,
          ← List.append_assoc, List.length_append, hlen]
        congr 3
        omega

/-- The last lines that are read are the last lines of all files. -/
theorem rawLines_some {paths : Dir} (h : Opens paths) (n : ℕ) :
    rawLines paths (some n) = .ok (lastLines n (paths.flatMap (·.2.lines))) := by
  rw [rawLines, tailLoop_eq (fun p hp => h p (List.mem_reverse.mp hp)) (Nat.zero_le n)]
  simp

theorem parseLines_eq (kind : Option EventKind) {lines : List String}
    (h : ∀ line ∈ lines, Good F line) : F.parseLines kind lines =
      .ok ((lines.filterMap (eventOf F)).filter (F.wanted kind)) := by
  rw [parseLines, mapM_ok fun line hl => (h line hl).read, ok_bind, List.filterMap_map]
  rfl

/-- The events of a kind stand in the lines that move, or in those that stay. -/
theorem filter_kind {lines : List String} (h : ∀ line ∈ lines, Good F line) (k : EventKind) :
    (lines.filterMap (eventOf F)).filter (fun e => F.kind e = k) =
      ((lines.filter fun line => F.moves line = decide (k = .servedAnswer)).filterMap
        (eventOf F)).filter fun e => F.kind e = k := by
  induction lines with
  | nil => rfl
  | cons line lines ih =>
      have hline := h line List.mem_cons_self
      rw [List.filterMap_cons, List.filter_cons]
      have ih' := ih fun l hl => h l (List.mem_cons_of_mem line hl)
      cases he : eventOf F line with
      | none =>
          by_cases hm : F.moves line = decide (k = .servedAnswer)
          · simp only [hm, decide_true, if_true, List.filterMap_cons, he]
            exact ih'
          · simp only [hm, decide_false]
            exact ih'
      | some e =>
          have hmoves := hline.moves e he
          by_cases hk : F.kind e = k
          · have hm : F.moves line = decide (k = .servedAnswer) := by
              rw [Bool.eq_iff_iff, hmoves, hk, decide_eq_true_iff]
            simp only [hm, decide_true, if_true, List.filterMap_cons, he, List.filter_cons, hk]
            rw [ih']
          · by_cases hm : F.moves line = decide (k = .servedAnswer)
            · simp only [hm, decide_true, if_true, List.filterMap_cons, he, List.filter_cons, hk]
              simpa using ih'
            · simp only [hm, decide_false, List.filter_cons, hk]
              simpa using ih'

/-- The lines `read_events` goes through. -/
def readableLines (d : Dir) (A : List String) (kind : Option EventKind) : List String :=
  (if inSegments kind then segmentLines d else []) ++ A

theorem Keeps.paths (h : Keeps F d L A used crashFree) (kind : Option EventKind) :
    Opens (eventLogPaths d (inSegments kind)) ∧
      (eventLogPaths d (inSegments kind)).flatMap (·.2.lines) = readableLines d A kind := by
  have hactive : hasGzSuffix LogFile.active.name = false := by decide
  have hseg : segmentPaths d = segments d := segmentPaths_eq h.sorted
  have hopens : ∀ p ∈ if inSegments kind then segments d else [],
      hasGzSuffix p.1 = p.2.gzip := by
    intro p hp
    by_cases hk : inSegments kind = true
    · exact h.opens p (by rwa [if_pos hk] at hp)
    · rw [if_neg hk] at hp
      cases hp
  have hlines : (if inSegments kind then segments d else []).flatMap (·.2.lines) =
      if inSegments kind then segmentLines d else [] := by
    by_cases hk : inSegments kind = true
    · rw [if_pos hk, if_pos hk, segmentLines]
    · rw [if_neg hk, if_neg hk]
      rfl
  rcases h.active with hget | ⟨hget, rfl⟩
  · rw [eventLogPaths_some hget, hseg, List.flatMap_append, hlines]
    refine ⟨fun p hp => ?_, by simp [readableLines]⟩
    rcases List.mem_append.mp hp with hp | hp
    · exact hopens p hp
    · rw [List.mem_singleton.mp hp]
      exact hactive
  · rw [eventLogPaths_none hget, hseg, hlines]
    exact ⟨hopens, by simp [readableLines]⟩

theorem Keeps.mem_lines (h : Keeps F d L A used crashFree) {kind : Option EventKind}
    {line : String} (hl : line ∈ readableLines d A kind) : line ∈ L := by
  rcases List.mem_append.mp hl with hl | hl
  · by_cases hk : inSegments kind = true
    · exact (h.segmented line (by rwa [if_pos hk] at hl)).1
    · rw [if_neg hk] at hl
      cases hl
  · exact h.inActive line hl

/-- Of the lines that are read, those of a kind that is asked for. -/
theorem Keeps.lines_of_kind (h : Keeps F d L A used crashFree) {kind : Option EventKind}
    {k : EventKind} (hk : kind = none ∨ kind = some k) :
    (L.filter fun line => F.moves line = decide (k = .servedAnswer)).Sublist
        ((readableLines d A kind).filter fun line => F.moves line = decide (k = .servedAnswer)) ∧
      (crashFree →
        ((readableLines d A kind).filter fun line => F.moves line = decide (k = .servedAnswer)) =
          L.filter fun line => F.moves line = decide (k = .servedAnswer)) := by
  have hmoving : (segmentLines d).filter F.moves = segmentLines d :=
    List.filter_eq_self.mpr fun line hl => (h.segmented line hl).2
  have hstaying : ((segmentLines d).filter fun line => !F.moves line) = [] := by
    rw [List.filter_eq_nil_iff]
    intro line hl
    simp [(h.segmented line hl).2]
  by_cases hserved : k = .servedAnswer
  · -- the segments are read
    have hin : inSegments kind = true := by
      rcases hk with rfl | rfl
      · rfl
      · rw [hserved]
        rfl
    simp only [hserved, decide_true, Bool.decide_eq_true, readableLines, hin, if_true,
      List.filter_append, hmoving]
    exact ⟨h.moved, fun hf => (h.whole hf).symm⟩
  · have hstay : ∀ lines : List String, (lines.filter fun line => F.moves line = false) =
        lines.filter fun line => !F.moves line := by
      intro lines
      refine List.filter_congr fun line _ => ?_
      cases F.moves line <;> rfl
    have hsame : ((readableLines d A kind).filter fun line => !F.moves line) =
        L.filter fun line => !F.moves line := by
      rw [readableLines, List.filter_append, ← h.stays]
      by_cases hin : inSegments kind = true
      · rw [if_pos hin, hstaying, List.nil_append]
      · rw [if_neg hin]
        rfl
    simp only [hserved, decide_false, hstay, hsame]
    exact ⟨List.Sublist.refl _, fun _ => trivial⟩

/-- What a reader gets from a directory that keeps the lines. -/
theorem Keeps.losesNothing (h : Keeps F d L A used crashFree) (hgood : ∀ line ∈ L, Good F line) :
    LosesNothing F d (L.filterMap (eventOf F)) crashFree := by
  constructor
  · intro kind
    obtain ⟨hopens, hlines⟩ := h.paths kind
    have hread : ∀ line ∈ readableLines d A kind, Good F line := fun line hl =>
      hgood line (h.mem_lines hl)
    refine ⟨((readableLines d A kind).filterMap (eventOf F)).filter (F.wanted kind), ?_, ?_, ?_⟩
    · rw [readEvents, rawLines_none hopens, hlines, ok_bind, parseLines_eq kind hread]
    · intro e he
      obtain ⟨line, hl, hev⟩ := List.mem_filterMap.mp (List.mem_filter.mp he).1
      exact List.mem_filterMap.mpr ⟨line, h.mem_lines hl, hev⟩
    · intro k hk
      have hwanted : (((readableLines d A kind).filterMap (eventOf F)).filter
          (F.wanted kind)).filter (fun e => F.kind e = k) =
          ((readableLines d A kind).filterMap (eventOf F)).filter fun e => F.kind e = k := by
        rw [List.filter_filter]
        refine List.filter_congr fun e _ => ?_
        rcases hk with rfl | rfl
        · simp [wanted]
        · simp [wanted]
      obtain ⟨hsub, heq⟩ := h.lines_of_kind hk
      rw [hwanted, filter_kind hread k, filter_kind hgood k]
      exact ⟨(hsub.filterMap _).filter _, fun hf => by rw [heq hf]⟩
  · intro n kind
    obtain ⟨hopens, hlines⟩ := h.paths kind
    refine ⟨readableLines d A kind, by rw [rawLines_none hopens, hlines], ?_⟩
    rw [readEvents, rawLines_some hopens, hlines, ok_bind]

/-- A run whose steps are safe loses nothing. -/
theorem losesNothing_of_safeRun (hadm : Admissible F steps) (hsafe : SafeRun F steps) :
    LosesNothing F (runLog F steps) (appendedBy steps) (CrashFree steps) := by
  obtain ⟨A, hkeeps⟩ := keeps_run hadm hsafe
  obtain ⟨hgood, hevents⟩ := lines_of_run hadm hsafe
  rw [← hevents]
  exact hkeeps.losesNothing hgood

end Runs

/-! ### A crash, and a line that is no object -/

/-- The line of an event that is nothing but its kind. -/
private def kindText (k : EventKind) : String := "\x7b\"kind\": \"" ++ k.value ++ "\"\x7d"

private def kindFields (k : EventKind) : Dict Json := [("kind", .str k.value)]

private def loadKind (text : String) : Loaded :=
  match EventKind.all.find? fun k => kindText k = text with
  | some k => .json (.obj (kindFields k))
  | none => if text = "[1]" then .json (.arr [.num 1]) else .decodeError

private theorem loadKind_kindText (k : EventKind) :
    loadKind (kindText k) = .json (.obj (kindFields k)) := by
  cases k <;> rfl

private theorem kindText_ne (k : EventKind) : kindText k ≠ "" := by
  cases k <;> decide

private theorem loads_kindText (k : EventKind) : ∃ fields : Dict Json,
    loadKind (kindText k) = .json (.obj fields) ∧
      Dict.get fields "kind" = some (.str k.value) ∧ some k = some k :=
  ⟨kindFields k, loadKind_kindText k, rfl, rfl⟩

/-- Events that are nothing but their kind, as a format. -/
private def kindFormat : EventFormat EventKind where
  kind k := k
  dumps := kindText
  loads := loadKind
  validate k _ := some k
  strip text := text
  loads_dumps := loads_kindText
  strip_dumps _ := rfl
  dumps_ne := kindText_ne

/-- `20260101T000000000000Z`. -/
private def newYear : Stamp where
  text := ['2', '0', '2', '6', '0', '1', '0', '1', 'T', '0', '0', '0', '0', '0', '0', '0', '0',
    '0', '0', '0', '0', 'Z']
  length_text := rfl

/-- `20270101T000000000000Z`. -/
private def nextYear : Stamp where
  text := ['2', '0', '2', '7', '0', '1', '0', '1', 'T', '0', '0', '0', '0', '0', '0', '0', '0',
    '0', '0', '0', '0', 'Z']
  length_text := rfl

/-- The process dies after the segment was written and before it gets its name. -/
private def crashRun : List (LogStep EventKind) :=
  [.append none .servedAnswer, .crashed ⟨newYear, true⟩ 3]

/-- Someone wrote a JSON array into the log. -/
private def arrayRun : List (LogStep EventKind) :=
  [.append none .servedAnswer, .foreign "[1]"]

/-- One event, a rotation, a crash without compression, and a line that is no JSON. -/
private def keptRun : List (LogStep EventKind) :=
  [.append none .servedAnswer, .append (some ⟨newYear, true⟩) .funnelMilestone,
    .crashed ⟨nextYear, false⟩ 2, .foreign "oops", .append none .servedAnswer]

private theorem newYear_lt : newYear < nextYear := by decide

theorem losesNothing_kept : Admissible kindFormat keptRun ∧ SafeRun kindFormat keptRun ∧
    LosesNothing kindFormat (runLog kindFormat keptRun) (appendedBy keptRun)
      (CrashFree keptRun) := by
  have hadm : Admissible kindFormat keptRun := by
    constructor
    · exact List.pairwise_pair.mpr newYear_lt
    · intro line hline e hread
      obtain rfl : line = "oops" := by simpa [keptRun] using hline
      cases hread
  have hsafe : SafeRun kindFormat keptRun := by
    intro before s after hsplit
    have hs : s ∈ keptRun := by
      rw [hsplit]
      simp
    simp only [keptRun, List.mem_cons, List.not_mem_nil, or_false] at hs
    rcases hs with rfl | rfl | rfl | rfl | rfl
    · trivial
    · trivial
    · exact fun hcompress => absurd hcompress (by decide)
    · exact ⟨Or.inl rfl, Or.inl rfl⟩
    · trivial
  exact ⟨hadm, hsafe, losesNothing_of_safeRun hadm hsafe⟩

/-- The reader fails on the temporary file of a compressed segment, and on a JSON array. -/
theorem losesNothing_counterexample :
    (Admissible kindFormat crashRun ∧ ¬ LosesNothing kindFormat (runLog kindFormat crashRun)
      (appendedBy crashRun) (CrashFree crashRun)) ∧
    (Admissible kindFormat arrayRun ∧ ¬ LosesNothing kindFormat (runLog kindFormat arrayRun)
      (appendedBy arrayRun) (CrashFree arrayRun)) := by
  refine ⟨⟨⟨?_, ?_⟩, fun h => ?_⟩, ⟨?_, ?_⟩, fun h => ?_⟩
  · exact List.pairwise_singleton _ _
  · intro line hline
    simp [crashRun] at hline
  · obtain ⟨events, hread, -⟩ := h.all none
    have herr : kindFormat.readEvents (runLog kindFormat crashRun) none none =
        .error "UnicodeDecodeError" := by rfl
    rw [herr] at hread
    cases hread
  · exact List.Pairwise.nil
  · intro line hline e hread
    obtain rfl : line = "[1]" := by simpa [arrayRun] using hline
    cases hread
  · obtain ⟨events, hread, -⟩ := h.all none
    have herr : kindFormat.readEvents (runLog kindFormat arrayRun) none none =
        .error "AttributeError" := by rfl
    rw [herr] at hread
    cases hread

end Canonic
