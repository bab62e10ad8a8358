import Canonic.Text
import Canonic.Semantic.TimeFormat

set_option autoImplicit false

/-! # Labels and their periods

What `render` writes is what `parse` reads, and where the placeholders run from most to least
significant, labels sort like their periods. A label is stripped before it is read, so a format with
blanks at an end reads no label at all.
-/

namespace Canonic

/-! ## Texts without blanks at their ends -/

/-- A text is stripped to itself exactly when neither end has a blank. -/
theorem stripSpaces_eq_self_iff {cs : List Char} : stripSpaces cs = cs ↔
    cs.dropWhile isPySpace = cs ∧ cs.reverse.dropWhile isPySpace = cs.reverse := by
  constructor
  · intro h
    have hinner := (List.dropWhile_suffix isPySpace : cs.dropWhile isPySpace <:+ cs)
    have houter := (List.dropWhile_suffix isPySpace :
      (cs.dropWhile isPySpace).reverse.dropWhile isPySpace <:+ (cs.dropWhile isPySpace).reverse)
    have hlen : (stripSpaces cs).length = cs.length := by rw [h]
    have hle := houter.length_le
    rw [stripSpaces, List.length_reverse] at hlen
    rw [List.length_reverse] at hle
    have hfront : cs.dropWhile isPySpace = cs := by
      apply hinner.eq_of_length
      have := hinner.length_le
      omega
    refine ⟨hfront, ?_⟩
    rw [stripSpaces, hfront] at h
    rw [← List.reverse_inj, List.reverse_reverse]
    exact h
  · rintro ⟨hfront, hback⟩
    rw [stripSpaces, hfront, hback, List.reverse_reverse]

theorem stripSpaces_eq_self_iff_length {cs : List Char} :
    stripSpaces cs = cs ↔ (stripSpaces cs).length = cs.length := by
  constructor
  · intro h
    rw [h]
  · intro h
    have hsub : List.Sublist (stripSpaces cs) cs := by
      have hinner := (List.dropWhile_suffix isPySpace : cs.dropWhile isPySpace <:+ cs).sublist
      have houter := (List.dropWhile_suffix isPySpace :
        (cs.dropWhile isPySpace).reverse.dropWhile isPySpace <:+
          (cs.dropWhile isPySpace).reverse).sublist.reverse
      rw [List.reverse_reverse] at houter
      exact houter.trans hinner
    exact hsub.eq_of_length h

/-- Whether a text starts with a blank depends on its first piece. -/
theorem dropWhile_flatMap_iff {α : Type} {p : Char → Bool} {ts : List α} {g h : α → List Char}
    (hsame : ∀ t ∈ ts, g t ≠ [] ∧ h t ≠ [] ∧
      ((g t).dropWhile p = g t ↔ (h t).dropWhile p = h t)) :
    (ts.flatMap g).dropWhile p = ts.flatMap g ↔ (ts.flatMap h).dropWhile p = ts.flatMap h := by
  have hhead : ∀ {xs : List Char} (ys : List Char), xs ≠ [] →
      ((xs ++ ys).dropWhile p = xs ++ ys ↔ xs.dropWhile p = xs) := by
    intro xs ys hne
    cases xs with
    | nil => exact absurd rfl hne
    | cons x xs =>
        rw [List.cons_append, List.dropWhile_eq_self_iff, List.dropWhile_eq_self_iff]
        simp
  cases ts with
  | nil => exact Iff.rfl
  | cons t ts =>
      obtain ⟨hg, hh, hiff⟩ := hsame t List.mem_cons_self
      rw [List.flatMap_cons, List.flatMap_cons, hhead _ hg, hhead _ hh, hiff]

/-- Two texts of the same pieces, whose ends have a blank together, are stripped to themselves
together. -/
theorem stripSpaces_flatMap_iff {α : Type} {ts : List α} {g h : α → List Char}
    (hsame : ∀ t ∈ ts, g t = h t ∧ g t ≠ [] ∨ (g t ≠ [] ∧ ∀ c ∈ g t, isPySpace c = false) ∧
      h t ≠ [] ∧ ∀ c ∈ h t, isPySpace c = false) :
    stripSpaces (ts.flatMap g) = ts.flatMap g ↔ stripSpaces (ts.flatMap h) = ts.flatMap h := by
  have hdrop : ∀ cs : List Char, (∀ c ∈ cs, isPySpace c = false) →
      cs.dropWhile isPySpace = cs := by
    intro cs hcs
    rw [List.dropWhile_eq_self_iff]
    intro hlen
    rw [hcs _ (List.getElem_mem hlen)]
    decide
  rw [stripSpaces_eq_self_iff, stripSpaces_eq_self_iff, List.reverse_flatMap, List.reverse_flatMap]
  apply and_congr
  · apply dropWhile_flatMap_iff
    intro t ht
    rcases hsame t ht with ⟨heq, hne⟩ | ⟨⟨hg, hg'⟩, hh, hh'⟩
    · exact ⟨hne, heq ▸ hne, by rw [heq]⟩
    · exact ⟨hg, hh, iff_of_true (hdrop _ hg') (hdrop _ hh')⟩
  · apply dropWhile_flatMap_iff
    intro t ht
    rcases hsame t (List.mem_reverse.mp ht) with ⟨heq, hne⟩ | ⟨⟨hg, hg'⟩, hh, hh'⟩
    · refine ⟨by simpa using hne, by simpa using heq ▸ hne, ?_⟩
      show (g t).reverse.dropWhile _ = (g t).reverse ↔ (h t).reverse.dropWhile _ = (h t).reverse
      rw [heq]
    · refine ⟨by simpa using hg, by simpa using hh, iff_of_true ?_ ?_⟩
      · exact hdrop _ fun c hc => hg' c (List.mem_reverse.mp hc)
      · exact hdrop _ fun c hc => hh' c (List.mem_reverse.mp hc)

/-- How a token is spelled in a format. -/
def FormatToken.source : FormatToken → List Char
  | .text c => [c]
  | .placeholder d => ['%', d]

theorem formatTokens_source (cs : List Char) : (formatTokens cs).flatMap (·.source) = cs := by
  fun_induction formatTokens cs with
  | case1 cs ih =>
      rw [List.flatMap_cons, ih]
      rfl
  | case2 c cs _ ih =>
      rw [List.flatMap_cons, ih]
      rfl
  | case3 c cs _ _ ih =>
      rw [List.flatMap_cons, ih]
      rfl
  | case4 => rfl

/-- How many characters an item reads. -/
def PatternItem.width : PatternItem → Nat
  | .char _ => 1
  | .group d => directiveWidth d

/-- A match fixes the length of its text. -/
theorem length_of_fullmatch {items : List PatternItem} :
    ∀ {cs : List Char} {groups : List (Char × List Char)}, fullmatch items cs = some groups →
      cs.length = (items.map PatternItem.width).sum := by
  induction items with
  | nil =>
      intro cs groups h
      cases cs with
      | nil => rfl
      | cons c cs => cases h
  | cons item items ih =>
      intro cs groups h
      rw [List.map_cons, List.sum_cons]
      cases item with
      | char c =>
          cases cs with
          | nil => cases h
          | cons d cs =>
              rw [fullmatch] at h
              by_cases hsame : c = d
              · rw [if_pos hsame] at h
                rw [List.length_cons, ih h]
                exact Nat.add_comm _ 1
              · rw [if_neg hsame] at h
                cases h
      | group d =>
          rw [fullmatch] at h
          by_cases hdigits : (cs.take (directiveWidth d)).length = directiveWidth d ∧
              (cs.take (directiveWidth d)).all (isDirectiveDigit d) = true
          · rw [if_pos hdigits] at h
            obtain ⟨rest, hrest, -⟩ := Option.map_eq_some_iff.mp h
            have hlen := hdigits.1
            rw [List.length_take] at hlen
            rw [← ih hrest, List.length_drop]
            show cs.length = directiveWidth d + (cs.length - directiveWidth d)
            omega
          · rw [if_neg hdigits] at h
            cases h

namespace TimeFormat

/-! ## Reading what was rendered -/

theorem pattern_directives {f : TimeFormat} (hf : f.Compiled) :
    f.pattern.filterMap (·.directive?) = f.directives := by
  rw [hf.pattern_eq, hf.directives_eq, List.filterMap_map]
  apply List.filterMap_congr
  intro t _
  exact t.item_directive?

/-- The label of a period matches the pattern, with the digits of its numbers. -/
theorem fullmatch_starts {f : TimeFormat} (hf : f.Compiled) {s : Moment} (hs : Starts f.grain s) :
    fullmatch f.pattern (f.render s).toList =
      some (f.directives.map fun d =>
        (d, fixedDigits (directiveWidth d) (component s d).toNat)) := by
  have htext : ∀ d ∈ f.directives, (placeholderText s d).toList =
      fixedDigits (directiveWidth d) (component s d).toNat := by
    intro d hd
    obtain ⟨hknown, hpos, hlt, -⟩ := component_bounds hs ((hf.required d).mp hd)
    exact placeholderText_toList hknown hpos hlt
  rw [render_toList hf, fullmatch_render, pattern_directives hf]
  · congr 1
    apply List.map_congr_left
    intro d hd
    rw [htext d hd]
  · rw [pattern_directives hf]
    intro d hd
    obtain ⟨-, -, -, hall⟩ := component_bounds hs ((hf.required d).mp hd)
    rw [htext d hd]
    exact ⟨length_fixedDigits _ _, hall⟩

theorem directiveWidth_bounds (d : Char) : 1 ≤ directiveWidth d ∧ directiveWidth d ≤ 4 := by
  unfold directiveWidth
  split
  · decide
  · split <;> decide

/-- The digits of a placeholder are read as their number. -/
theorem pyInt_fixedDigits {d : Char} {n : Int} (hpos : 0 ≤ n) (hlt : n < 10 ^ directiveWidth d) :
    pyInt (String.ofList (fixedDigits (directiveWidth d) n.toNat)) = some n := by
  have hwidth := directiveWidth_bounds d
  have hlt' : n.toNat < 10 ^ directiveWidth d := by
    rw [← Nat.cast_lt (α := Int), Int.toNat_of_nonneg hpos]
    push_cast
    exact hlt
  rw [pyInt_digits (fun c hc => isDigit_fixedDigits c hc), ofDigitChars_fixedDigits hlt']
  · exact congrArg some (Int.toNat_of_nonneg hpos)
  · rw [← List.length_pos_iff, length_fixedDigits]
    exact hwidth.1
  · rw [length_fixedDigits, maxStrDigits]
    omega

/-- A label that is not changed by stripping is read as its period. -/
theorem parse_render {f : TimeFormat} (hf : f.Compiled) {s : Moment} (hs : Starts f.grain s)
    (hstrip : stripSpaces (f.render s).toList = (f.render s).toList) :
    f.parse (f.render s) = some s := by
  have hparts : (f.directives.mapM fun d => do
      let digits ← (f.directives.map fun d =>
        (d, fixedDigits (directiveWidth d) (component s d).toNat)).lookup d
      let n ← pyInt (String.ofList digits)
      return (d, n)) = some (f.directives.map fun d => (d, component s d)) := by
    apply mapM_some
    intro d hd
    obtain ⟨-, hpos, hlt, -⟩ := component_bounds hs ((hf.required d).mp hd)
    rw [lookup_map_self, if_pos hd, Option.bind_eq_bind, Option.bind_some,
      pyInt_fixedDigits hpos hlt]
    rfl
  rw [parse, hstrip, fullmatch_starts hf hs]
  show (Option.bind (f.directives.mapM _) _) = _
  rw [hparts]
  apply ofParts_starts hs
  intro d
  rw [lookup_map_self]
  exact if_congr (hf.required d) rfl rfl

/-! ## Writing what was read -/

theorem datetime_eq_some {y m d h : Int} {s : Moment} (hs : datetime y m d h = some s) :
    s = ⟨⟨y, m, d⟩, h, 0, 0, 0⟩ ∧ s.Valid := by
  unfold datetime at hs
  by_cases hrange : (1 ≤ y ∧ y ≤ 9999) ∧ (1 ≤ m ∧ m ≤ 12) ∧
      (1 ≤ d ∧ d ≤ Date.daysInMonth y m) ∧ (0 ≤ h ∧ h < 24)
  · rw [if_pos hrange] at hs
    obtain ⟨hyear, hmonth, hday, hhour⟩ := hrange
    obtain rfl := Option.some.inj hs
    refine ⟨rfl, ⟨hmonth.1, hmonth.2, hday.1, hday.2⟩, hyear, hhour, ?_, ?_, ?_⟩
    · exact ⟨le_rfl, show (0 : Int) < 60 by decide⟩
    · exact ⟨le_rfl, show (0 : Int) < 60 by decide⟩
    · exact ⟨le_rfl, show (0 : Int) < 1000000 by decide⟩
  · rw [if_neg hrange] at hs
    cases hs

/-- Numbers that lead to a moment are those of the start of a period. -/
theorem ofParts_eq_some {g : PeriodGrain} {s : Moment} {parts : List (Char × Int)}
    (h : ofParts g parts = some s)
    (hno : ∀ d, d ∉ requiredDirectives g.value → parts.lookup d = none)
    (hyes : ∀ d ∈ requiredDirectives g.value, ∃ n, parts.lookup d = some n) :
    Starts g s ∧ ∀ d ∈ requiredDirectives g.value, parts.lookup d = some (component s d) := by
  cases g with
  | week =>
      obtain ⟨year, hG⟩ := hyes 'G' (by decide)
      obtain ⟨week, hV⟩ := hyes 'V' (by decide)
      rw [ofParts, if_pos rfl, hG, hV] at h
      obtain ⟨monday, hmonday, hs⟩ := Option.bind_eq_some_iff.mp
        (show (fromIsoCalendar year week).bind _ = _ from h)
      obtain rfl := Option.some.inj hs
      obtain ⟨hvalid, hrange, hweekday, hiso, -, -, -⟩ := isocalendar_fromIsoCalendar hmonday
      have hmidnight : Moment.Valid ⟨monday, 0, 0, 0, 0⟩ :=
        valid_midnight (m := ⟨monday, 0, 0, 0, 0⟩) hvalid hrange
      constructor
      · refine ⟨hmidnight, ?_⟩
        apply (@floorToGrain_start _ _ ((monday.toOrdinal + 6) / 7) hmidnight ?_).2
        have hinstant := instant_midnight ⟨monday, 0, 0, 0, 0⟩
        have hstart : periodStart .week ((monday.toOrdinal + 6) / 7) =
            (7 * ((monday.toOrdinal + 6) / 7) - 6) * dayMicros := rfl
        rw [hstart]
        refine hinstant.trans ?_
        unfold Date.weekday at hweekday
        congr 1
        show monday.toOrdinal = _
        omega
      · intro d hd
        have hG' : component ⟨monday, 0, 0, 0, 0⟩ 'G' = year := congrArg Prod.fst hiso
        have hV' : component ⟨monday, 0, 0, 0, 0⟩ 'V' = week := congrArg Prod.snd hiso
        have hcases : d = 'G' ∨ d = 'V' := by simpa [requiredDirectives, PeriodGrain.value] using hd
        rcases hcases with rfl | rfl
        · rw [hG, hG']
        · rw [hV, hV']
  | year =>
      obtain ⟨year, hY⟩ := hyes 'Y' (by decide)
      rw [ofParts, if_neg (by decide), hno 'q' (by decide), hno 'm' (by decide),
        hno 'd' (by decide), hno 'H' (by decide), hY] at h
      obtain ⟨rfl, hvalid⟩ := datetime_eq_some (show datetime year 1 1 0 = some s from h)
      refine ⟨⟨hvalid, rfl⟩, ?_⟩
      simp [requiredDirectives, PeriodGrain.value, hY, component]
  | quarter =>
      obtain ⟨year, hY⟩ := hyes 'Y' (by decide)
      obtain ⟨q, hq⟩ := hyes 'q' (by decide)
      rw [ofParts, if_neg (by decide), hno 'd' (by decide), hno 'H' (by decide), hY, hq] at h
      obtain ⟨rfl, hvalid⟩ :=
        datetime_eq_some (show datetime year (3 * (q - 1) + 1) 1 0 = some s from h)
      have hquarter : (3 * (q - 1) + 1 - 1) / 3 = q - 1 := by omega
      refine ⟨⟨hvalid, ?_⟩, ?_⟩
      · simp [floorToGrain, Moment.midnight]
      · simp [requiredDirectives, PeriodGrain.value, hY, hq, component]
  | month =>
      obtain ⟨year, hY⟩ := hyes 'Y' (by decide)
      obtain ⟨month, hm⟩ := hyes 'm' (by decide)
      rw [ofParts, if_neg (by decide), hno 'q' (by decide), hno 'd' (by decide),
        hno 'H' (by decide), hY, hm] at h
      obtain ⟨rfl, hvalid⟩ := datetime_eq_some (show datetime year month 1 0 = some s from h)
      refine ⟨⟨hvalid, rfl⟩, ?_⟩
      simp [requiredDirectives, PeriodGrain.value, hY, hm, component]
  | day =>
      obtain ⟨year, hY⟩ := hyes 'Y' (by decide)
      obtain ⟨month, hm⟩ := hyes 'm' (by decide)
      obtain ⟨day, hd⟩ := hyes 'd' (by decide)
      rw [ofParts, if_neg (by decide), hno 'q' (by decide), hno 'H' (by decide), hY, hm, hd] at h
      obtain ⟨rfl, hvalid⟩ := datetime_eq_some (show datetime year month day 0 = some s from h)
      refine ⟨⟨hvalid, rfl⟩, ?_⟩
      simp [requiredDirectives, PeriodGrain.value, hY, hm, hd, component]
  | hour =>
      obtain ⟨year, hY⟩ := hyes 'Y' (by decide)
      obtain ⟨month, hm⟩ := hyes 'm' (by decide)
      obtain ⟨day, hd⟩ := hyes 'd' (by decide)
      obtain ⟨hour, hH⟩ := hyes 'H' (by decide)
      rw [ofParts, if_neg (by decide), hno 'q' (by decide), hY, hm, hd, hH] at h
      obtain ⟨rfl, hvalid⟩ := datetime_eq_some (show datetime year month day hour = some s from h)
      refine ⟨⟨hvalid, rfl⟩, ?_⟩
      simp [requiredDirectives, PeriodGrain.value, hY, hm, hd, hH, component]

/-- The digits of ASCII text are `0` to `9`. -/
theorem isDigit_of_isDirectiveDigit {d c : Char} (h : isDirectiveDigit d c = true)
    (hascii : c.toNat < 128) : c.isDigit = true := by
  unfold isDirectiveDigit at h
  by_cases hq : d = 'q'
  · rw [if_pos hq, decide_eq_true_eq] at h
    simp only [List.mem_cons, List.not_mem_nil, or_false] at h
    rcases h with rfl | rfl | rfl | rfl <;> rfl
  · rw [if_neg hq, decimalDigit, Option.isSome_map, List.find?_isSome] at h
    obtain ⟨z, hz, hin⟩ := h
    rw [decide_eq_true_eq] at hin
    have hzeros : ∀ z ∈ decimalZeros, z = 48 ∨ 128 ≤ z := by decide
    have hzero : z = 48 := by
      rcases hzeros z hz with h | h
      · exact h
      · omega
    simp only [Char.isDigit, Bool.and_eq_true, decide_eq_true_eq]
    have hlow : 48 ≤ c.toNat := hzero ▸ hin.1
    have hhigh : c.toNat ≤ 57 := by omega
    exact ⟨UInt32.le_iff_toNat_le.mpr hlow, UInt32.le_iff_toNat_le.mpr hhigh⟩

/-- Groups are found by their placeholders. -/
theorem eq_map_lookup {groups : List (Char × List Char)} (hnd : (groups.map (·.1)).Nodup) :
    groups = (groups.map (·.1)).map fun d => (d, (groups.lookup d).getD []) := by
  induction groups with
  | nil => rfl
  | cons p groups ih =>
      rw [List.map_cons, List.nodup_cons] at hnd
      rw [List.map_cons, List.map_cons, List.lookup_cons, beq_self_eq_true]
      congr 1
      have hrest : ((groups.map (·.1)).map fun d => (d, ((p :: groups).lookup d).getD [])) =
          (groups.map (·.1)).map fun d => (d, (groups.lookup d).getD []) := by
        apply List.map_congr_left
        intro d hd
        have hne : (d == p.1) = false := by
          rw [beq_eq_false_iff_ne]
          rintro rfl
          exact hnd.1 hd
        rw [List.lookup_cons, hne]
      rw [hrest]
      exact ih hnd.2

/-- An ASCII label is the label of the period it is read as, but for the blanks around it. -/
theorem render_parse {f : TimeFormat} (hf : f.Compiled) {t : String}
    (hascii : ∀ c ∈ t.toList, c.toNat < 128) {s : Moment} (h : f.parse t = some s) :
    Starts f.grain s ∧ (f.render s).toList = stripSpaces t.toList := by
  have hstripped : ∀ c ∈ stripSpaces t.toList, c.toNat < 128 := by
    intro c hc
    have hback := (List.dropWhile_suffix _).subset (List.mem_reverse.mp hc)
    exact hascii c ((List.dropWhile_suffix _).subset (List.mem_reverse.mp hback))
  obtain ⟨groups, hgroups, h⟩ := Option.bind_eq_some_iff.mp h
  obtain ⟨parts, hparts, hof⟩ := Option.bind_eq_some_iff.mp h
  obtain ⟨hkeys, hdigits, hrender⟩ := render_of_fullmatch hgroups
  rw [pattern_directives hf] at hkeys
  obtain ⟨v, hmap⟩ : ∃ v : Char → List Char, groups = f.directives.map fun d => (d, v d) := by
    refine ⟨fun d => (groups.lookup d).getD [], ?_⟩
    rw [← hkeys]
    exact eq_map_lookup (hkeys ▸ hf.nodup)
  have hlookup : ∀ d ∈ f.directives, groups.lookup d = some (v d) := by
    intro d hd
    rw [hmap, lookup_map_self, if_pos hd]
  have hdigit : ∀ d ∈ f.directives, (v d).length = directiveWidth d ∧
      ∀ c ∈ v d, c.isDigit = true := by
    intro d hd
    obtain ⟨hlen, hall, hmem⟩ := hdigits (d, v d) (by
      rw [hmap]
      exact List.mem_map.mpr ⟨d, hd, rfl⟩)
    refine ⟨hlen, fun c hc => ?_⟩
    exact isDigit_of_isDirectiveDigit (List.all_eq_true.mp hall c hc) (hstripped c (hmem c hc))
  -- the numbers of the groups
  have hvalue : f.directives.map (fun d => (d, (Nat.ofDigitChars 10 (v d) 0 : Int))) = parts := by
    apply Option.some.inj
    rw [← hparts]
    symm
    apply mapM_some
    intro d hd
    obtain ⟨hlen, hall⟩ := hdigit d hd
    rw [hlookup d hd]
    show (pyInt (String.ofList (v d))).bind _ = _
    rw [pyInt_digits hall]
    · rfl
    · rw [← List.length_pos_iff, hlen]
      exact (directiveWidth_bounds d).1
    · rw [hlen, maxStrDigits]
      have := (directiveWidth_bounds d).2
      omega
  have hpart : ∀ d, parts.lookup d =
      if d ∈ f.directives then some (Nat.ofDigitChars 10 (v d) 0 : Int) else none := by
    intro d
    rw [← hvalue, lookup_map_self]
  obtain ⟨hs, hcomponent⟩ := ofParts_eq_some hof
    (fun d hd => (hpart d).trans (if_neg fun hin => hd ((hf.required d).mp hin)))
    (fun d hd => ⟨_, (hpart d).trans (if_pos ((hf.required d).mpr hd))⟩)
  refine ⟨hs, ?_⟩
  rw [render_toList hf]
  apply hrender
  intro p hp
  rw [hmap] at hp
  obtain ⟨d, hd, rfl⟩ := List.mem_map.mp hp
  obtain ⟨hknown, hpos, hlt, -⟩ := component_bounds hs ((hf.required d).mp hd)
  have hnumber : component s d = (Nat.ofDigitChars 10 (v d) 0 : Int) := by
    have := hcomponent d ((hf.required d).mp hd)
    rw [hpart, if_pos hd] at this
    exact (Option.some.inj this).symm
  show (placeholderText s d).toList = v d
  rw [placeholderText_toList hknown hpos hlt, hnumber, Int.toNat_natCast, ← (hdigit d hd).1]
  exact (fixedDigits_ofDigitChars (hdigit d hd).2).1

/-! ## The order of labels -/

/-- Two texts of one template differ where the first of their placeholders do. -/
theorem flatMap_text_lt {items : List PatternItem} {v w : Char → List Char}
    (hlen : ∀ d, (v d).length = (w d).length) {d : Char} {after : List Char} :
    ∀ {before : List Char}, items.filterMap (·.directive?) = before ++ d :: after →
      (∀ x ∈ before, v x = w x) → v d < w d →
        items.flatMap (·.text v) < items.flatMap (·.text w) := by
  induction items with
  | nil =>
      intro before h
      cases before <;> cases h
  | cons item items ih =>
      intro before h hsame hlt
      rw [List.flatMap_cons, List.flatMap_cons]
      cases item with
      | char c => exact List.append_left_lt (ih h hsame hlt)
      | group x =>
          have hcons : x :: items.filterMap (·.directive?) = before ++ d :: after := h
          cases before with
          | nil =>
              obtain ⟨rfl, -⟩ := List.cons.inj hcons
              exact append_lt_append hlt (hlen x) _ _
          | cons y before =>
              obtain ⟨rfl, hrest⟩ := List.cons.inj hcons
              show v x ++ _ < w x ++ _
              rw [hsame x List.mem_cons_self]
              apply List.append_left_lt
              exact ih hrest (fun z hz => hsame z (List.mem_cons_of_mem _ hz)) hlt

theorem isoWeek1Monday_mono : StrictMono isoWeek1Monday := by
  apply strictMono_int_of_lt_succ
  intro y
  rw [isoWeek1Monday_succ]
  split <;> omega

/-- The first number in which the starts of two periods differ is smaller for the earlier one. -/
theorem component_lt {g : PeriodGrain} {a b : Moment} (ha : Starts g a) (hb : Starts g b)
    (hlt : a < b) : ∃ before d after, requiredDirectives g.value = before ++ d :: after ∧
      (∀ x ∈ before, component a x = component b x) ∧ component a d < component b d := by
  have hday := ha.valid.instant_bounds
  have hday' := hb.valid.instant_bounds
  rw [Moment.lt_iff] at hlt
  -- the day comes first, and only hours tell moments of one day apart
  have hcalendar : a.day < b.day ∨ a.day = b.day ∧ g = .hour := by
    rw [Date.lt_iff_toOrdinal ha.valid.day hb.valid.day]
    by_cases hordinal : a.day.toOrdinal < b.day.toOrdinal
    · exact Or.inl hordinal
    · refine Or.inr ⟨eq_of_toOrdinal ha.valid.day hb.valid.day ?_, ?_⟩
      · unfold dayMicros at hday hday'
        omega
      · by_contra hg
        have h := instant_midnight a
        have h' := instant_midnight b
        rw [← (ha.midnight hg).2] at h
        rw [← (hb.midnight hg).2] at h'
        unfold dayMicros at h h'
        omega
  have hdays : g ≠ .hour → a.day.year < b.day.year ∨ a.day.year = b.day.year ∧
      (a.day.month < b.day.month ∨ a.day.month = b.day.month ∧ a.day.day < b.day.day) :=
    fun hg => hcalendar.resolve_right fun h => hg h.2
  cases g with
  | week =>
      obtain ⟨hmonday, -⟩ := ha.iso
      obtain ⟨hmonday', -⟩ := hb.iso
      obtain ⟨-, -, -, -, hordinal, hweek, -⟩ := isocalendar_fromIsoCalendar hmonday
      obtain ⟨-, -, -, -, hordinal', -, hnext⟩ := isocalendar_fromIsoCalendar hmonday'
      have hbefore := (Date.lt_iff_toOrdinal ha.valid.day hb.valid.day).mp (hdays (by decide))
      rcases lt_trichotomy (isocalendar a.day).1 (isocalendar b.day).1 with hyear | hyear | hyear
      · exact ⟨[], 'G', ['V'], rfl, by simp, hyear⟩
      · refine ⟨['G'], 'V', [], rfl, by simpa [component] using hyear, ?_⟩
        show (isocalendar a.day).2 < (isocalendar b.day).2
        rw [hyear] at hordinal
        omega
      · -- a later week of an earlier ISO year cannot be
        have := isoWeek1Monday_mono.monotone (show (isocalendar b.day).1 + 1 ≤ _ from hyear)
        omega
  | year =>
      have hfirst := congrArg (fun m : Moment => (m.day.month, m.day.day)) (Except.ok.inj ha.floor)
      have hfirst' := congrArg (fun m : Moment => (m.day.month, m.day.day)) (Except.ok.inj hb.floor)
      simp only [Prod.mk.injEq] at hfirst hfirst'
      refine ⟨[], 'Y', [], rfl, by simp, ?_⟩
      show a.day.year < b.day.year
      have := hdays (by decide)
      omega
  | quarter =>
      have hmonth := congrArg (fun m : Moment => (m.day.month, m.day.day)) (Except.ok.inj ha.floor)
      have hmonth' := congrArg (fun m : Moment => (m.day.month, m.day.day)) (Except.ok.inj hb.floor)
      simp only [Moment.midnight, Prod.mk.injEq] at hmonth hmonth'
      rcases hdays (by decide) with hyear | ⟨hyear, hrest⟩
      · exact ⟨[], 'Y', ['q'], rfl, by simp, hyear⟩
      · refine ⟨['Y'], 'q', [], rfl, by simpa [component] using hyear, ?_⟩
        show (a.day.month - 1) / 3 + 1 < (b.day.month - 1) / 3 + 1
        omega
  | month =>
      have hfirst := congrArg (fun m : Moment => m.day.day) (Except.ok.inj ha.floor)
      have hfirst' := congrArg (fun m : Moment => m.day.day) (Except.ok.inj hb.floor)
      simp only at hfirst hfirst'
      rcases hdays (by decide) with hyear | ⟨hyear, hrest⟩
      · exact ⟨[], 'Y', ['m'], rfl, by simp, hyear⟩
      · refine ⟨['Y'], 'm', [], rfl, by simpa [component] using hyear, ?_⟩
        show a.day.month < b.day.month
        omega
  | day =>
      rcases hdays (by decide) with hyear | ⟨hyear, hmonth | ⟨hmonth, hdate⟩⟩
      · exact ⟨[], 'Y', ['m', 'd'], rfl, by simp, hyear⟩
      · exact ⟨['Y'], 'm', ['d'], rfl, by simpa [component] using hyear, hmonth⟩
      · exact ⟨['Y', 'm'], 'd', [], rfl, by simpa [component] using ⟨hyear, hmonth⟩, hdate⟩
  | hour =>
      rcases hcalendar with (hyear | ⟨hyear, hmonth | ⟨hmonth, hdate⟩⟩) | ⟨hsame, -⟩
      · exact ⟨[], 'Y', ['m', 'd', 'H'], rfl, by simp, hyear⟩
      · exact ⟨['Y'], 'm', ['d', 'H'], rfl, by simpa [component] using hyear, hmonth⟩
      · exact ⟨['Y', 'm'], 'd', ['H'], rfl, by simpa [component] using ⟨hyear, hmonth⟩, hdate⟩
      · refine ⟨['Y', 'm', 'd'], 'H', [], rfl, by simp [component, hsame], ?_⟩
        have hminute := congrArg (fun m : Moment => (m.minute, m.second, m.microsecond))
          (Except.ok.inj ha.floor)
        have hminute' := congrArg (fun m : Moment => (m.minute, m.second, m.microsecond))
          (Except.ok.inj hb.floor)
        simp only [Prod.mk.injEq] at hminute hminute'
        show a.hour < b.hour
        unfold Moment.instant at hlt
        rw [hsame] at hlt
        omega

/-- Where the placeholders run from most to least significant, labels sort like their periods. -/
theorem render_lt {f : TimeFormat} (hf : f.Compiled)
    (horder : f.directives = requiredDirectives f.grain.value) {a b : Moment}
    (ha : Starts f.grain a) (hb : Starts f.grain b) (hlt : a < b) : f.render a < f.render b := by
  -- a placeholder that the format does not have is of no account
  let text := fun (s : Moment) (d : Char) =>
    if d ∈ f.directives then (placeholderText s d).toList else []
  have hrender : ∀ s, (f.render s).toList = f.pattern.flatMap (·.text (text s)) := by
    intro s
    rw [render_toList hf]
    apply List.flatMap_congr
    intro item hitem
    cases item with
    | char c => rfl
    | group d =>
        have hd : d ∈ f.directives := by
          rw [← pattern_directives hf, List.mem_filterMap]
          exact ⟨.group d, hitem, rfl⟩
        exact (if_pos hd).symm
  have hdigits : ∀ s, Starts f.grain s → ∀ d ∈ f.directives,
      text s d = fixedDigits (directiveWidth d) (component s d).toNat := by
    intro s hs d hd
    obtain ⟨hknown, hpos, hbound, -⟩ := component_bounds hs ((hf.required d).mp hd)
    exact (if_pos hd).trans (placeholderText_toList hknown hpos hbound)
  obtain ⟨before, d, after, hsplit, hsame, hless⟩ := component_lt ha hb hlt
  rw [← horder] at hsplit
  have hin : ∀ x ∈ before ++ [d], x ∈ f.directives := by
    intro x hx
    rw [hsplit, List.append_cons]
    exact List.mem_append_left _ hx
  rw [String.lt_iff_toList_lt, hrender, hrender]
  refine @flatMap_text_lt _ _ _ ?_ d after before ?_ ?_ ?_
  · intro x
    by_cases hx : x ∈ f.directives
    · rw [hdigits a ha x hx, hdigits b hb x hx, length_fixedDigits, length_fixedDigits]
    · rw [show text a x = [] from if_neg hx, show text b x = [] from if_neg hx]
  · rw [pattern_directives hf, hsplit]
  · intro x hx
    have hx' := hin x (List.mem_append_left _ hx)
    rw [hdigits a ha x hx', hdigits b hb x hx', hsame x hx]
  · have hd : d ∈ f.directives := hin d (by simp)
    obtain ⟨-, hpos, -, -⟩ := component_bounds ha ((hf.required d).mp hd)
    obtain ⟨-, hpos', hbound, -⟩ := component_bounds hb ((hf.required d).mp hd)
    rw [hdigits a ha d hd, hdigits b hb d hd]
    apply fixedDigits_lt (by omega)
    rw [← Nat.cast_lt (α := Int), Int.toNat_of_nonneg hpos']
    push_cast
    exact hbound

theorem render_lt_iff {f : TimeFormat} (hf : f.Compiled)
    (horder : f.directives = requiredDirectives f.grain.value) {a b : Moment}
    (ha : Starts f.grain a) (hb : Starts f.grain b) : f.render a < f.render b ↔ a < b := by
  constructor
  · intro h
    rcases lt_trichotomy a.instant b.instant with hlt | heq | hgt
    · exact hlt
    · rw [Moment.eq_of_instant ha.valid hb.valid heq] at h
      exact absurd h (lt_irrefl _)
    · exact absurd (h.trans (render_lt hf horder hb ha hgt)) (lt_irrefl _)
  · exact render_lt hf horder ha hb

/-! ## Formats with blanks at an end -/

/-- A label has blanks at an end exactly when its format has. -/
theorem stripSpaces_render_iff {f : TimeFormat} (hf : f.Compiled) {s : Moment}
    (hs : Starts f.grain s) : stripSpaces (f.render s).toList = (f.render s).toList ↔
      stripSpaces f.format.toList = f.format.toList := by
  nth_rewrite 1 2 [← formatTokens_source f.format.toList]
  rw [render, String.toList_ofList]
  apply stripSpaces_flatMap_iff
  intro t ht
  cases t with
  | text c => exact Or.inl ⟨rfl, by simp⟩
  | placeholder d =>
      right
      show ((placeholderText s d).toList ≠ [] ∧ ∀ c ∈ (placeholderText s d).toList, _) ∧
        ['%', d] ≠ [] ∧ ∀ c ∈ ['%', d], _
      by_cases hd : d = '%'
      · subst hd
        have hpercent : (placeholderText s '%').toList = ['%'] := by
          simp [placeholderText]
        rw [hpercent]
        simp [isPySpace]
      · have hin : d ∈ f.directives := by
          rw [hf.directives_eq, List.mem_filterMap]
          exact ⟨.placeholder d, ht, if_neg hd⟩
        obtain ⟨hknown, hpos, hlt, -⟩ := component_bounds hs ((hf.required d).mp hin)
        have hplain : ∀ d ∈ knownDirectives, isPySpace d = false := by
          simp [knownDirectives, isPySpace]
        rw [placeholderText_toList hknown hpos hlt]
        refine ⟨⟨?_, fun c hc => isPySpace_of_isDigit (isDigit_fixedDigits c hc)⟩, by simp, ?_⟩
        · rw [← List.length_pos_iff, length_fixedDigits]
          exact (directiveWidth_bounds d).1
        · intro c hc
          simp only [List.mem_cons, List.not_mem_nil, or_false] at hc
          rcases hc with rfl | rfl
          · decide
          · exact hplain c hknown

/-- A Monday that starts a period of every grain. -/
theorem starts_2001 (g : PeriodGrain) : Starts g ⟨⟨2001, 1, 1⟩, 0, 0, 0, 0⟩ := by
  refine ⟨by decide, ?_⟩
  cases g <;> rfl

/-- The labels of a format spell its periods. -/
structure SpellsPeriods (f : TimeFormat) : Prop where
  parse_render : ∀ s, Starts f.grain s → f.parse (f.render s) = some s
  render_parse : ∀ t : String, (∀ c ∈ t.toList, c.toNat < 128) → ∀ s, f.parse t = some s →
    (f.render s).toList = stripSpaces t.toList
  order : f.sortsChronologically = true → ∀ a b, Starts f.grain a → Starts f.grain b →
    (f.render a < f.render b ↔ a < b)

/-- A format spells its periods exactly when neither of its ends has a blank. -/
theorem spellsPeriods_iff {format : String} {grain : PeriodGrain} {f : TimeFormat}
    (h : compile format grain = .ok f) :
    f.SpellsPeriods ↔ stripSpaces format.toList = format.toList := by
  obtain ⟨rfl, rfl, hf⟩ := compile_eq_ok h
  constructor
  · intro hspells
    have hs := starts_2001 f.grain
    obtain ⟨groups, hgroups, -⟩ := Option.bind_eq_some_iff.mp (hspells.parse_render _ hs)
    rw [← stripSpaces_render_iff hf hs]
    -- the stripped label matches as well, so nothing was stripped
    rw [stripSpaces_eq_self_iff_length]
    calc (stripSpaces (f.render ⟨⟨2001, 1, 1⟩, 0, 0, 0, 0⟩).toList).length
        = (f.pattern.map PatternItem.width).sum := length_of_fullmatch hgroups
      _ = (f.render ⟨⟨2001, 1, 1⟩, 0, 0, 0, 0⟩).toList.length :=
        (length_of_fullmatch (fullmatch_starts hf hs)).symm
  · intro hformat
    refine ⟨fun s hs => ?_, fun t hascii s hs => (TimeFormat.render_parse hf hascii hs).2, ?_⟩
    · exact TimeFormat.parse_render hf hs ((stripSpaces_render_iff hf hs).mpr hformat)
    · intro horder a b ha hb
      exact render_lt_iff hf (of_decide_eq_true horder) ha hb

theorem compile_of_tokens {format : String} {grain : PeriodGrain} {tokens : List FormatToken}
    {found : List Char} {pattern : List PatternItem}
    (htokens : formatTokens format.toList = tokens)
    (hfold : tokens.foldlM (compileToken format) ([], []) = .ok (found, pattern))
    (hpercent : endsWithPercent tokens = false)
    (hrequired : (∀ d ∈ found, d ∈ requiredDirectives grain.value) ∧
      ∀ d ∈ requiredDirectives grain.value, d ∈ found) :
    compile format grain = .ok ⟨format, grain, found, pattern⟩ := by
  subst htokens
  refine bind_eq_ok.mpr ⟨(found, pattern), hfold, ?_⟩
  show (if endsWithPercent _ = true then _ else _) = _
  rw [if_neg (by simp [hpercent])]
  exact if_pos hrequired

/-- Weeks spelled `2026-W43`. -/
theorem spellsPeriods_weeks :
    TimeFormat.SpellsPeriods ⟨"%G-W%V", .week, ['G', 'V'],
      [.group 'G', .char '-', .char 'W', .group 'V']⟩ :=
  (spellsPeriods_iff (compile_of_tokens rfl rfl (by decide)
    (by simp [requiredDirectives, PeriodGrain.value]))).mpr (by decide)

/-- A format that starts with a blank reads none of the labels it writes. -/
theorem spellsPeriods_counterexample : ∃ f, compile " %Y" .year = .ok f ∧
    Starts .year ⟨⟨2001, 1, 1⟩, 0, 0, 0, 0⟩ ∧ f.render ⟨⟨2001, 1, 1⟩, 0, 0, 0, 0⟩ = " 2001" ∧
    f.parse (f.render ⟨⟨2001, 1, 1⟩, 0, 0, 0, 0⟩) = none ∧ ¬ f.SpellsPeriods := by
  have hcompile : compile " %Y" .year =
      .ok ⟨" %Y", .year, ['Y'], [.char ' ', .group 'Y']⟩ :=
    compile_of_tokens rfl rfl (by decide) (by simp [requiredDirectives, PeriodGrain.value])
  have hrender : TimeFormat.render ⟨" %Y", .year, ['Y'], [.char ' ', .group 'Y']⟩
      ⟨⟨2001, 1, 1⟩, 0, 0, 0, 0⟩ = " 2001" := by rfl
  have hparse : TimeFormat.parse ⟨" %Y", .year, ['Y'], [.char ' ', .group 'Y']⟩ " 2001" = none := by
    simp [parse, stripSpaces, isPySpace, fullmatch]
  refine ⟨_, hcompile, starts_2001 .year, hrender, hrender ▸ hparse, fun hspells => ?_⟩
  have h := hspells.parse_render _ (starts_2001 .year)
  rw [hrender, hparse] at h
  cases h

end TimeFormat

end Canonic
