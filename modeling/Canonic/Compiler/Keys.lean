import Canonic.Compiler.Calls

set_option autoImplicit false

/-! # Resolved keys

The key a metric's history is kept under: what each kind records of its definition, how that reads
as a text, and when the text can be taken back apart. -/

namespace Canonic

open Sql (Expr)

/-! ## What a key records -/

/-- What the key of a metric records of its definition. -/
inductive KeyFields where
  /-- An additive or semi-additive metric. -/
  | measure (source measure : String)
  | recompute (source column : String)
  | opaque_ (source measure : String)
  | cumulative (source measure frame : String)
  | ratio (numerator denominator : String)
  | weightedAvg (weightedSum weight : String)
  | offset (base : KeyFields) (timeDimension offset : String)
  | derived (expr : String)
  | conversion (base conversion : KeyFields) (calculation window : String)
  /-- An input without a key of its own. -/
  | named (metric : String)
  deriving DecidableEq

namespace KeyFields

/-- The word before the parenthesis, when there is one. -/
def head : KeyFields → Option String
  | measure .. | named _ => none
  | recompute .. => some "recompute_at_grain"
  | opaque_ .. => some "opaque"
  | cumulative .. => some "cumulative"
  | ratio .. => some "ratio"
  | weightedAvg .. => some "weighted_avg"
  | offset .. => some "offset"
  | derived _ => some "derived"
  | conversion .. => some "conversion"

/-- A word with its parenthesis. -/
def call (word body : String) : String := word ++ "(" ++ body ++ ")"

/-- The key as it is written. -/
def text : KeyFields → String
  | measure s m => s ++ "." ++ m
  | recompute s c => call "recompute_at_grain" (s ++ "." ++ c)
  | opaque_ s m => call "opaque" (s ++ "." ++ m)
  | cumulative s m frame => call "cumulative" (s ++ "." ++ m ++ frame)
  | ratio n d => call "ratio" (n ++ ", " ++ d)
  | weightedAvg n d => call "weighted_avg" (n ++ ", " ++ d)
  | offset b dim o => call "offset" (b.text ++ ", " ++ dim ++ ", " ++ o)
  | derived e => call "derived" e
  | conversion b c calculation window =>
      call "conversion" (b.text ++ ", " ++ c.text ++ ", " ++ calculation ++ window)
  | named n => n

/-- What stands between the parentheses, the whole key when there are none. -/
def body : KeyFields → String
  | measure s m | recompute s m | opaque_ s m => s ++ "." ++ m
  | cumulative s m frame => s ++ "." ++ m ++ frame
  | ratio n d | weightedAvg n d => n ++ ", " ++ d
  | offset b dim o => b.text ++ ", " ++ dim ++ ", " ++ o
  | derived e => e
  | conversion b c calculation window =>
      b.text ++ ", " ++ c.text ++ ", " ++ calculation ++ window
  | named n => n

theorem text_eq (k : KeyFields) :
    k.text = match k.head with | some word => call word k.body | none => k.body := by
  cases k <;> rfl

/-! ## Taking a key apart -/

/-- A name without the characters that structure a key. -/
def PlainName (name : String) : Prop :=
  ∀ c ∈ name.toList, c ≠ '.' ∧ c ≠ ',' ∧ c ≠ '('

instance (name : String) : Decidable (PlainName name) := List.decidableBAll _ name.toList

/-- Every name the key records is plain. -/
def Plain : KeyFields → Prop
  | measure s m | recompute s m | opaque_ s m | cumulative s m _ => PlainName s ∧ PlainName m
  | ratio n d | weightedAvg n d => PlainName n ∧ PlainName d
  | offset b dim _ => b.Plain ∧ PlainName dim
  | derived _ => True
  | conversion b c _ _ => b.Plain ∧ c.Plain
  | named n => PlainName n

/-- What holds of the other parts of a key whatever the names are: a frame is empty or starts with
its comma, an offset has no comma, and a conversion is of a measure or of a metric without a key. -/
def Formed : KeyFields → Prop
  | cumulative _ _ frame => frame.toList = [] ∨ ∃ t, frame.toList = ',' :: t
  | offset b _ o => b.Formed ∧ ',' ∉ o.toList
  | conversion b c calculation window => b.head = none ∧ c.head = none ∧
      ',' ∉ calculation.toList ∧ (window.toList = [] ∨ ∃ t, window.toList = ',' :: t)
  | _ => True

theorem PlainName.notMem {name : String} (h : PlainName name) :
    '.' ∉ name.toList ∧ ',' ∉ name.toList ∧ '(' ∉ name.toList :=
  ⟨fun hc => (h _ hc).1 rfl, fun hc => (h _ hc).2.1 rfl, fun hc => (h _ hc).2.2 rfl⟩

/-- A key without parentheses has no comma either. -/
theorem Plain.notMem_of_head_none {k : KeyFields} (hp : k.Plain) (h : k.head = none) :
    '(' ∉ k.text.toList ∧ ',' ∉ k.text.toList := by
  cases k with
  | measure s m =>
      obtain ⟨-, hs, hs'⟩ := hp.1.notMem
      obtain ⟨-, hm, hm'⟩ := hp.2.notMem
      simp [text, hs, hs', hm, hm']
  | named n =>
      obtain ⟨-, hn, hn'⟩ := hp.notMem
      exact ⟨hn', hn⟩
  | _ => simp [head] at h

theorem paren_notMem_head {k : KeyFields} {word : String} (h : k.head = some word) :
    '(' ∉ word.toList := by
  cases k with
  | measure | named => simp [head] at h
  | _ =>
      simp only [head, Option.some.injEq] at h
      subst h
      decide

theorem call_inj {word word' body body' : String} (hw : '(' ∉ word.toList)
    (hw' : '(' ∉ word'.toList) (h : call word body = call word' body') :
    word = word' ∧ body = body' := by
  have hl := congrArg String.toList h
  simp only [call, String.toList_append, List.append_assoc] at hl
  obtain ⟨h1, h2⟩ := append_inj_of_sep hw hw' (.inr ⟨_, rfl⟩) (.inr ⟨_, rfl⟩) hl
  refine ⟨String.toList_inj.mp h1, String.toList_inj.mp ?_⟩
  exact List.append_cancel_right (List.cons.inj h2).2

/-- The word and the body of a key are read off its text. -/
theorem head_body_of_text {k k' : KeyFields} (hp : k.Plain) (hp' : k'.Plain)
    (h : k.text = k'.text) : k.head = k'.head ∧ k.body = k'.body := by
  have hmem {k : KeyFields} {word : String} (hk : k.head = some word) : '(' ∈ k.text.toList := by
    rw [text_eq, hk]
    simp [call]
  cases hk : k.head with
  | none =>
      cases hk' : k'.head with
      | none => exact ⟨rfl, by simpa [text_eq, hk, hk'] using h⟩
      | some word' => exact absurd (h ▸ hmem hk') (hp.notMem_of_head_none hk).1
  | some word =>
      cases hk' : k'.head with
      | none => exact absurd (h ▸ hmem hk) (hp'.notMem_of_head_none hk').1
      | some word' =>
          rw [text_eq, text_eq, hk, hk'] at h
          obtain ⟨rfl, hbody⟩ := call_inj (paren_notMem_head hk) (paren_notMem_head hk') h
          exact ⟨rfl, hbody⟩

/-- A source and what is read of it. -/
theorem dotted_inj {s s' m m' : String} (hs : PlainName s) (hs' : PlainName s')
    (h : s ++ "." ++ m = s' ++ "." ++ m') : s = s' ∧ m = m' := by
  refine join_inj hs.notMem.1 hs'.notMem.1 ?_
  simpa using congrArg String.toList h

theorem eq_of_head_none {k k' : KeyFields} (hp : k.Plain) (hp' : k'.Plain) (hk : k.head = none)
    (hk' : k'.head = none) (h : k.text = k'.text) : k = k' := by
  have hdot {s m n : String} (hn : PlainName n) : s ++ "." ++ m ≠ n := by
    intro heq
    have hmem : '.' ∈ n.toList := by simp [← heq]
    exact hn.notMem.1 hmem
  cases k with
  | measure s m =>
      cases k' with
      | measure s' m' =>
          obtain ⟨rfl, rfl⟩ := dotted_inj hp.1 hp'.1 h
          rfl
      | named n => exact absurd h (hdot hp')
      | _ => simp [head] at hk'
  | named n =>
      cases k' with
      | measure s' m' => exact absurd h.symm (hdot hp)
      | named n' => exact congrArg named h
      | _ => simp [head] at hk'
  | _ => simp [head] at hk

/-- The parts of an offset's key, from its end. -/
theorem offset_body_inj {b b' dim dim' o o' : String} (hd : PlainName dim) (hd' : PlainName dim')
    (ho : ',' ∉ o.toList) (ho' : ',' ∉ o'.toList)
    (h : b ++ ", " ++ dim ++ ", " ++ o = b' ++ ", " ++ dim' ++ ", " ++ o') :
    b = b' ∧ dim = dim' ∧ o = o' := by
  have hspace {x : String} (hx : ',' ∉ x.toList) : ',' ∉ (" " ++ x).toList := by simpa using hx
  obtain ⟨hl, hr⟩ := @join_inj_right ',' (b ++ ", " ++ dim) (b' ++ ", " ++ dim') (" " ++ o)
    (" " ++ o') (hspace ho) (hspace ho') (by simpa using congrArg String.toList h)
  obtain ⟨hbase, hdim⟩ := @join_inj_right ',' b b' (" " ++ dim) (" " ++ dim')
    (hspace hd.notMem.2.1) (hspace hd'.notMem.2.1) (by simpa using congrArg String.toList hl)
  exact ⟨hbase, by simpa using hdim, by simpa using hr⟩

/-- The parts of a conversion's key, from its start. -/
theorem conversion_body_inj {b b' c c' k k' w w' : String} (hb : ',' ∉ b.toList)
    (hb' : ',' ∉ b'.toList) (hc : ',' ∉ c.toList) (hc' : ',' ∉ c'.toList) (hk : ',' ∉ k.toList)
    (hk' : ',' ∉ k'.toList) (hw : w.toList = [] ∨ ∃ t, w.toList = ',' :: t)
    (hw' : w'.toList = [] ∨ ∃ t, w'.toList = ',' :: t)
    (h : b ++ ", " ++ c ++ ", " ++ k ++ w = b' ++ ", " ++ c' ++ ", " ++ k' ++ w') :
    b = b' ∧ c = c' ∧ k = k' ∧ w = w' := by
  obtain ⟨rfl, h1⟩ := @join_inj ',' b b' (" " ++ c ++ ", " ++ k ++ w)
    (" " ++ c' ++ ", " ++ k' ++ w')
    hb hb' (by simpa using congrArg String.toList h)
  obtain ⟨hcc, h2⟩ := @join_inj ',' (" " ++ c) (" " ++ c') (" " ++ k ++ w) (" " ++ k' ++ w')
    (by simpa using hc) (by simpa using hc') (by simpa using congrArg String.toList h1)
  have h3 : k.toList ++ w.toList = k'.toList ++ w'.toList := by
    simpa using congrArg String.toList h2
  obtain ⟨hkk, hww⟩ := append_inj_of_sep hk hk' hw hw' h3
  exact ⟨rfl, by simpa using hcc, String.toList_inj.mp hkk, String.toList_inj.mp hww⟩

/-- Two metrics beside a comma. -/
theorem pair_inj {n n' d d' : String} (hn : PlainName n) (hn' : PlainName n')
    (h : n ++ ", " ++ d = n' ++ ", " ++ d') : n = n' ∧ d = d' := by
  obtain ⟨hl, hr⟩ := @join_inj ',' n n' (" " ++ d) (" " ++ d') hn.notMem.2.1 hn'.notMem.2.1
    (by simpa using congrArg String.toList h)
  exact ⟨hl, by simpa using hr⟩

/-- **A key over plain names is read back from its text.** -/
theorem text_inj {k : KeyFields} : ∀ {k' : KeyFields}, k.Plain → k'.Plain → k.Formed → k'.Formed →
    k.text = k'.text → k = k' := by
  -- the word of the key decides its constructor, and the body its fields
  induction k with
  | measure s m =>
      intro k' hp hp' _ _ h
      exact eq_of_head_none hp hp' rfl (head_body_of_text hp hp' h).1.symm h
  | named n =>
      intro k' hp hp' _ _ h
      exact eq_of_head_none hp hp' rfl (head_body_of_text hp hp' h).1.symm h
  | recompute s c =>
      intro k' hp hp' _ _ h
      obtain ⟨hh, hb⟩ := head_body_of_text hp hp' h
      cases k' <;> simp [head] at hh
      obtain ⟨rfl, rfl⟩ := dotted_inj hp.1 hp'.1 hb
      rfl
  | opaque_ s m =>
      intro k' hp hp' _ _ h
      obtain ⟨hh, hb⟩ := head_body_of_text hp hp' h
      cases k' <;> simp [head] at hh
      obtain ⟨rfl, rfl⟩ := dotted_inj hp.1 hp'.1 hb
      rfl
  | cumulative s m frame =>
      intro k' hp hp' hf hf' h
      obtain ⟨hh, hb⟩ := head_body_of_text hp hp' h
      cases k' <;> simp [head] at hh
      rename_i s' m' frame'
      obtain ⟨rfl, hm⟩ := @dotted_inj s s' (m ++ frame) (m' ++ frame') hp.1 hp'.1
        (by simpa [body, String.append_assoc] using hb)
      have hl : m.toList ++ frame.toList = m'.toList ++ frame'.toList := by
        simpa using congrArg String.toList hm
      obtain ⟨h1, h2⟩ := append_inj_of_sep hp.2.notMem.2.1 hp'.2.notMem.2.1 hf hf' hl
      rw [String.toList_inj.mp h1, String.toList_inj.mp h2]
  | ratio n d =>
      intro k' hp hp' _ _ h
      obtain ⟨hh, hb⟩ := head_body_of_text hp hp' h
      cases k' <;> simp [head] at hh
      obtain ⟨rfl, rfl⟩ := pair_inj hp.1 hp'.1 hb
      rfl
  | weightedAvg n d =>
      intro k' hp hp' _ _ h
      obtain ⟨hh, hb⟩ := head_body_of_text hp hp' h
      cases k' <;> simp [head] at hh
      obtain ⟨rfl, rfl⟩ := pair_inj hp.1 hp'.1 hb
      rfl
  | offset b dim o ih =>
      intro k' hp hp' hf hf' h
      obtain ⟨hh, hb⟩ := head_body_of_text hp hp' h
      cases k' <;> simp [head] at hh
      obtain ⟨hbase, rfl, rfl⟩ := offset_body_inj hp.2 hp'.2 hf.2 hf'.2 hb
      rw [ih hp.1 hp'.1 hf.1 hf'.1 hbase]
  | derived e =>
      intro k' hp hp' _ _ h
      obtain ⟨hh, hb⟩ := head_body_of_text hp hp' h
      cases k' <;> simp [head] at hh
      exact congrArg derived hb
  | conversion b c calculation window =>
      intro k' hp hp' hf hf' h
      obtain ⟨hh, hb⟩ := head_body_of_text hp hp' h
      cases k' <;> simp [head] at hh
      obtain ⟨hfb, hfc, hcalc, hw⟩ := hf
      obtain ⟨hfb', hfc', hcalc', hw'⟩ := hf'
      obtain ⟨htb, htc, rfl, rfl⟩ := conversion_body_inj (hp.1.notMem_of_head_none hfb).2
        (hp'.1.notMem_of_head_none hfb').2 (hp.2.notMem_of_head_none hfc).2
        (hp'.2.notMem_of_head_none hfc').2 hcalc hcalc' hw hw' hb
      rw [eq_of_head_none hp.1 hp'.1 hfb hfb' htb, eq_of_head_none hp.2 hp'.2 hfc hfc' htc]

end KeyFields

namespace Binding

/-- The fields that the key of a planned metric records. -/
def keyFields : Binding → KeyFields
  | leaf b =>
      match b.canonical.of with
      | .single s m | .semiAdditive s m _ _ => .measure s m
      | .opaque_ s m _ => .opaque_ s m
      | .cumulative s m f => .cumulative s m f.frameKey
      | .distinctCount s c _ | .percentile s c _ _ => .recompute s c
      -- the other kinds are not bound to a source
      | _ => .named b.metric
  | composite b n d =>
      if b.canonical.of.kind = .weightedAvg then .weightedAvg n.metric d.metric
      else .ratio n.metric d.metric
  | offset _ b dim o =>
      .offset (if b.resolvedKey.isNone then .named b.metric else b.keyFields) dim o.text
  | derived _ e _ _ => .derived e
  | conversion _ b c p =>
      .conversion (if b.resolvedKey.isNone then .named b.metric else b.keyFields)
        (if c.resolvedKey.isNone then .named c.metric else c.keyFields) p.calculation.value
        (match p.window with | some w => ", window=" ++ w.text | none => "")

/-- What a metric computed from this one records of it. -/
def inputKey (b : Binding) : KeyFields :=
  if b.resolvedKey.isNone then .named b.metric else b.keyFields

mutual
/-- The resolved key, where there is one, is the text of what it records. -/
theorem resolvedKey_text : ∀ {b : Binding} {k : String}, b.resolvedKey = some k →
    k = b.keyFields.text
  | .leaf b, k, h => by
      rw [resolvedKey] at h
      rw [keyFields]
      cases hof : b.canonical.of <;> rw [hof] at h <;>
        simp only [Option.some.injEq, reduceCtorEq] at h <;> subst h
      all_goals simp [KeyFields.text, KeyFields.call, toString, String.append_assoc]
  | .composite b n d, k, h => by
      rw [resolvedKey] at h
      rw [keyFields]
      obtain rfl := Option.some.inj h
      split <;> simp [KeyFields.text, KeyFields.call, toString, String.append_assoc]
  | .offset b base dim o, k, h => by
      have hbase := inputKey_text base
      rw [resolvedKey] at h
      obtain rfl := Option.some.inj h
      show _ = KeyFields.text (.offset base.inputKey dim o.text)
      rw [KeyFields.text, ← hbase]
      cases base.resolvedKey <;> simp [KeyFields.call, toString, String.append_assoc]
  | .derived b e ns is, k, h => by
      rw [resolvedKey] at h
      obtain rfl := Option.some.inj h
      simp [keyFields, KeyFields.text, KeyFields.call, toString, String.append_assoc]
  | .conversion b base conv p, k, h => by
      have hbase := inputKey_text base
      have hconv := inputKey_text conv
      rw [resolvedKey] at h
      obtain rfl := Option.some.inj h
      show _ = KeyFields.text (.conversion base.inputKey conv.inputKey _ _)
      rw [KeyFields.text, ← hbase, ← hconv]
      cases base.resolvedKey <;> cases conv.resolvedKey <;> cases p.window <;>
        simp [KeyFields.call, toString, String.append_assoc]

theorem inputKey_text (b : Binding) :
    (match b.resolvedKey with | some k => k | none => b.metric) = b.inputKey.text := by
  cases hk : b.resolvedKey with
  | none => simp [inputKey, hk, KeyFields.text]
  | some k => simp [inputKey, hk, ← resolvedKey_text hk]
end

/-- A metric recomputed from the rows of its source at every grain. -/
def Recomputes : Binding → Prop
  | leaf b => b.canonical.of.kind = .distinctCount ∨ b.canonical.of.kind = .percentile
  | _ => False

/-- What a metric is, under any name: its kind with its parameters, and what it is computed from. -/
inductive Definition where
  | leaf (of : CanonicalKind) (population : Option String)
  | composite (kind : BindingKind) (numerator denominator : Definition)
      (onZero : OnZeroDenominator) (population : Option String)
  | offset (base : Definition) (timeDimension : String) (offset : Duration)
      (population : Option String)
  | derived (expr : String) (names : List String) (inputs : List Definition)
      (onZero : OnZeroDenominator) (population : Option String)
  | conversion (base conversion : Definition) (params : ConversionParams)
      (onZero : OnZeroDenominator) (population : Option String)

mutual
def definition : Binding → Definition
  | leaf b => .leaf b.canonical.of b.canonical.populationFilter
  | composite b n d => .composite b.canonical.of.kind n.definition d.definition
      b.canonical.onZeroDenominator b.canonical.populationFilter
  | offset b base dim o => .offset base.definition dim o b.canonical.populationFilter
  | derived b e names inputs => .derived e names (definitionList inputs)
      b.canonical.onZeroDenominator b.canonical.populationFilter
  | conversion b base conv p => .conversion base.definition conv.definition p
      b.canonical.onZeroDenominator b.canonical.populationFilter

def definitionList : List Binding → List Definition
  | [] => []
  | b :: bs => b.definition :: definitionList bs
end

end Binding

/-! ## The key of a planned metric -/

/-- The text of a duration has digits, letters and spaces. -/
theorem notMem_text {c : Char} (hdigit : c.isDigit = false) (hword : c.isAlpha = false)
    (hspace : c ≠ ' ') (d : Duration) : c ∉ d.text.toList := by
  have hdigits : c ∉ (toString d.count).toList := by
    intro h
    have hmem := Nat.isDigit_of_mem_toDigits (b := 10) (n := d.count) (by decide) (by decide)
      (by simpa using h)
    simp [hdigit] at hmem
  have hunit : c ∉ d.unit.value.toList := by
    intro h
    have hall : d.unit.value.toList.all Char.isAlpha = true := by
      cases d.unit <;> decide
    simp [List.all_eq_true.mp hall c h] at hword
  have hplural : c ∉ (if d.count = 1 then "" else "s" : String).toList := by
    split
    · simp
    · intro h
      rw [List.mem_singleton.mp h] at hword
      exact absurd hword (by decide)
  have hblank : c ∉ " ".toList := by simpa using hspace
  simp only [Duration.text, String.toList_append, List.mem_append, not_or]
  exact ⟨⟨⟨hdigits, hblank⟩, hunit⟩, hplural⟩

theorem frameKey_formed (f : CumulativeBinding) :
    f.frameKey.toList = [] ∨ ∃ t, f.frameKey.toList = ',' :: t := by
  unfold CumulativeBinding.frameKey
  cases f.window with
  | some w => exact .inr ⟨_, by simp; rfl⟩
  | none =>
      cases f.grainToDate with
      | some g => exact .inr ⟨_, by simp; rfl⟩
      | none =>
          by_cases hp : f.periodAgg = .last
          · exact .inl (by simp [hp])
          · exact .inr ⟨_, by simp [hp]; rfl⟩

/-- What is known of the key of a planned metric. -/
structure PlannedKey (b : Binding) (pl : MetricLeaves) : Prop where
  resolved : pl.resolved = b.keyFields.text
  formed : b.keyFields.Formed
  missing : b.resolvedKey = none ↔ b.Recomputes

theorem PlannedKey.of_resolvedKey {b : Binding} {pl : MetricLeaves} {k : String}
    (hk : b.resolvedKey = some k) (hr : pl.resolved = k) (hf : b.keyFields.Formed)
    (hkind : ¬ b.Recomputes) : PlannedKey b pl :=
  ⟨hr.trans (Binding.resolvedKey_text hk), hf, by simp [hk, hkind]⟩

section
variable {ctx : LeafContext} {name : String} {b : MetricBinding} {pl : MetricLeaves}

/-- A metric that reads a source, by its kind. -/
theorem plannedKey_leaf (h : planMetric ctx name (.leaf b) = .ok pl) : PlannedKey (.leaf b) pl := by
  have hsource (hnone : (Binding.leaf b).source = none)
      (h : planSimpleAdditive ctx name (.leaf b) = .ok pl) : False := by
    simp [planSimpleAdditive, bindMetric, hnone] at h
  rw [planMetric] at h
  -- the key is built by the kind, once by the planner and once by the resolver
  cases hof : b.canonical.of with
  | single s m =>
      rw [hof] at h
      simp only [planSimpleAdditive, bind_eq_ok, pure_eq_ok] at h
      obtain ⟨r, hr, leaf, -, rfl⟩ := h
      obtain ⟨-, hs, hm⟩ := bindMetric_eq_ok hr
      simp only [Binding.source, Binding.measure, hof, CanonicalKind.sourceBound,
        Option.map_some, Option.some.injEq] at hs hm
      refine .of_resolvedKey (k := s!"{s}.{m}") (by simp [Binding.resolvedKey, hof])
        (by rw [hs, hm]) (by simp [Binding.keyFields, hof, KeyFields.Formed]) ?_
      simp [Binding.Recomputes, hof, CanonicalKind.kind]
  | semiAdditive s m dim agg =>
      rw [hof] at h
      simp only [planSemiAdditive, bind_eq_ok, pure_eq_ok] at h
      obtain ⟨_, -, _, -, _, -, rfl⟩ := h
      refine .of_resolvedKey (k := s!"{s}.{m}") (by simp [Binding.resolvedKey, hof]) rfl
        (by simp [Binding.keyFields, hof, KeyFields.Formed]) ?_
      simp [Binding.Recomputes, hof, CanonicalKind.kind]
  | distinctCount s c m =>
      rw [hof] at h
      simp only [planRecomputeAtGrain, bind_eq_ok, pure_eq_ok] at h
      obtain ⟨_, -, _, -, _, -, rfl⟩ := h
      refine ⟨?_, by simp [Binding.keyFields, hof, KeyFields.Formed], ?_⟩
      · simp [Binding.keyFields, hof, KeyFields.text, KeyFields.call, toString,
          String.append_assoc]
      · simp [Binding.resolvedKey, Binding.Recomputes, hof, CanonicalKind.kind]
  | percentile s c q m =>
      rw [hof] at h
      simp only [planRecomputeAtGrain, bind_eq_ok, pure_eq_ok] at h
      obtain ⟨_, -, _, -, _, -, rfl⟩ := h
      refine ⟨?_, by simp [Binding.keyFields, hof, KeyFields.Formed], ?_⟩
      · simp [Binding.keyFields, hof, KeyFields.text, KeyFields.call, toString,
          String.append_assoc]
      · simp [Binding.resolvedKey, Binding.Recomputes, hof, CanonicalKind.kind]
  | cumulative s m frame =>
      rw [hof] at h
      have hres : pl.resolved = (Binding.leaf b).resolvedKey.getD "" := by
        simp only at h
        split at h
        · simp only [planRolling, bind_eq_ok, pure_eq_ok] at h
          obtain ⟨_, -, _, -, _, -, _, -, rfl⟩ := h
          rfl
        · simp only [planCumulative, bind_eq_ok, pure_eq_ok] at h
          obtain ⟨_, -, _, -, _, -, _, -, rfl⟩ := h
          rfl
      have hkey : (Binding.leaf b).resolvedKey = some s!"cumulative({s}.{m}{frame.frameKey})" := by
        simp [Binding.resolvedKey, hof]
      refine .of_resolvedKey hkey (by rw [hres, hkey]; rfl) ?_ ?_
      · simpa [Binding.keyFields, hof, KeyFields.Formed] using frameKey_formed frame
      · simp [Binding.Recomputes, hof, CanonicalKind.kind]
  | opaque_ s m grain =>
      rw [hof] at h
      simp only [planOpaque, bind_eq_ok, pure_eq_ok] at h
      obtain ⟨_, -, _, -, rfl⟩ := h
      have hkey : (Binding.leaf b).resolvedKey = some s!"opaque({s}.{m})" := by
        simp [Binding.resolvedKey, hof]
      refine .of_resolvedKey hkey (by simp only [hkey]; rfl)
        (by simp [Binding.keyFields, hof, KeyFields.Formed]) ?_
      simp [Binding.Recomputes, hof, CanonicalKind.kind]
  | ratio | weightedAvg | offset | derived | conversion =>
      rw [hof] at h
      exact (hsource (by simp [Binding.source, hof, CanonicalKind.sourceBound]) h).elim

/-- One side of a conversion is a measure, or a count without a key. -/
theorem inputKey_head_of_sideMetric {metric side : String} {b : Binding} {ss : Sources}
    {bound : SemanticSource × ResolvedMetric} (h : sideMetric metric side b ss = .ok bound) :
    b.inputKey.head = none := by
  unfold sideMetric at h
  split at h
  next s m hof =>
    simp only [Binding.binding] at hof
    simp [Binding.inputKey, Binding.resolvedKey, Binding.keyFields, hof, KeyFields.head]
  next s c m hof =>
    simp only [Binding.binding] at hof
    simp [Binding.inputKey, Binding.resolvedKey, hof, KeyFields.head]
  · simp at h

end

/-- The key of a planned metric of any kind. -/
theorem plannedKey : ∀ {ctx : LeafContext} {name : String} {b : Binding} {pl : MetricLeaves},
    planMetric ctx name b = .ok pl → PlannedKey b pl
  | _, _, .leaf b, _, h => plannedKey_leaf h
  | _, _, .composite b n d, _, h => by
      simp only [planMetric, planComposite, bind_eq_ok, pure_eq_ok] at h
      obtain ⟨_, -, _, -, rfl⟩ := h
      refine .of_resolvedKey (Binding.resolvedKey.eq_1 b n d) ?_ ?_ (by simp [Binding.Recomputes])
      · simp only [Binding.resolvedKey]
        rfl
      · rw [Binding.keyFields]
        split <;> trivial
  | _, _, .offset b base dim o, _, h => by
      simp only [planMetric, bind_eq_ok, pure_eq_ok] at h
      obtain ⟨_, -, planned, hp, rfl⟩ := h
      have hbase := plannedKey hp
      refine .of_resolvedKey (Binding.resolvedKey.eq_2 b base dim o) ?_ ?_
        (by simp [Binding.Recomputes])
      · simp only [presentOffset, Binding.resolvedKey]
        rfl
      · refine ⟨?_, notMem_text (c := ',') rfl rfl (by decide) o⟩
        split
        · trivial
        · exact hbase.formed
  | _, _, .derived b e names inputs, _, h => by
      simp only [planMetric, combineDerived, bind_eq_ok, pure_eq_ok] at h
      obtain ⟨_, -, _, -, rfl⟩ := h
      refine .of_resolvedKey (Binding.resolvedKey.eq_3 b e names inputs) ?_ trivial
        (by simp [Binding.Recomputes])
      simp only [Binding.resolvedKey]
      rfl
  | _, _, .conversion b base conv p, _, h => by
      rw [planMetric, planConversion] at h
      split at h
      · simp at h
      · simp only [bind_eq_ok, pure_eq_ok, planConversionLeaf, planSides, planSide] at h
        obtain ⟨_, ⟨_, ⟨_, ⟨_, hb, -⟩, _, ⟨_, hc, -⟩, -⟩, -⟩, _, -, rfl⟩ := h
        refine .of_resolvedKey (Binding.resolvedKey.eq_4 b base conv p) ?_ ?_
          (by simp [Binding.Recomputes])
        · simp only [Binding.resolvedKey]
          rfl
        · refine ⟨inputKey_head_of_sideMetric hb, inputKey_head_of_sideMetric hc, ?_, ?_⟩
          · cases p.calculation <;> decide
          · cases p.window with
            | none => exact .inl rfl
            | some w => exact .inr ⟨_, by simp; rfl⟩

/-! ## Keys over a project -/

/-- A query that compiles plans the metric under this name. -/
def Serves (p : Project) (name : String) (b : Binding) (pl : MetricLeaves) : Prop :=
  ∃ q principal plan r, planQuery p q principal = .ok plan ∧ emitPlan plan true = .ok r ∧
    ((name, b), pl) ∈ plan.bindings.zip plan.planned

/-- Keys agree and identify: a metric is planned under its resolved key, and metrics with different
definitions are planned under different keys. -/
structure KeysLaw (p : Project) : Prop where
  agree : ∀ name b pl, Serves p name b pl → b.resolvedKey = some pl.resolved
  identify : ∀ name b pl name' b' pl', Serves p name b pl → Serves p name' b' pl' →
    b.definition ≠ b'.definition → pl.resolved ≠ pl'.resolved

/-- No metric is recomputed from rows. -/
def NoRecompute (p : Project) : Prop := ∀ name b pl, Serves p name b pl → ¬ b.Recomputes

/-- Metrics that agree on everything a key records agree on the rest too. -/
def NoTwins (p : Project) : Prop := ∀ name b pl name' b' pl', Serves p name b pl →
  Serves p name' b' pl' → b.keyFields = b'.keyFields → b.definition = b'.definition

/-- The names that keys record do not have the characters that structure a key. -/
def PlainKeys (p : Project) : Prop := ∀ name b pl, Serves p name b pl → b.keyFields.Plain

theorem Serves.plannedKey {p : Project} {name : String} {b : Binding} {pl : MetricLeaves}
    (h : Serves p name b pl) : PlannedKey b pl := by
  obtain ⟨q, principal, plan, r, hplan, -, hmem⟩ := h
  have hall := (planQuery_eq_ok hplan).planned
  have hpl := (List.forall₂_iff_zip.mp hall).2 hmem
  exact Canonic.plannedKey hpl

theorem PlannedKey.agree_iff {b : Binding} {pl : MetricLeaves} (h : PlannedKey b pl) :
    b.resolvedKey = some pl.resolved ↔ ¬ b.Recomputes := by
  rw [← h.missing]
  cases hk : b.resolvedKey with
  | none => simp
  | some k => simp [h.resolved, Binding.resolvedKey_text hk]

/-- **Keys agree and identify definitions** over plain names when no metric is recomputed from rows
and no two metrics differ in what their key leaves out alone; over any names, both are needed. -/
theorem keysLaw_of_noTwins (p : Project) :
    (NoRecompute p ∧ NoTwins p ∧ PlainKeys p → KeysLaw p) ∧
      (KeysLaw p → NoRecompute p ∧ NoTwins p) := by
  constructor
  · rintro ⟨hrec, htwins, hplain⟩
    refine ⟨fun name b pl h => h.plannedKey.agree_iff.mpr (hrec name b pl h), ?_⟩
    intro name b pl name' b' pl' h h' hdef htext
    have hk := h.plannedKey
    have hk' := h'.plannedKey
    rw [hk.resolved, hk'.resolved] at htext
    have hfields : b.keyFields = b'.keyFields :=
      KeyFields.text_inj (hplain name b pl h) (hplain name' b' pl' h') hk.formed hk'.formed htext
    exact hdef (htwins name b pl name' b' pl' h h' hfields)
  · intro hlaw
    refine ⟨fun name b pl h => h.plannedKey.agree_iff.mp (hlaw.agree name b pl h), ?_⟩
    intro name b pl name' b' pl' h h' hfields
    by_contra hdef
    apply hlaw.identify name b pl name' b' pl' h h' hdef
    rw [h.plannedKey.resolved, h'.plannedKey.resolved, hfields]

private def latencies : SemanticSource where
  name := "requests"
  connection := "wh"
  table := "requests"
  columns := [⟨"ms", .decimal, true⟩]
  measures := [{ name := "total_ms", expr := "SUM(ms)" }]

private def latencyTexts : List (String × Expr) :=
  [("SUM(ms)", .node (.agg .sum) [.bare "ms"]), ("ms", .bare "ms"),
   ("PERCENTILE_CONT(0.5) WITHIN GROUP (ORDER BY ms)", .call "WithinGroup"
      [.call "PercentileCont" [.number "0.5"], .call "Order" [.bare "ms"]]),
   ("PERCENTILE_CONT(0.9) WITHIN GROUP (ORDER BY ms)", .call "WithinGroup"
      [.call "PercentileCont" [.number "0.9"], .call "Order" [.bare "ms"]])]

private def latencyProject (bindings : List MetricBinding) : Project where
  lib := Lib.ofTexts latencyTexts
  sources := { list := [latencies] }
  resolver := { bindings := bindings }

/-- The median and the 90th percentile of one column. -/
private def percentiles : List MetricBinding :=
  [{ metric := "p50", canonical := { of := .percentile "requests" "ms" "0.5" none } },
   { metric := "p90", canonical := { of := .percentile "requests" "ms" "0.9" none } }]

/-- Whether a plan serves the two, in this order and under one key. -/
private def servesBoth (plan : Plan) : Bool :=
  match plan.bindings, plan.planned with
  | [(n, .leaf b), (n', .leaf b')], [pl, pl'] => n == "p50" && n' == "p90" &&
      percentiles == [b, b'] && pl.resolved == pl'.resolved
  | _, _ => false

/-- Both are planned under one key, which is the resolved key of neither. -/
theorem keysLaw_percentiles_counterexample :
    (∃ b pl b' pl', Serves (latencyProject percentiles) "p50" b pl ∧
      Serves (latencyProject percentiles) "p90" b' pl' ∧ b.resolvedKey ≠ some pl.resolved ∧
      b.definition ≠ b'.definition ∧ pl.resolved = pl'.resolved) ∧
    ¬ KeysLaw (latencyProject percentiles) := by
  have hserves : ∃ b pl b' pl', Serves (latencyProject percentiles) "p50" b pl ∧
      Serves (latencyProject percentiles) "p90" b' pl' ∧ b.resolvedKey ≠ some pl.resolved ∧
      b.definition ≠ b'.definition ∧ pl.resolved = pl'.resolved := by
    obtain ⟨plan, hplan, hall⟩ := exists_ok_of_any
      (x := planQuery (latencyProject percentiles) { metrics := ["p50", "p90"] } {})
      (P := fun plan => (emitPlan plan true).isOk && servesBoth plan) (by decide +kernel)
    simp only [Bool.and_eq_true, servesBoth] at hall
    obtain ⟨hemit, hall⟩ := hall
    obtain ⟨r, hr⟩ := exists_ok_of_isOk hemit
    split at hall
    next n b n' b' pl pl' hb hp =>
      simp only [Bool.and_eq_true, beq_iff_eq, percentiles, List.cons.injEq, and_true] at hall
      obtain ⟨⟨⟨rfl, rfl⟩, rfl, rfl⟩, hres⟩ := hall
      refine ⟨_, pl, _, pl', ⟨_, _, plan, r, hplan, hr, by rw [hb, hp]; exact .head _⟩,
        ⟨_, _, plan, r, hplan, hr, by rw [hb, hp]; exact .tail _ (.head _)⟩, ?_, ?_, hres⟩
      · simp [Binding.resolvedKey]
      · simp [Binding.definition]
    · simp at hall
  refine ⟨hserves, fun hlaw => ?_⟩
  obtain ⟨b, pl, b', pl', h, h', -, hdef, hres⟩ := hserves
  exact hlaw.identify _ _ _ _ _ _ h h' hdef hres

private def totalTime : MetricBinding :=
  { metric := "total_time", canonical := { of := .single "requests" "total_ms" } }

private theorem serves_totalTime {name : String} {b : Binding} {pl : MetricLeaves}
    (h : Serves (latencyProject [totalTime]) name b pl) : b = .leaf totalTime := by
  obtain ⟨q, principal, plan, r, hplan, -, hmem⟩ := h
  obtain ⟨-, hres⟩ := (planQuery_eq_ok hplan).mem_bindings.mp (List.of_mem_zip hmem).1
  simp only [ContractResolver.resolveMetric, bind_eq_ok] at hres
  obtain ⟨mb, hlookup, hb⟩ := hres
  have hmb : mb ∈ [totalTime] := (lookupName_eq_ok hlookup).1
  rw [List.mem_singleton.mp hmb] at hb
  exact (Except.ok.inj hb).symm

/-- One metric, on a measure. -/
theorem keysLaw_totalTime : KeysLaw (latencyProject [totalTime]) := by
  refine (keysLaw_of_noTwins (latencyProject [totalTime])).1 ⟨?_, ?_, ?_⟩
  · intro name b pl h
    rw [serves_totalTime h]
    simp [Binding.Recomputes, totalTime, CanonicalKind.kind]
  · intro name b pl name' b' pl' h h' _
    rw [serves_totalTime h, serves_totalTime h']
  · intro name b pl h
    rw [serves_totalTime h]
    show KeyFields.PlainName "requests" ∧ KeyFields.PlainName "total_ms"
    constructor <;> decide

end Canonic
