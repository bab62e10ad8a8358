import Canonic.Ingestion.PageRefs
import Canonic.PyText

set_option autoImplicit false

/-! # The text of a knowledge page

`knowledge/loader.py`: a page is written as YAML between two fences and its body, and read back from
its path. YAML and the validation of the fields are parameters. A file is read as Python reads text:
every line end becomes a newline. -/

namespace Canonic

/-! ## Lines -/

/-- The characters that end a line for `str.splitlines`. -/
def isLineBreak (c : Char) : Bool := c.toNat ∈ [10, 11, 12, 13, 28, 29, 30, 133, 8232, 8233]

/-- A character in front of the first line. -/
def consLine (c : Char) : List (List Char) → List (List Char)
  | [] => [[c]]
  | line :: lines => (c :: line) :: lines

/-- `text.splitlines(keepends=True)`. -/
def splitLines : List Char → List (List Char)
  | [] => []
  | '\r' :: '\n' :: cs => ['\r', '\n'] :: splitLines cs
  | c :: cs => if isLineBreak c then [c] :: splitLines cs else consLine c (splitLines cs)

/-- What `path.read_text()` makes of the line ends of a file. -/
def readNewlines : List Char → List Char
  | [] => []
  | '\r' :: '\n' :: cs => '\n' :: readNewlines cs
  | '\r' :: cs => '\n' :: readNewlines cs
  | c :: cs => c :: readNewlines cs

/-! ## Fences -/

/-- A line that is a fence: `line.strip() == "---"`. -/
def isFence (line : List Char) : Bool := stripSpaces line = ['-', '-', '-']

/-- The lines before and after the first fence. -/
def splitAtFence : List (List Char) → Option (List (List Char) × List (List Char))
  | [] => none
  | line :: lines =>
      if isFence line then some ([], lines)
      else (splitAtFence lines).map fun p => (line :: p.1, p.2)

/-- `_split_frontmatter`: the YAML block and the body. -/
def splitFrontmatter (text : List Char) : List Char × List Char :=
  match splitLines text with
  | [] => ([], text)
  | first :: lines =>
      if isFence first then
        match splitAtFence lines with
        | none => ([], text)
        | some (block, body) => (block.flatten, body.flatten)
      else ([], text)

/-! ## Pages -/

def UsageMode.value : UsageMode → String
  | reference => "reference" | caveat => "caveat" | policy => "policy" | definition => "definition"

/-- `KnowledgePageMeta`; a time as its ISO text, the pack of a page as its record. -/
structure PageMeta where
  provenance : Provenance := .inferred
  lastValidatedAt : Option String := none
  boundFingerprints : Dict String := []
  frozen : Bool := false
  packSource : Option Content := none
  sourceFingerprint : Option String := none

/-- The fields of a page that stand in its frontmatter. -/
structure PageFields where
  summary : String := ""
  tags : List String := []
  slRefs : List String := []
  refs : List String := []
  metrics : List String := []
  usageMode : UsageMode := .reference
  pageMeta : PageMeta := {}

/-- `KnowledgePage`, with the id and the scope that the loader derives from its path. -/
structure MarkdownPage where
  path : String
  id : String
  scope : KnowledgeScope
  fields : PageFields
  body : String
  id_eq : id = slugFromPath path
  scope_eq : scopeFromPath path = .ok scope

def textOrNull : Option String → Json
  | none => .null
  | some s => .str s

def textList (xs : List String) : Json := .arr (xs.map .str)

/-- `model_dump` of the metadata in JSON mode. -/
def PageMeta.dump (m : PageMeta) : Content :=
  [("provenance", .str m.provenance.value), ("last_validated_at", textOrNull m.lastValidatedAt),
    ("bound_fingerprints", .obj (m.boundFingerprints.map fun p => (p.1, .str p.2))),
    ("frozen", .bool m.frozen), ("pack_source", (m.packSource.map .obj).getD .null),
    ("source_fingerprint", textOrNull m.sourceFingerprint)]

/-- `page.model_dump(mode="json", exclude={"id", "path", "scope", "body"})`. -/
def PageFields.dump (f : PageFields) : Content :=
  [("summary", .str f.summary), ("tags", textList f.tags), ("sl_refs", textList f.slRefs),
    ("refs", textList f.refs), ("metrics", textList f.metrics),
    ("usage_mode", .str f.usageMode.value), ("meta", .obj f.pageMeta.dump)]

/-! ## Writing and reading -/

/-- What the loader calls. -/
structure PageFormat where
  /-- `yaml.dump` in block style. -/
  yamlDump : Content → String
  /-- `yaml.load`; a failure is the text of the exception. -/
  yamlLoad : String → Except String Json
  /-- `_line_for_path` in the nodes that `yaml.load` gives. -/
  lineForPath : String → List String → Option ℕ
  /-- `KnowledgePage.model_validate`, of the fields of the frontmatter; a failure is the path and
  the text of the first error. -/
  modelValidate : Content → Except (List String × String) PageFields

/-- `_DERIVED_KEYS`. -/
def derivedKeys : List String := ["scope", "id", "path"]

/-- `_raise_located`, with the message of a validation error. -/
def locatedMessage (lib : PageFormat) (path block : String) (loc : List String)
    (message : String) : String :=
  let suffix := " → ".intercalate loc
  let place :=
    match lib.lineForPath block loc with
    | some line => s!"{path}:{line}"
    | none => path
  s!"{place}: " ++ if suffix = "" then message else s!"{suffix}: {message}"

/-- `load_knowledge_page` of a file that can be read. -/
def loadKnowledgePage (lib : PageFormat) (path file : String) : Reads MarkdownPage :=
  let block := String.ofList (splitFrontmatter (readNewlines file.toList)).1
  let body := String.ofList (splitFrontmatter (readNewlines file.toList)).2
  match lib.yamlLoad block with
  | .error message => raise s!"{path}: cannot parse frontmatter YAML: {message}"
  | .ok value =>
      -- an empty block is read as a mapping without keys
      match if value.truthy then value else .obj [] with
      | .obj raw =>
          match derivedKeys.find? fun key => Dict.has raw key with
          | some key => raise (s!"{path}: {pyRepr key} is derived from the path and must not " ++
              "be set in frontmatter")
          | none =>
              match hscope : scopeFromPath path with
              | .error e => .error e
              | .ok scope =>
                  match lib.modelValidate raw with
                  | .error (loc, message) => raise (locatedMessage lib path block loc message)
                  | .ok fields => .ok ⟨path, slugFromPath path, scope, fields, body, rfl, hscope⟩
      | _ => raise s!"{path}: frontmatter must be a mapping"

/-- `dump_knowledge_page`. -/
def dumpKnowledgePage (lib : PageFormat) (page : MarkdownPage) : String :=
  "---\n" ++ lib.yamlDump page.fields.dump ++ "---\n" ++ page.body

/-! ## The lines of a written page -/

theorem splitLines_cons {c : Char} (hc : c ≠ '\r') (cs : List Char) : splitLines (c :: cs) =
    if isLineBreak c then [c] :: splitLines cs else consLine c (splitLines cs) := by
  rw [splitLines]
  exact fun _ h => absurd h hc

theorem flatten_consLine (c : Char) (lines : List (List Char)) :
    (consLine c lines).flatten = c :: lines.flatten := by
  cases lines <;> rfl

theorem flatten_splitLines (cs : List Char) : (splitLines cs).flatten = cs := by
  fun_induction splitLines cs with
  | case1 => rfl
  | case2 cs ih => rw [List.flatten_cons, ih]; rfl
  | case3 c cs _ hbreak ih => rw [List.flatten_cons, ih]; rfl
  | case4 c cs _ hbreak ih => rw [flatten_consLine, ih]

theorem splitLines_ne_nil {cs : List Char} (h : cs ≠ []) : splitLines cs ≠ [] := by
  intro hnil
  apply h
  rw [← flatten_splitLines cs, hnil, List.flatten_nil]

theorem consLine_append {c : Char} {lines : List (List Char)} (h : lines ≠ [])
    (more : List (List Char)) : consLine c (lines ++ more) = consLine c lines ++ more := by
  cases lines with
  | nil => exact absurd rfl h
  | cons line lines => rfl

/-- A newline ends a line, whatever follows it. -/
theorem splitLines_append {xs : List Char} (h : '\r' ∉ xs) (ys : List Char) :
    splitLines (xs ++ '\n' :: ys) = splitLines (xs ++ ['\n']) ++ splitLines ys := by
  induction xs with
  | nil =>
      rw [List.nil_append, List.nil_append, splitLines_cons (by decide),
        splitLines_cons (by decide)]
      rfl
  | cons c xs ih =>
      have hc : c ≠ '\r' := fun heq => h (heq ▸ List.mem_cons_self)
      have hxs : '\r' ∉ xs := fun hmem => h (List.mem_cons_of_mem c hmem)
      rw [List.cons_append, List.cons_append, splitLines_cons hc, splitLines_cons hc, ih hxs]
      split
      · rfl
      · exact consLine_append (splitLines_ne_nil (by simp)) _

theorem readNewlines_append {xs : List Char} (h : '\r' ∉ xs) (ys : List Char) :
    readNewlines (xs ++ ys) = xs ++ readNewlines ys := by
  induction xs with
  | nil => rfl
  | cons c xs ih =>
      have hc : c ≠ '\r' := fun heq => h (heq ▸ List.mem_cons_self)
      have hxs : '\r' ∉ xs := fun hmem => h (List.mem_cons_of_mem c hmem)
      rw [List.cons_append, readNewlines, ih hxs]
      · rfl
      · exact fun _ heq => absurd heq hc
      · exact fun heq => absurd heq hc

theorem readNewlines_eq_self {xs : List Char} (h : '\r' ∉ xs) : readNewlines xs = xs := by
  have happend := readNewlines_append h []
  rwa [List.append_nil, readNewlines, List.append_nil] at happend

theorem return_notMem_readNewlines (cs : List Char) : '\r' ∉ readNewlines cs := by
  fun_induction readNewlines cs with
  | case1 => simp
  | case2 cs ih => simpa using ih
  | case3 cs _ ih => simpa using ih
  | case4 c cs _ hc ih =>
      rw [List.mem_cons, not_or]
      exact ⟨fun heq => hc heq.symm, ih⟩

/-! ## The closing fence -/

section

variable {block body : List (List Char)} {fence : List Char}

/-- Where no line of the block is a fence, the one after it closes it. -/
theorem splitAtFence_eq (hfence : isFence fence = true)
    (h : ∀ line ∈ block, isFence line = false) :
    splitAtFence (block ++ fence :: body) = some (block, body) := by
  induction block with
  | nil => rw [List.nil_append, splitAtFence, if_pos hfence]
  | cons line block ih =>
      have hline := h line List.mem_cons_self
      rw [List.cons_append, splitAtFence, hline, if_neg (by simp),
        ih fun l hl => h l (List.mem_cons_of_mem line hl)]
      rfl

/-- A fence in the block closes it early, and the closing fence stays in the body. -/
theorem splitAtFence_early (h : ∃ line ∈ block, isFence line = true) :
    ∃ front rest, splitAtFence (block ++ fence :: body) = some (front, rest ++ fence :: body) := by
  induction block with
  | nil => simp at h
  | cons line block ih =>
      rw [List.cons_append, splitAtFence]
      by_cases hline : isFence line = true
      · exact ⟨[], block, by rw [if_pos hline]⟩
      · have hrest : ∃ l ∈ block, isFence l = true := by
          obtain ⟨l, hl, hl'⟩ := h
          rcases List.mem_cons.mp hl with rfl | hl
          · exact absurd hl' hline
          · exact ⟨l, hl, hl'⟩
        obtain ⟨front, rest, hsplit⟩ := ih hrest
        exact ⟨line :: front, rest, by rw [if_neg hline, hsplit]; rfl⟩

/-- The lines after the fence are lines of the text. -/
theorem mem_of_splitAtFence {lines : List (List Char)} (h : splitAtFence lines = some (block, body))
    {line : List Char} (hline : line ∈ body) : line ∈ lines := by
  induction lines generalizing block with
  | nil => simp [splitAtFence] at h
  | cons first lines ih =>
      rw [splitAtFence] at h
      split at h
      · obtain ⟨-, rfl⟩ := Prod.mk.inj (Option.some.inj h)
        exact List.mem_cons_of_mem first hline
      · obtain ⟨p, hp, heq⟩ := Option.map_eq_some_iff.mp h
        obtain ⟨-, rfl⟩ := Prod.mk.inj heq
        exact List.mem_cons_of_mem first (ih hp)

end

/-- The fence that the writer puts around the YAML. -/
def fenceLine : List Char := ['-', '-', '-', '\n']

/-- The lines of a file with a YAML text between fences. -/
theorem splitLines_file {yaml body : List Char} (hreturn : '\r' ∉ yaml)
    (hnewline : ∃ front, yaml = front ++ ['\n']) :
    splitLines (fenceLine ++ (yaml ++ (fenceLine ++ body))) =
      fenceLine :: (splitLines yaml ++ fenceLine :: splitLines body) := by
  obtain ⟨front, rfl⟩ := hnewline
  have hfront : '\r' ∉ front := fun h => hreturn (List.mem_append_left _ h)
  have hdashes : '\r' ∉ ['-', '-', '-'] := by decide
  have hopen : ∀ cs, splitLines (fenceLine ++ cs) = fenceLine :: splitLines cs := fun cs =>
    splitLines_append hdashes cs
  rw [hopen, List.append_assoc, List.singleton_append, splitLines_append hfront, hopen]

section

variable {yaml body : List Char} (hreturn : '\r' ∉ yaml)
  (hnewline : ∃ front, yaml = front ++ ['\n'])

include hreturn hnewline

theorem splitFrontmatter_file (h : ∀ line ∈ splitLines yaml, isFence line = false) :
    splitFrontmatter (fenceLine ++ (yaml ++ (fenceLine ++ body))) = (yaml, body) := by
  have hfence : isFence fenceLine = true := by decide
  rw [splitFrontmatter, splitLines_file hreturn hnewline]
  simp only [if_pos hfence, splitAtFence_eq hfence h, flatten_splitLines]

/-- With a fence among the lines of the YAML, the body that is read is longer. -/
theorem length_lt_body (h : ∃ line ∈ splitLines yaml, isFence line = true) : body.length <
    (splitFrontmatter (fenceLine ++ (yaml ++ (fenceLine ++ body)))).2.length := by
  have hfence : isFence fenceLine = true := by decide
  obtain ⟨front, rest, hsplit⟩ := @splitAtFence_early _ (splitLines body) fenceLine h
  rw [splitFrontmatter, splitLines_file hreturn hnewline]
  simp only [if_pos hfence, hsplit, List.flatten_append, List.flatten_cons, flatten_splitLines,
    List.length_append]
  have hlen : fenceLine.length = 4 := rfl
  omega

end

/-- The body is part of the text. -/
theorem mem_of_mem_body {text : List Char} {c : Char} (h : c ∈ (splitFrontmatter text).2) :
    c ∈ text := by
  unfold splitFrontmatter at h
  split at h
  · exact h
  next first lines hlines =>
    split at h
    · split at h
      · exact h
      next block body hsplit =>
        obtain ⟨line, hline, hc⟩ := List.mem_flatten.mp h
        rw [← flatten_splitLines text, hlines]
        exact List.mem_flatten.mpr
          ⟨line, List.mem_cons_of_mem first (mem_of_splitAtFence hsplit hline), hc⟩
    · exact h

theorem return_notMem_file {yaml body : List Char} (hyaml : '\r' ∉ yaml) (hbody : '\r' ∉ body) :
    '\r' ∉ fenceLine ++ (yaml ++ (fenceLine ++ body)) := by
  have hfence : '\r' ∉ fenceLine := by decide
  simp only [List.mem_append, not_or]
  exact ⟨hfence, hyaml, hfence, hbody⟩

/-! ## Round trip -/

/-- The frontmatter has no key that the loader derives. -/
theorem PageFields.dump_derivedKeys (f : PageFields) :
    derivedKeys.find? (fun key => Dict.has f.dump key) = none := by
  simp [derivedKeys, Dict.has, PageFields.dump]

section

variable {lib : PageFormat} {page : MarkdownPage}
  (hload : lib.yamlLoad (lib.yamlDump page.fields.dump) = .ok (.obj page.fields.dump))
  (hvalid : lib.modelValidate page.fields.dump = .ok page.fields)

include hload hvalid in
/-- A page is read back once the file is split where the writer put the fences. -/
theorem loadKnowledgePage_of_split {file : String}
    (h : splitFrontmatter (readNewlines file.toList) =
      ((lib.yamlDump page.fields.dump).toList, page.body.toList)) :
    loadKnowledgePage lib page.path file = .ok page := by
  obtain ⟨path, id, scope, fields, body, rfl, hscope⟩ := page
  have htruthy : (Json.obj fields.dump).truthy = true := rfl
  unfold loadKnowledgePage
  simp only [h, String.ofList_toList, hload, htruthy, if_true, fields.dump_derivedKeys, hvalid]
  split
  next e herror =>
    rw [hscope] at herror
    simp at herror
  next scope' hscope' =>
    obtain rfl := Except.ok.inj (hscope.symm.trans hscope')
    rfl

/-- The body that is read is the body of the text. -/
theorem body_of_loadKnowledgePage {path file : String} {page : MarkdownPage}
    (h : loadKnowledgePage lib path file = .ok page) :
    page.body.toList = (splitFrontmatter (readNewlines file.toList)).2 := by
  unfold loadKnowledgePage at h
  simp only at h
  split at h
  · simp [raise] at h
  next value hvalue =>
    split at h
    next raw hraw =>
      split at h
      · simp [raise] at h
      next =>
        split at h
        · simp at h
        next scope hscope =>
          split at h
          · simp [raise] at h
          next fields hfields =>
            rw [← Except.ok.inj h]
            exact String.toList_ofList
    · simp [raise] at h

/-- The body that is read has no carriage return. -/
theorem return_notMem_of_load {path file : String} {page : MarkdownPage}
    (h : loadKnowledgePage lib path file = .ok page) : '\r' ∉ page.body.toList := by
  rw [body_of_loadKnowledgePage h]
  exact fun hmem => return_notMem_readNewlines _ (mem_of_mem_body hmem)

theorem toList_dumpKnowledgePage (lib : PageFormat) (page : MarkdownPage) :
    (dumpKnowledgePage lib page).toList = fenceLine ++
      ((lib.yamlDump page.fields.dump).toList ++ (fenceLine ++ page.body.toList)) := by
  have hline : "---\n".toList = fenceLine := rfl
  simp only [dumpKnowledgePage, String.toList_append, hline, List.append_assoc]

section

variable (hnewline : ∃ front, (lib.yamlDump page.fields.dump).toList = front ++ ['\n'])
  (hreturn : '\r' ∉ (lib.yamlDump page.fields.dump).toList)

include hnewline hreturn

/-- A fence among the lines of the YAML leaves the closing one in the body that is read. -/
theorem not_isFence_of_load
    (h : loadKnowledgePage lib page.path (dumpKnowledgePage lib page) = .ok page) :
    ∀ line ∈ splitLines (lib.yamlDump page.fields.dump).toList, isFence line = false := by
  intro line hline
  have hbody := body_of_loadKnowledgePage h
  rw [toList_dumpKnowledgePage,
    readNewlines_eq_self (return_notMem_file hreturn (return_notMem_of_load h))] at hbody
  cases hfence : isFence line with
  | false => rfl
  | true =>
      have hlt := @length_lt_body _ page.body.toList hreturn hnewline ⟨line, hline, hfence⟩
      rw [← hbody] at hlt
      exact absurd hlt (lt_irrefl _)

include hload hvalid

/-- A page is read back from the text that is written exactly if its body has no carriage return
and no line of its YAML is a fence. -/
theorem loadKnowledgePage_dump_iff :
    loadKnowledgePage lib page.path (dumpKnowledgePage lib page) = .ok page ↔
      '\r' ∉ page.body.toList ∧
        ∀ line ∈ splitLines (lib.yamlDump page.fields.dump).toList, isFence line = false := by
  constructor
  · intro h
    exact ⟨return_notMem_of_load h, not_isFence_of_load hnewline hreturn h⟩
  · rintro ⟨hno, hlines⟩
    apply loadKnowledgePage_of_split hload hvalid
    rw [toList_dumpKnowledgePage, readNewlines_eq_self (return_notMem_file hreturn hno)]
    exact splitFrontmatter_file hreturn hnewline hlines

end

end

/-! ### Three pages -/

/-- YAML and validation on the frontmatter of a finite table, each with its text. -/
def PageFormat.ofTexts (texts : List (PageFields × String)) : PageFormat where
  yamlDump content := ((texts.find? fun p => p.1.dump = content).map (·.2)).getD ""
  yamlLoad text :=
    match texts.find? fun p => p.2 = text with
    | some p => .ok (.obj p.1.dump)
    | none => .error "while scanning a quoted scalar"
  lineForPath _ _ := none
  modelValidate content :=
    match texts.find? fun p => p.1.dump = content with
    | some p => .ok p.1
    | none => .error ([], "Input should be a valid dictionary")

/-- The first text is read. -/
theorem PageFormat.ofTexts_yamlLoad (fields : PageFields) (text : String)
    (texts : List (PageFields × String)) :
    (PageFormat.ofTexts ((fields, text) :: texts)).yamlLoad text = .ok (.obj fields.dump) := by
  simp [ofTexts]

/-- The text of some lines. -/
def textOfLines (lines : List String) : String :=
  String.ofList (lines.flatMap fun line => line.toList ++ ['\n'])

/-- What `yaml.dump` writes after the summary for the other fields at their defaults. -/
def defaultLines : List String :=
  ["tags: []", "sl_refs: []", "refs: []", "metrics: []", "usage_mode: reference", "meta:",
    "  provenance: inferred", "  last_validated_at:", "  bound_fingerprints: \x7b\x7d",
    "  frozen: false", "  pack_source:", "  source_fingerprint:"]

/-- A word that reaches beyond the width of a line. -/
def longWord : String := String.ofList (List.replicate 78 'w')

/-- A summary that has a fence after the word. -/
def fencedFields : PageFields where
  summary := longWord ++ " ---"

/-- The lines of the frontmatter with that summary: the text is folded at the space behind the word,
and goes on indented. -/
def fencedLines : List String := ["summary: " ++ longWord, "  ---"] ++ defaultLines

/-- The frontmatter of the pages below. -/
def pageFormat : PageFormat :=
  .ofTexts [({}, textOfLines ("summary: ''" :: defaultLines)),
    (fencedFields, textOfLines fencedLines)]

def refundsPage (fields : PageFields) (body : String) : MarkdownPage where
  path := "knowledge/global/refunds.md"
  id := "refunds"
  scope := .shared
  fields := fields
  body := body
  id_eq := by decide
  scope_eq := by decide

/-- A body with lines that look like fences. -/
def prosePage : MarkdownPage := refundsPage {} "---\nAfter 30 days.\n---\n"

/-- A body with a line end of two characters. -/
def returnPage : MarkdownPage := refundsPage {} "a\r\nb"

def fencedPage : MarkdownPage := refundsPage fencedFields ""

theorem yamlDump_prose : pageFormat.yamlDump prosePage.fields.dump =
    textOfLines ("summary: ''" :: defaultLines) := rfl

theorem yamlDump_fenced : pageFormat.yamlDump fencedPage.fields.dump =
    textOfLines fencedLines := rfl

theorem textOfLines_newline {lines : List String} (h : lines ≠ []) :
    ∃ front, (textOfLines lines).toList = front ++ ['\n'] := by
  obtain ⟨front, last, rfl⟩ := List.eq_nil_or_concat lines |>.resolve_left h
  refine ⟨front.flatMap (fun line => line.toList ++ ['\n']) ++ last.toList, ?_⟩
  rw [List.concat_eq_append, textOfLines, String.toList_ofList, List.flatMap_append,
    List.flatMap_singleton, List.append_assoc]

/-- A body may have lines that look like fences. -/
theorem loadKnowledgePage_dump_prose :
    loadKnowledgePage pageFormat prosePage.path (dumpKnowledgePage pageFormat prosePage) =
      .ok prosePage := by
  have hload : pageFormat.yamlLoad (pageFormat.yamlDump prosePage.fields.dump) =
      .ok (.obj prosePage.fields.dump) := by
    have hfields : prosePage.fields = {} := rfl
    rw [yamlDump_prose, hfields, pageFormat]
    exact PageFormat.ofTexts_yamlLoad {} (textOfLines ("summary: ''" :: defaultLines))
      [(fencedFields, textOfLines fencedLines)]
  have hvalid : pageFormat.modelValidate prosePage.fields.dump = .ok prosePage.fields := rfl
  have hnewline : ∃ front,
      (pageFormat.yamlDump prosePage.fields.dump).toList = front ++ ['\n'] := by
    rw [yamlDump_prose]
    exact textOfLines_newline (List.cons_ne_nil _ _)
  have hreturn : '\r' ∉ (pageFormat.yamlDump prosePage.fields.dump).toList := by
    rw [yamlDump_prose, textOfLines, String.toList_ofList]
    decide +kernel
  have hlines : ∀ line ∈ splitLines (pageFormat.yamlDump prosePage.fields.dump).toList,
      isFence line = false := by
    rw [yamlDump_prose, textOfLines, String.toList_ofList]
    decide +kernel
  have hbody : '\r' ∉ prosePage.body.toList := by decide
  exact (loadKnowledgePage_dump_iff hload hvalid hnewline hreturn).mpr ⟨hbody, hlines⟩

/-- A carriage return in the body is lost, and a fence in a text of several lines ends the
frontmatter. -/
theorem loadKnowledgePage_dump_lost :
    loadKnowledgePage pageFormat returnPage.path (dumpKnowledgePage pageFormat returnPage) ≠
      .ok returnPage ∧
    loadKnowledgePage pageFormat fencedPage.path (dumpKnowledgePage pageFormat fencedPage) ≠
      .ok fencedPage := by
  constructor
  · intro h
    exact return_notMem_of_load h (by decide)
  · intro h
    have hnewline : ∃ front,
        (pageFormat.yamlDump fencedPage.fields.dump).toList = front ++ ['\n'] := by
      rw [yamlDump_fenced]
      exact textOfLines_newline (by decide)
    have hreturn : '\r' ∉ (pageFormat.yamlDump fencedPage.fields.dump).toList := by
      rw [yamlDump_fenced, textOfLines, String.toList_ofList]
      decide +kernel
    have hfence : ∃ line ∈ splitLines (pageFormat.yamlDump fencedPage.fields.dump).toList,
        isFence line = true := by
      rw [yamlDump_fenced, textOfLines, String.toList_ofList]
      decide +kernel
    obtain ⟨line, hline, htrue⟩ := hfence
    have hfalse := not_isFence_of_load hnewline hreturn h line hline
    rw [htrue] at hfalse
    exact Bool.noConfusion hfalse

end Canonic
