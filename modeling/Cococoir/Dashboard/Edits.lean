import Cococoir.Dashboard.Walks

/-!
# Edits of the text are edits of the tree

A splice is made in the text.  Here it is the text of a tree: the file's, with another value in
one place or with one more entry.  The one exception is a recursive attribute set, which is not
taken for a literal.

* `spliceSpan_eq`, `spliceEntry_eq`: the edited text is that of the edited tree.
* `setAttrpath_of_found`, `setAttrpath_of_blocked`, `setAttrpath_of_point`: what an edit does.

## Why this is needed

What is to be known about an edit is about trees: where a value is found afterwards, which
definitions a file has.  What the code does is about characters.  Between the two stand the
offsets: a value that was found at one stands there in the source, with the characters of the tree
around it (`found_splits`, from `StandsAt`).  Then the text before, the new text and the text
after are, put together, the text of a term that one can write down.  `Root.withEntries` is that
term: the file with other entries in its attribute set.

What is not said here is that the edited text is read as this term.  That is the parser's part,
and the modules on reading state what is taken from it.

## The entry that is added

Its key is the rest of the path with dots between, its text starts on a new line, and it goes
behind the last entry or the opening brace.  `newEntry` is the entry, with the break and the
indentation before it.
-/

namespace Cococoir
namespace Dashboard

open Concurrency (Outcome)

/-! ## The attribute set of a file -/

/-- The expression with other entries in its attribute set. -/
def Expr.withEntries : Expr → Entries → Expr
  | .attrSet recToken _, es => .attrSet recToken es
  | .lambda head body, es => .lambda head (body.withEntries es)
  | .letIn head body, es => .letIn head (body.withEntries es)
  | .paren before inner after, es => .paren before (inner.withEntries es) after
  | .leaf value, _ => .leaf value

/-- The file with other entries in its attribute set. -/
def Root.withEntries (root : Root) (es : Entries) : Root :=
  { root with expr := root.expr.withEntries es }

theorem rootExprToAttrset_withEntries {e : Expr} {start : ℕ} {set : AttrSet}
    (h : rootExprToAttrset e start = some set) :
    e.withEntries set.entries = e ∧
      (∀ es, rootExprToAttrset (e.withEntries es) start = some ⟨set.start, set.recToken, es⟩) ∧
      ∃ before after, set.start = start + before.length ∧
        ∀ es, (e.withEntries es).text = before ++ ((Node.attrSet set.recToken es).text ++ after) := by
  induction e generalizing start with
  | attrSet recToken entries =>
    cases h
    exact ⟨rfl, fun _ => rfl, [], [], rfl, by simp [Expr.withEntries, Expr.text]⟩
  | lambda head body ih =>
    obtain ⟨hself, hset, before, after, hstart, htext⟩ := ih h
    refine ⟨congrArg (Expr.lambda head) hself, hset, head ++ before, after, ?_, fun es => ?_⟩
    · rw [hstart, List.length_append, Nat.add_assoc]
    · rw [Expr.withEntries, Expr.text, htext, List.append_assoc]
  | letIn head body ih =>
    obtain ⟨hself, hset, before, after, hstart, htext⟩ := ih h
    refine ⟨congrArg (Expr.letIn head) hself, hset, head ++ before, after, ?_, fun es => ?_⟩
    · rw [hstart, List.length_append, Nat.add_assoc]
    · rw [Expr.withEntries, Expr.text, htext, List.append_assoc]
  | paren opening inner closing ih =>
    obtain ⟨hself, hset, before, after, hstart, htext⟩ := ih h
    refine ⟨congrArg (Expr.paren opening · closing) hself, hset, '(' :: (opening ++ before),
      after ++ (closing ++ [')']), ?_, fun es => ?_⟩
    · rw [hstart, List.length_cons, List.length_append]
      omega
    · simp [Expr.withEntries, Expr.text, htext]
  | leaf value => cases h

section Attrset

variable {root : Root} {set : AttrSet}

theorem Root.withEntries_self (h : root.attrset = some set) : root.withEntries set.entries = root := by
  rw [withEntries, (rootExprToAttrset_withEntries h).1]

theorem Root.attrset_withEntries (h : root.attrset = some set) (es : Entries) :
    (root.withEntries es).attrset = some ⟨set.start, set.recToken, es⟩ :=
  (rootExprToAttrset_withEntries h).2.1 es

/-- The text around the entries of a file. -/
theorem Root.text_withEntries (h : root.attrset = some set) :
    ∃ before after, set.inside = before.length ∧
      ∀ es, (root.withEntries es).text = before ++ (es.text ++ after) := by
  obtain ⟨-, -, before, after, hstart, htext⟩ := rootExprToAttrset_withEntries h
  refine ⟨root.before ++ (before ++ openText set.recToken), '}' :: (after ++ root.after), ?_,
    fun es => ?_⟩
  · rw [AttrSet.inside, hstart, List.length_append, List.length_append]
    omega
  · simp [Root.text, withEntries, htext, Node.text]

/-- The attribute set stands in the text of its file. -/
theorem Root.standsAt (h : root.attrset = some set) :
    StandsAt root.text set.start set.text ∧ StandsAt root.text set.inside set.entries.text := by
  obtain ⟨hself, -, before, after, hstart, htext⟩ := rootExprToAttrset_withEntries h
  have hset : StandsAt root.text set.start set.text := by
    refine ⟨root.before ++ before, after ++ root.after, ?_, ?_⟩
    · rw [Root.text, ← hself, htext]
      simp [AttrSet.text]
    · rw [hstart, List.length_append]
  exact ⟨hset, hset.right.left⟩

end Attrset

/-! ## Splices -/

section Splices

variable {rnix : Rnix} {source : Text} {root : Root} {path : List Text}

/-- A found value stands in the source, and the text around it stays when it is replaced. -/
theorem found_splits (hparse : rnix.parse source = .ok root) {loc : Located}
    (h : findValueNode root path = some loc) :
    ∃ set keys fill before after, root.attrset = some set ∧
      Leads set.entries set.inside path keys fill loc ∧ loc.start = before.length ∧
      source = before ++ (loc.node.text ++ after) ∧
      ∀ v : Node, (root.withEntries (fill v)).text = before ++ (v.text ++ after) := by
  obtain ⟨set, hset, hfind⟩ := Option.bind_eq_some_iff.mp h
  obtain ⟨keys, fill, hleads⟩ := leads_of_findInAttrset hfind
  obtain ⟨before, after, hinside, hroot⟩ := Root.text_withEntries hset
  obtain ⟨before', after', hstart, hfill⟩ := hleads.around
  have htext : ∀ v : Node, (root.withEntries (fill v)).text =
      (before ++ before') ++ (v.text ++ (after' ++ after)) := by
    intro v
    rw [hroot, hfill]
    simp
  refine ⟨set, keys, fill, before ++ before', after' ++ after, hset, hleads, ?_, ?_, htext⟩
  · rw [hstart, hinside, List.length_append]
  · rw [← htext, hleads.fill_node, Root.withEntries_self hset, rnix.lossless hparse]

/-- **Replacing a value** in the text is replacing it in the tree. -/
theorem spliceSpan_eq (hparse : rnix.parse source = .ok root) {loc : Located}
    (h : findValueNode root path = some loc) :
    ∃ set keys fill, root.attrset = some set ∧
      Leads set.entries set.inside path keys fill loc ∧
      ∀ v : Node, spliceSpan source loc v.text = (root.withEntries (fill v)).text := by
  obtain ⟨set, keys, fill, before, after, hset, hleads, hstart, hsource, htext⟩ :=
    found_splits hparse h
  refine ⟨set, keys, fill, hset, hleads, fun v => ?_⟩
  rw [spliceSpan, hstart, hsource, List.take_left, ← List.drop_drop, List.drop_left,
    List.drop_left, htext]

/-- The attributes of a new key. -/
def dotted : List Text → Attrpath
  | [] => []
  | s :: segments => ([], .ident s) :: segments.map fun s => (['.'], .ident s)

theorem intercalate_dot (s : Text) (segments : List Text) :
    List.intercalate ['.'] (s :: segments) = s ++ segments.flatMap fun t => '.' :: t := by
  induction segments generalizing s with
  | nil => simp [List.intercalate]
  | cons t segments ih =>
    rw [List.flatMap_cons, List.cons_append, ← ih]
    simp [List.intercalate]

theorem text_dotted (segments : List Text) :
    (dotted segments).text = List.intercalate ['.'] segments := by
  cases segments with
  | nil => rfl
  | cons s segments =>
    rw [intercalate_dot, dotted, Attrpath.text, List.flatMap_cons, List.flatMap_map]
    rfl

theorem names_newKey (indent : Text) (segments : List Text) (before after : Text) :
    (Binder.mk indent (dotted segments) before after).names = segments := by
  cases segments with
  | nil => rfl
  | cons s segments =>
    show s :: (segments.map fun s => (['.'], Attr.ident s)).filterMap (fun p => attrName p.2) =
      s :: segments
    rw [List.filterMap_map]
    exact congrArg (List.cons s) List.filterMap_some

/-- A new entry, before what ends its attribute set. -/
def newEntry (indent : Text) (segments : List Text) (value : Node) (final : Text) : Entries :=
  .attrpathValue ⟨'\n' :: indent, dotted segments, [' '], [' ']⟩ value [] (.nil final)

theorem text_newEntry (indent : Text) (segments : List Text) (value : Node) (final : Text) :
    (newEntry indent segments value final).text =
      entryText indent segments value.text ++ final := by
  simp [newEntry, entryText, Binder.text, text_dotted, Entries.text]

theorem entryIndent_spaces (source : Text) (start insertAt : ℕ) :
    ∀ c ∈ entryIndent source start insertAt, c = ' ' := by
  intro c hc
  unfold entryIndent at hc
  dsimp only at hc
  split at hc
  · split_ifs at hc
    · exact List.eq_of_mem_replicate hc
    · simpa using hc
  · simpa using hc

/-- **Adding an entry** in the text is adding it in the tree, unless the attribute set is
recursive: then its text does not start with a brace. -/
theorem spliceEntry_eq (hparse : rnix.parse source = .ok root) (hpath : path ≠ [])
    {point : InsertPoint} (h : insertPoint root path = some point) :
    ∃ set fill final, root.attrset = some set ∧
      Descends set.entries set set.inside path fill final point ∧
      (∀ trivia, point.attrset.recToken = some trivia → ∀ replacement,
        spliceEntry source point replacement = .panic "insert target must be an attrset literal") ∧
      (point.attrset.recToken = none → ∃ indent, (∀ c ∈ indent, c = ' ') ∧
        ∀ value : Node, spliceEntry source point value.text =
          .ok (root.withEntries (fill (newEntry indent point.remaining value final))).text) := by
  obtain ⟨set, hset, hdescend⟩ := Option.bind_eq_some_iff.mp h
  obtain ⟨fill, final, hdescends⟩ := descends_of_descend hdescend
  have hslice : (source.drop point.attrset.start).take point.attrset.text.length =
      point.attrset.text := by
    obtain ⟨hstands, hentries⟩ := Root.standsAt hset
    rw [rnix.lossless hparse] at hstands hentries
    exact (hdescends.standsAt hstands hentries).slice
  refine ⟨set, fill, final, hset, hdescends, fun trivia hrec replacement => ?_, fun hrec => ?_⟩
  · rw [spliceEntry, if_neg (hdescends.remaining_ne hpath)]
    dsimp only
    rw [hslice, if_neg]
    rintro ⟨hhead, -⟩
    rw [AttrSet.text, Node.text, hrec] at hhead
    cases hhead
  · refine ⟨entryIndent source point.attrset.start point.attrset.insertAt,
      entryIndent_spaces _ _ _, fun value => ?_⟩
    obtain ⟨before, after, hinside, hroot⟩ := Root.text_withEntries hset
    obtain ⟨before', after', hend, hfill⟩ := hdescends.around rfl
    have hinsert : point.attrset.insertAt = (before ++ before').length := by
      have hopen : point.attrset.start + 1 = point.attrset.inside := by
        rw [AttrSet.inside, hrec]
        rfl
      rw [AttrSet.insertAt, hopen, List.length_append, ← hinside, ← hend, Entries.lastEnd]
    have hsource : source = (before ++ before') ++ (final ++ (after' ++ after)) := by
      rw [← rnix.lossless hparse, ← Root.withEntries_self hset, hroot, ← hdescends.fill_nil, hfill,
        Entries.text]
      simp
    have htake : source.take point.attrset.insertAt = before ++ before' := by
      rw [hinsert, hsource, List.take_left]
    have hdrop : source.drop point.attrset.insertAt = final ++ (after' ++ after) := by
      rw [hinsert, hsource, List.drop_left]
    rw [spliceEntry, if_neg (hdescends.remaining_ne hpath)]
    dsimp only
    rw [hslice, if_pos, htake, hdrop, hroot, hfill, text_newEntry]
    · simp
    · rw [AttrSet.text, Node.text, hrec]
      refine ⟨rfl, ?_⟩
      rw [← List.append_assoc]
      exact List.getLast?_concat

end Splices

/-! ## What an edit does -/

section SetAttrpath

variable {rnix : Rnix} {file : NixConfigFile rnix} {root : Root} {path : List Text}
  {replacement : Text}

theorem setAttrpath_of_found (hparse : rnix.parse file.source = .ok root) (hpath : path ≠ [])
    {loc : Located} (h : findValueNode root path = some loc) :
    file.setAttrpath path replacement =
      accept (spliceSpan file.source loc replacement) replacement path := by
  rw [NixConfigFile.setAttrpath, if_neg hpath, hparse]
  dsimp only
  rw [h]

theorem setAttrpath_of_blocked (hparse : rnix.parse file.source = .ok root) (hpath : path ≠ [])
    (hfind : findValueNode root path = none) (h : insertPoint root path = none) :
    file.setAttrpath path replacement = .err (.notFound (List.intercalate ['.'] path)) := by
  rw [NixConfigFile.setAttrpath, if_neg hpath, hparse]
  dsimp only
  rw [hfind]
  dsimp only
  rw [h]

theorem setAttrpath_of_point (hparse : rnix.parse file.source = .ok root) (hpath : path ≠ [])
    (hfind : findValueNode root path = none) {point : InsertPoint}
    (h : insertPoint root path = some point) :
    file.setAttrpath path replacement =
      match spliceEntry file.source point replacement with
      | .ok candidate => accept candidate replacement path
      | .err error => .err error
      | .panic message => .panic message := by
  rw [NixConfigFile.setAttrpath, if_neg hpath, hparse]
  dsimp only
  rw [hfind]
  cases hsplice : spliceEntry file.source point replacement <;> simp only [h, hsplice]

theorem NixConfigFile.eq_of_source {file file' : NixConfigFile rnix} (h : file.source = file'.source) :
    file = file' := by
  obtain ⟨source, hparses⟩ := file
  obtain ⟨source', hparses'⟩ := file'
  obtain rfl : source = source' := h
  rfl

/-- A text is read as the file that has it, if it parses. -/
theorem NixConfigFile.parse_eq_ok {source : Text} :
    NixConfigFile.parse source = .ok file ↔ file.source = source := by
  unfold parse
  constructor
  · intro h
    split at h
    · cases h
      rfl
    · cases h
  · rintro rfl
    obtain ⟨root, hparse⟩ := file.parses
    split
    · rfl
    · rename_i message herror
      rw [hparse] at herror
      cases herror

/-- An edited text that is accepted is the new file's. -/
theorem accept_eq_ok {candidate : Text} :
    accept candidate replacement path = .ok file ↔ file.source = candidate := by
  rw [← NixConfigFile.parse_eq_ok]
  unfold accept
  split
  · rename_i file' hparse
    rw [hparse]
    constructor
    · rintro ⟨⟩
      rfl
    · rintro ⟨⟩
      rfl
  · rename_i message hparse
    rw [hparse]
    constructor
    · rintro ⟨⟩
    · rintro ⟨⟩

theorem accept_ne_panic {candidate : Text} {message : String} :
    (accept candidate replacement path : Outcome SetError (NixConfigFile rnix)) ≠ .panic message := by
  unfold accept
  split <;> exact nofun

end SetAttrpath

end Dashboard
end Cococoir
