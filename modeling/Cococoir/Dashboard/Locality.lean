import Cococoir.Dashboard.Tables

/-!
# What an edit leaves alone

An edit changes the characters of one value or adds one entry, and a lookup of a path that neither
extends the edited one nor is extended by it should find what it found before.  It does, when the
text that is spliced in means what it says: `${` is not escaped in a quoted string, and the parts
of a new key are written as they are, dots and all.

* `setAttrpath_cases`: an accepted edit replaces a value or adds an entry.
* `splitKey`: a new part `a.b` is found as `a` and `b`.
* `edit_local`: an edit with a literal that interpolates nothing, and a new key of identifiers, is
  local.

## The argument

In the text locality is what an edit is: some characters give way to others and everything around
them stays.  In the tree it has to be proved.  A lookup of another path walks through the same
entries as before until it comes to the edited one.  If it passes that entry it goes on as it did.
If it enters it, the two paths agree as far as the key goes, and the question is the same for
what is left of them below.  As neither extends the other, it never arrives at the edited value
itself.  That is an induction on the way of the edit, one constructor at a time.

It needs that the entry's key is what the path says.  A new key is written with dots between its
parts, and read back part by part only if the parts are identifiers; and a value has to be read as
one value.
-/

namespace Cococoir
namespace Dashboard

open Concurrency (Outcome)

/-! ## Lookups without offsets -/

/-- The value of a path among entries. -/
def nodeAt : Entries → List Text → Option Node
  | .nil _, _ => none
  | .inherit _ _ _ rest, path => nodeAt rest path
  | .leaf key value _ rest, path =>
    if Passed key path then nodeAt rest path
    else if key.names = path then some (.leaf value)
    else nodeAt rest path
  | .set key recToken inner _ rest, path =>
    if Passed key path then nodeAt rest path
    else if key.names = path then some (.attrSet recToken inner)
    else (nodeAt inner (path.drop key.names.length)).or (nodeAt rest path)

theorem findInAttrset_node (es : Entries) (start : ℕ) (path : List Text) :
    (findInAttrset es start path).map Located.node = nodeAt es path := by
  induction es generalizing start path with
  | nil trivia => rfl
  | inherit trivia names text rest ih => exact ih _ path
  | leaf key value beforeSemi rest ih =>
    simp only [findInAttrset, ite_passed, nodeAt]
    split_ifs
    · exact ih _ path
    · rfl
    · exact ih _ path
  | set key recToken inner beforeSemi rest ihinner ih =>
    simp only [findInAttrset, ite_passed, nodeAt]
    split_ifs
    · exact ih _ path
    · rfl
    · rw [← ihinner (AttrSet.inside ⟨start + key.text.length, recToken, inner⟩)]
      cases findInAttrset inner (AttrSet.inside ⟨start + key.text.length, recToken, inner⟩)
        (path.drop key.names.length) with
      | none => exact ih _ path
      | some found => rfl

theorem findValueNode_node {root : Root} {set : AttrSet} (h : root.attrset = some set)
    (path : List Text) : (findValueNode root path).map Located.node = nodeAt set.entries path := by
  rw [findValueNode, h, Option.bind_some, findInAttrset_node]

/-- A lookup goes past an entry whose key is not a start of the path. -/
theorem nodeAt_passed {key : Binder} {path : List Text} (h : Passed key path) (value : Node)
    (beforeSemi : Text) (rest : Entries) :
    nodeAt (.attrpathValue key value beforeSemi rest) path = nodeAt rest path := by
  cases value <;> exact if_pos h

/-! ## Lookups past an edit -/

/-- Neither path extends the other. -/
def Incomparable (path other : List Text) : Prop := ¬path <+: other ∧ ¬other <+: path

theorem Incomparable.passed {key : Binder} {other : List Text} (h : Incomparable key.names other) :
    Passed key other := Or.inr (Or.inr h.1)

theorem Incomparable.deeper {names path other : List Text}
    (h : Incomparable (names ++ path) (names ++ other)) : Incomparable path other := by
  rw [Incomparable, List.prefix_append_right_inj, List.prefix_append_right_inj] at h
  exact h

section Frames

variable {es : Entries} {start : ℕ} {path other : List Text}

/-- A replaced value changes no lookup of an incomparable path. -/
theorem Leads.nodeAt_fill {keys : List Binder} {fill : Node → Entries} {loc : Located}
    (h : Leads es start path keys fill loc) (hother : Incomparable path other) (v : Node) :
    nodeAt (fill v) other = nodeAt es other := by
  induction h generalizing other with
  | hereLeaf =>
    rw [nodeAt_passed hother.passed]
    exact (if_pos hother.passed).symm
  | hereSet =>
    rw [nodeAt_passed hother.passed]
    exact (if_pos hother.passed).symm
  | @inside key recToken inner rest beforeSemi start path keys fill loc _ ih =>
    simp only [nodeAt]
    split_ifs with hpassed hnames
    · rfl
    · exact absurd (hnames ▸ List.prefix_append ..) hother.2
    · obtain ⟨deeper, -, rfl⟩ := exists_rest hpassed hnames
      rw [List.drop_left, ih hother.deeper]
  | afterInherit _ ih => exact ih hother
  | afterLeaf _ ih => simp only [nodeAt, ih hother]
  | afterSet _ ih => simp only [nodeAt, ih hother]

/-- A new entry changes no lookup of an incomparable path. -/
theorem Descends.nodeAt_insert {set : AttrSet} {fill : Entries → Entries} {final : Text}
    {point : InsertPoint} (h : Descends es set start path fill final point)
    (hother : Incomparable path other) (indent : Text) (value : Node) :
    nodeAt (fill (newEntry indent point.remaining value final)) other = nodeAt es other := by
  induction h generalizing other with
  | done =>
    refine nodeAt_passed ?_ ..
    refine Or.inr (Or.inr ?_)
    rw [names_newKey]
    exact hother.1
  | afterInherit _ ih => exact ih hother
  | afterLeaf _ _ ih => simp only [nodeAt, ih hother]
  | afterSet _ _ ih => simp only [nodeAt, ih hother]
  | @enter key recToken inner rest beforeSemi final set start path fill point hnames hpath _ ih =>
    simp only [nodeAt]
    split_ifs with hpassed hsame
    · rfl
    · exact absurd (hsame ▸ List.prefix_append ..) hother.2
    · obtain ⟨deeper, -, rfl⟩ := exists_rest hpassed hsame
      rw [List.drop_left, ih hother.deeper]

end Frames

/-! ## Values that interpolate -/

/-- The text, once quoted, starts an interpolation somewhere: a dollar sign and a brace, unless
another dollar sign comes before them and is not itself taken. -/
def interpolates : Text → Bool
  | '$' :: '{' :: _ => true
  | '$' :: '$' :: s => interpolates s
  | _ :: s => interpolates s
  | [] => false

/-- No text of the value starts an interpolation. -/
def NixValue.Plain : NixValue → Prop
  | .bool _ => True
  | .str s => ¬interpolates s
  | .strList items => ∀ s ∈ items, ¬interpolates s
  | .other _ => False

/-- A boolean, a quoted string or a list of these, without interpolations, is an expression. -/
def Rnix.ReadsLiteral (rnix : Rnix) (v : NixValue) : Prop :=
  v.Plain → ∃ value, rnix.IsExpr v.toSource value

theorem NixValue.Plain.ne_other {v : NixValue} (h : v.Plain) (raw : Text) : v ≠ .other raw := by
  rintro rfl
  exact h

/-- A literal ends before whatever stands after it. -/
theorem separated_toSource {v : NixValue} (hv : ∀ raw, v ≠ .other raw) (after : Text) :
    Separated v.toSource after := by
  refine .inr ?_
  rcases v with b | s | items | raw
  · refine .inl ?_
    cases b <;> decide
  · refine .inr ⟨'"', ?_, by decide⟩
    rw [NixValue.toSource, quoteNixString, ← List.cons_append]
    exact List.getLast?_concat
  · refine .inr ⟨']', ?_, by decide⟩
    have hend : " ]".toList = [' '] ++ [']'] := rfl
    rw [NixValue.toSource, hend, ← List.append_assoc, ← List.append_assoc]
    exact List.getLast?_concat
  · exact absurd rfl (hv raw)

/-! ## Edits -/

/-- A file with the characters of a found value replaced, or with one entry more. -/
def Spliced (source source' : Text) (path : List Text) (found : Option LocatedValue)
    (replacement : Text) : Prop :=
  match found with
  | some v => source' = source.take v.start ++
      (replacement ++ source.drop (v.start + v.raw.length))
  | none => ∃ before after indent remaining, remaining <:+ path ∧ (∀ c ∈ indent, c = ' ') ∧
      source = before ++ after ∧
      source' = before ++ (entryText indent remaining replacement ++ after)

section Local

variable {rnix : Rnix} {file file' : NixConfigFile rnix} {root root' : Root} {set : AttrSet}
  {path : List Text} {replacement : Text}

theorem findAttrpath_value (hparse : rnix.parse file.source = .ok root)
    (hset : root.attrset = some set) (hpath : path ≠ []) :
    (file.findAttrpath path).map LocatedValue.value = (nodeAt set.entries path).map interpret := by
  rw [findAttrpath_eq hparse hpath, ← findValueNode_node hset, Option.map_map, Option.map_map]
  rfl

theorem Descends.remaining_suffix {es : Entries} {start : ℕ} {fill : Entries → Entries}
    {final : Text} {point : InsertPoint} (h : Descends es set start path fill final point) :
    point.remaining <:+ path := by
  induction h with
  | done => exact List.suffix_rfl
  | afterInherit _ ih => exact ih
  | afterLeaf _ _ ih => exact ih
  | afterSet _ _ ih => exact ih
  | enter _ _ _ ih => exact ih.trans (List.suffix_append ..)

/-- A splice of an entry adds the entry. -/
theorem spliceEntry_splits {source candidate : Text} {point : InsertPoint}
    (h : spliceEntry source point replacement = .ok candidate) :
    ∃ before after indent, (∀ c ∈ indent, c = ' ') ∧ source = before ++ after ∧
      candidate = before ++ (entryText indent point.remaining replacement ++ after) := by
  unfold spliceEntry at h
  dsimp only at h
  split_ifs at h
  cases h
  exact ⟨_, _, _, entryIndent_spaces _ _ _, (List.take_append_drop ..).symm, rfl⟩

/-- **An edit is local in the text**: what is not replaced and not added stays. -/
theorem setAttrpath_spliced (hpath : path ≠ []) (h : file.setAttrpath path replacement = .ok file') :
    Spliced file.source file'.source path (file.findAttrpath path) replacement := by
  obtain ⟨root, hparse⟩ := file.parses
  cases hfind : findValueNode root path with
  | some loc =>
    have hfound := findAttrpath_eq hparse hpath
    rw [hfind, Option.map_some] at hfound
    rw [hfound]
    exact accept_eq_ok.mp ((editsAt_of_findAttrpath hparse hfound replacement).symm.trans h)
  | none =>
    rw [findAttrpath_eq hparse hpath, hfind, Option.map_none]
    cases hpoint : insertPoint root path with
    | none =>
      rw [setAttrpath_of_blocked hparse hpath hfind hpoint] at h
      cases h
    | some point =>
      obtain ⟨_, _, _, -, hdescends, -⟩ := spliceEntry_eq hparse hpath hpoint
      rw [setAttrpath_of_point hparse hpath hfind hpoint] at h
      cases hsplice : spliceEntry file.source point replacement with
      | ok candidate =>
        rw [hsplice] at h
        obtain ⟨before, after, indent, hindent, hsource, rfl⟩ := spliceEntry_splits hsplice
        exact ⟨before, after, indent, point.remaining, hdescends.remaining_suffix, hindent, hsource,
          accept_eq_ok.mp h⟩
      | err error =>
        rw [hsplice] at h
        cases h
      | panic message =>
        rw [hsplice] at h
        cases h

/-- The parts of the key that an edit of the path adds, if it adds one. -/
def NewSegments (file : NixConfigFile rnix) (path : List Text) (segments : List Text) : Prop :=
  ∃ root point, rnix.parse file.source = .ok root ∧ findValueNode root path = none ∧
    insertPoint root path = some point ∧ segments = point.remaining

/-- **What an accepted edit leaves to be read**: the value that it found is replaced, or an entry is
added. -/
theorem setAttrpath_cases (hvalues : rnix.ReadsValues) (hentries : rnix.ReadsEntries)
    (hpath : path ≠ []) {value : Node} (hexpr : rnix.IsExpr replacement value)
    (hseparates : file.Separates path replacement)
    (hsegments : ∀ segments, NewSegments file path segments → ∀ s ∈ segments, IsIdentifier s)
    (h : file.setAttrpath path replacement = .ok file') :
    ∃ root set, rnix.parse file.source = .ok root ∧ root.attrset = some set ∧
      ((∃ keys fill loc, Leads set.entries set.inside path keys fill loc ∧
          rnix.parse file'.source = .ok (root.withEntries (fill value))) ∨
        ∃ point fill final indent, Descends set.entries set set.inside path fill final point ∧
          rnix.parse file'.source =
            .ok (root.withEntries (fill (newEntry indent point.remaining value final)))) := by
  obtain ⟨root, hparse⟩ := file.parses
  cases hfind : findValueNode root path with
  | some loc =>
    obtain ⟨set, keys, fill, hset, hleads, hparse'⟩ :=
      setAttrpath_replaces hvalues hparse hpath hfind hexpr hseparates h
    exact ⟨root, set, hparse, hset, .inl ⟨keys, fill, loc, hleads, hparse'⟩⟩
  | none =>
    cases hpoint : insertPoint root path with
    | none =>
      rw [setAttrpath_of_blocked hparse hpath hfind hpoint] at h
      cases h
    | some point =>
      have hidents := hsegments _ ⟨root, point, hparse, hfind, hpoint, rfl⟩
      obtain ⟨set, fill, final, indent, hset, hdescends, hparse'⟩ :=
        setAttrpath_inserts hentries hparse hpath hfind hpoint hexpr hidents h
      exact ⟨root, set, hparse, hset, .inr ⟨point, fill, final, indent, hdescends, hparse'⟩⟩

/-- Every lookup but one along the path finds the value that it found. -/
def LookupsKept (file file' : NixConfigFile rnix) (path : List Text) : Prop :=
  ∀ other, Incomparable path other →
    (file'.findAttrpath other).map LocatedValue.value = (file.findAttrpath other).map LocatedValue.value

/-- **An edit is local in the tree** when the value is an expression that ends before what stands
after it, and the new key, if there is one, is made of identifiers. -/
theorem lookupsKept_of_setAttrpath (hvalues : rnix.ReadsValues) (hentries : rnix.ReadsEntries)
    (hpath : path ≠ []) {value : Node} (hexpr : rnix.IsExpr replacement value)
    (hseparates : file.Separates path replacement)
    (hsegments : ∀ segments, NewSegments file path segments → ∀ s ∈ segments, IsIdentifier s)
    (h : file.setAttrpath path replacement = .ok file') : LookupsKept file file' path := by
  intro other hother
  have hne : other ≠ [] := by
    rintro rfl
    exact hother.2 List.nil_prefix
  obtain ⟨root, set, hparse, hset, hcases⟩ :=
    setAttrpath_cases hvalues hentries hpath hexpr hseparates hsegments h
  rw [findAttrpath_value hparse hset hne]
  rcases hcases with ⟨keys, fill, loc, hleads, hparse'⟩ | ⟨point, fill, final, indent, hdescends, hparse'⟩
  · rw [findAttrpath_value hparse' (Root.attrset_withEntries hset _) hne, hleads.nodeAt_fill hother]
  · rw [findAttrpath_value hparse' (Root.attrset_withEntries hset _) hne,
      hdescends.nodeAt_insert hother]

/-- An edit of a value that is found adds no key. -/
theorem no_newSegments {loc : Located} (hparse : rnix.parse file.source = .ok root)
    (hfind : findValueNode root path = some loc) (segments : List Text) :
    ¬NewSegments file path segments := by
  rintro ⟨root', point, hparse', hnone, -⟩
  obtain rfl := Except.ok.inj (hparse.symm.trans hparse')
  cases hfind.symm.trans hnone

end Local

/-! ## Local edits -/

/-- The new name has to be quoted, and starts no interpolation. -/
theorem boxName_plain : (NixValue.str boxName).Plain := by
  show ¬interpolates boxName = true
  decide

theorem namedFile_segments : ∀ segments,
    NewSegments namedFile ["services".toList, "motd".toList] segments →
      ∀ s ∈ segments, IsIdentifier s := by
  obtain ⟨place, hpoint, hremaining⟩ := namedRoot_insertPoint
  have hidentifier : ∀ s ∈ ["motd".toList], IsIdentifier s := by decide
  rintro segments ⟨root, point, hroot, -, hinsert, rfl⟩
  obtain rfl := Except.ok.inj (namedFile_parse.symm.trans hroot)
  rw [Option.some.inj (hinsert.symm.trans hpoint), hremaining]
  exact hidentifier

/-- A file that is an empty attribute set. -/
def emptyRoot : Root := ⟨[], .attrSet none (.nil [' ']), []⟩

/-- The file `{ a.b = true; }`, whose key has two parts. -/
def splitRoot : Root :=
  ⟨[], .attrSet none (newEntry [' ', ' '] [['a'], ['b']] (.leaf (.ident "true".toList)) [' ']), []⟩

def emptyFile : NixConfigFile (tableRnix [emptyRoot, splitRoot]) := ⟨"{ }".toList, emptyRoot, rfl⟩

def splitFile : NixConfigFile (tableRnix [emptyRoot, splitRoot]) := ⟨splitRoot.text, splitRoot, rfl⟩

/-- A new part with a dot is found as two parts. -/
theorem splitKey : ¬∀ file', emptyFile.setAttrpath ["a.b".toList] (NixValue.bool true).toSource =
    .ok file' → LookupsKept emptyFile file' ["a.b".toList] := by
  intro h
  have hpoint : insertPoint emptyRoot ["a.b".toList] =
      some ⟨⟨0, none, .nil [' ']⟩, ["a.b".toList]⟩ := rfl
  have hparse : (tableRnix [emptyRoot, splitRoot]).parse emptyFile.source = .ok emptyRoot := rfl
  have hset : emptyFile.setAttrpath ["a.b".toList] (NixValue.bool true).toSource = .ok splitFile := by
    rw [setAttrpath_of_point hparse (by decide) rfl hpoint]
    exact accept_eq_ok.mpr rfl
  have hkept := h splitFile hset [['a'], ['b']] ⟨by decide, by decide⟩
  exact absurd hkept (by decide)

/-- **An edit is local**: with a literal that starts no interpolation, and a new key of
identifiers, every other lookup and all other text stay. -/
theorem edit_local {rnix : Rnix} {v : NixValue} (hvalues : rnix.ReadsValues)
    (hentries : rnix.ReadsEntries) (hliteral : rnix.ReadsLiteral v)
    {file file' : NixConfigFile rnix} {path : List Text} (hpath : path ≠ []) (hplain : v.Plain)
    (hsegments : ∀ segments, NewSegments file path segments → ∀ s ∈ segments, IsIdentifier s)
    (h : file.setAttrpath path v.toSource = .ok file') :
    LookupsKept file file' path ∧
      Spliced file.source file'.source path (file.findAttrpath path) v.toSource := by
  obtain ⟨value, hexpr⟩ := hliteral hplain
  exact ⟨lookupsKept_of_setAttrpath hvalues hentries hpath hexpr
    (fun _ _ => separated_toSource hplain.ne_other _) hsegments h, setAttrpath_spliced hpath h⟩

/-- A name that has to be quoted is written over the name of a host, and the services stay. -/
theorem edit_local_named : LookupsKept atticFile namedFile ["host".toList] ∧
    Spliced atticFile.source namedFile.source ["host".toList] (atticFile.findAttrpath ["host".toList])
      (NixValue.str boxName).toSource := by
  obtain ⟨loc, hfind⟩ := atticRoot_host
  exact edit_local boxTable_readsValues boxTable_readsEntries (fun _ => ⟨_, boxName_isExpr⟩) (by decide)
    boxName_plain (fun segments h => absurd h (no_newSegments atticFile_parse hfind segments)) atticFile_set

end Dashboard
end Cococoir
