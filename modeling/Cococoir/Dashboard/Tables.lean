import Cococoir.Dashboard.Reading

/-!
# Parsers that know some files

`tableRnix roots` reads the texts of the listed files and refuses every other text.  What is asked of a
parser speaks of every place of a file, of every expression and of every key, so it is not computed as
it stands.  For a table it can be: a value in the place of another is one of finitely many trees, and
the key of a new entry can be read off from the text that is accepted.

## The argument

A context with a value in its place is the entries of a listed file, so to replace the value gives one
of `replacements`; this is `mem_replacements`, by induction on the context.  Likewise a context that
ends an attribute set is one of `places`.  An accepted text has the length of a listed file, which
leaves one length for the indent and the key of a new entry, and one cut of these characters into
spaces and names: a name starts with no space and has no dot, so `indentedKey` finds both again.

* `readsValuesIn`, `readsEntriesIn`: the two checks.
* `readsValues_of_table`, `readsEntries_of_table`: a table that passes them reads edited files as asked.
* `boxTable`: three files of a box, and the literal that is written into them.
-/

namespace Cococoir
namespace Dashboard

/-! ## The trees of an edit -/

/-- The entries with one of their values replaced, in every way. -/
def replacements (new : Node) : Entries → List Entries
  | .nil _ => []
  | .inherit trivia names text rest => (replacements new rest).map fun e => .inherit trivia names text e
  | .leaf key value beforeSemi rest =>
    .attrpathValue key new beforeSemi rest ::
      (replacements new rest).map fun e => .leaf key value beforeSemi e
  | .set key recToken inner beforeSemi rest =>
    .attrpathValue key new beforeSemi rest ::
      ((replacements new inner).map (fun e => .set key recToken e beforeSemi rest) ++
        (replacements new rest).map fun e => .set key recToken inner beforeSemi e)

/-- Where a new entry can stand, with the text that ends the attribute set there. -/
def places : Entries → List ((Entries → Entries) × Text)
  | .nil final => [(id, final)]
  | .inherit trivia names text rest =>
    (places rest).map fun p => (fun e => .inherit trivia names text (p.1 e), p.2)
  | .leaf key value beforeSemi rest =>
    (places rest).map fun p => (fun e => .leaf key value beforeSemi (p.1 e), p.2)
  | .set key recToken inner beforeSemi rest =>
    (places inner).map (fun p => (fun e => .set key recToken (p.1 e) beforeSemi rest, p.2)) ++
      (places rest).map fun p => (fun e => .set key recToken inner beforeSemi (p.1 e), p.2)

section Places

variable {fill : Entries → Entries}

theorem mem_replacements (h : Context fill) (key : Binder) (old new : Node) (beforeSemi : Text)
    (rest : Entries) : fill (.attrpathValue key new beforeSemi rest) ∈
      replacements new (fill (.attrpathValue key old beforeSemi rest)) := by
  induction h with
  | hole =>
    rcases old with value | ⟨recToken, inner⟩
    · exact List.mem_cons_self
    · exact List.mem_cons_self
  | afterInherit _ ih => exact List.mem_map_of_mem ih
  | afterLeaf _ ih => exact List.mem_cons_of_mem _ (List.mem_map_of_mem ih)
  | afterSet _ ih =>
    exact List.mem_cons_of_mem _ (List.mem_append_right _ (List.mem_map_of_mem ih))
  | inside _ ih => exact List.mem_cons_of_mem _ (List.mem_append_left _ (List.mem_map_of_mem ih))

theorem mem_places (h : Context fill) (final : Text) : (fill, final) ∈ places (fill (.nil final)) := by
  induction h with
  | hole => exact List.mem_singleton.mpr rfl
  | afterInherit _ ih => exact List.mem_map.mpr ⟨_, ih, rfl⟩
  | afterLeaf _ ih => exact List.mem_map.mpr ⟨_, ih, rfl⟩
  | afterSet _ ih => exact List.mem_append_right _ (List.mem_map.mpr ⟨_, ih, rfl⟩)
  | inside _ ih => exact List.mem_append_left _ (List.mem_map.mpr ⟨_, ih, rfl⟩)

theorem Context.text (h : Context fill) :
    ∃ before after, ∀ e, (fill e).text = before ++ (e.text ++ after) := by
  induction h with
  | hole => exact ⟨[], [], by simp⟩
  | @afterInherit _ trivia text _ _ ih =>
    obtain ⟨before, after, ih⟩ := ih
    exact ⟨trivia ++ (text ++ before), after, by simp [Entries.text, ih]⟩
  | @afterLeaf _ key value beforeSemi _ ih =>
    obtain ⟨before, after, ih⟩ := ih
    exact ⟨key.text ++ (value.text ++ (beforeSemi ++ ';' :: before)), after,
      by simp [Entries.text, ih]⟩
  | @afterSet _ key recToken inner beforeSemi _ ih =>
    obtain ⟨before, after, ih⟩ := ih
    exact ⟨key.text ++ (openText recToken ++ (inner.text ++ '}' :: (beforeSemi ++ ';' :: before))),
      after, by simp [Entries.text, ih]⟩
  | @inside _ key recToken rest beforeSemi _ ih =>
    obtain ⟨before, after, ih⟩ := ih
    exact ⟨key.text ++ (openText recToken ++ before),
      after ++ '}' :: (beforeSemi ++ ';' :: rest.text), by simp [Entries.text, ih]⟩

end Places

/-! ## Keys in a text -/

/-- The spaces that a text starts with, and the names between the dots of the rest. -/
def indentedKey (text : Text) : Text × List Text :=
  (text.takeWhile (· = ' '), (text.dropWhile (· = ' ')).splitOn '.')

/-- An identifier starts with no space, and has no dot in it. -/
theorem IsIdentifier.chars {s : Text} (h : IsIdentifier s) :
    (∃ c rest, s = c :: rest ∧ c ≠ ' ') ∧ '.' ∉ s := by
  rcases s with _ | ⟨c, s⟩
  · exact absurd h id
  obtain ⟨hstart, hrest⟩ := h
  refine ⟨⟨c, s, rfl, ?_⟩, ?_⟩
  · rintro rfl
    exact absurd hstart (by decide)
  · rw [List.mem_cons, not_or]
    refine ⟨?_, fun hmem => absurd (hrest '.' hmem) (by decide)⟩
    rintro rfl
    exact absurd hstart (by decide)

/-- A key of identifiers after spaces is found again. -/
theorem indentedKey_append {indent : Text} {segments : List Text} (hindent : ∀ c ∈ indent, c = ' ')
    (hne : segments ≠ []) (hsegments : ∀ s ∈ segments, IsIdentifier s) :
    indentedKey (indent ++ List.intercalate ['.'] segments) = (indent, segments) := by
  have hhead : ∃ c rest, List.intercalate ['.'] segments = c :: rest ∧ c ≠ ' ' := by
    rcases segments with _ | ⟨s, segments⟩
    · exact absurd rfl hne
    · obtain ⟨⟨c, rest, rfl, hc⟩, -⟩ := (hsegments s List.mem_cons_self).chars
      rw [intercalate_dot]
      exact ⟨c, _, rfl, hc⟩
  obtain ⟨c, rest, hkey, hc⟩ := hhead
  have hspaces : ∀ d ∈ indent, decide (d = ' ') = true := fun d hd => decide_eq_true (hindent d hd)
  have htake : (c :: rest).takeWhile (· = ' ') = [] := List.takeWhile_cons_of_neg (by simpa using hc)
  have hdrop : (c :: rest).dropWhile (· = ' ') = c :: rest :=
    List.dropWhile_cons_of_neg (by simpa using hc)
  rw [indentedKey, List.takeWhile_append_of_pos hspaces, List.dropWhile_append_of_pos hspaces, hkey,
    htake, hdrop, List.append_nil, ← hkey, List.splitOn_intercalate _ (fun s hs => (hsegments s hs).chars.2) hne]

/-! ## The checks -/

/-- The expressions that a table knows as the text of a whole file. -/
def tableExprs (roots : List Root) : List Node :=
  (roots.filter fun root => root.before.isEmpty && root.after.isEmpty).map (·.expr.asNode)

/-- Every listed text that a replaced value comes to is read as the tree with the new value. -/
def readsValuesIn (roots : List Root) : Bool :=
  roots.all fun root => root.attrset.all fun set => (tableExprs roots).all fun new =>
    (replacements new set.entries).all fun es => roots.all fun root' =>
      root'.text ≠ (root.withEntries es).text || root' = root.withEntries es

/-- What stands after the line breaks of a text. -/
def afterBreaks : Text → List Text
  | [] => []
  | c :: text => if c = '\n' then text :: afterBreaks text else afterBreaks text

/-- Every listed text that a new entry comes to is read as the tree with the new entry.  A new entry
starts on a new line, and its indent and its key are what the file has become longer by, but for the
value and five more characters. -/
def readsEntriesIn (roots : List Root) : Bool :=
  roots.all fun root => root.attrset.all fun set => roots.all fun root' =>
    (tableExprs roots).all fun value => (afterBreaks root'.text).all fun line =>
      let key := indentedKey (line.take (root'.text.length - (root.text.length + value.text.length + 5)))
      (places set.entries).all fun p =>
        let new := root.withEntries (p.1 (newEntry key.1 key.2 value p.2))
        root'.text ≠ new.text || root' = new

section Tables

variable {roots : List Root} {root : Root} {text : Text}

theorem tableRnix_parse (h : (tableRnix roots).parse text = .ok root) :
    root ∈ roots ∧ root.text = text := by
  refine ⟨?_, (tableRnix roots).lossless h⟩
  simp only [tableRnix] at h
  cases hfind : roots.find? (·.text = text) with
  | none =>
    rw [hfind] at h
    cases h
  | some root' =>
    rw [hfind] at h
    cases h
    exact List.mem_of_find?_eq_some hfind

theorem mem_afterBreaks (before after : Text) : after ∈ afterBreaks (before ++ '\n' :: after) := by
  induction before with
  | nil =>
    rw [List.nil_append, afterBreaks, if_pos rfl]
    exact List.mem_cons_self
  | cons c before ih =>
    rw [List.cons_append, afterBreaks]
    split_ifs
    · exact List.mem_cons_of_mem _ ih
    · exact ih

theorem mem_tableExprs {value : Node} (h : (tableRnix roots).IsExpr text value) :
    value ∈ tableExprs roots := by
  obtain ⟨e, hparse, rfl⟩ := h
  exact List.mem_map_of_mem (List.mem_filter.mpr ⟨(tableRnix_parse hparse).1, rfl⟩)

/-- **A table that passes the first check** reads replaced values where they stand. -/
theorem readsValues_of_table (h : readsValuesIn roots = true) : (tableRnix roots).ReadsValues := by
  intro root set fill key old new beforeSemi rest root' hparse hset hcontext hentries hexpr _ hparse'
  obtain ⟨hmem', htext'⟩ := tableRnix_parse hparse'
  have hall := List.all_eq_true.mp h root (tableRnix_parse hparse).1
  rw [hset, Option.all_some] at hall
  have hnew := List.all_eq_true.mp (List.all_eq_true.mp hall new (mem_tableExprs hexpr))
  rw [hentries] at hnew
  have hroot' := List.all_eq_true.mp (hnew _ (mem_replacements hcontext key old new beforeSemi rest))
    root' hmem'
  rcases Bool.or_eq_true_iff.mp hroot' with hne | heq
  · exact absurd htext' (of_decide_eq_true hne)
  · exact of_decide_eq_true heq

/-- **A table that passes the second check** reads new entries as they are written. -/
theorem readsEntries_of_table (h : readsEntriesIn roots = true) : (tableRnix roots).ReadsEntries := by
  intro root set fill indent segments value final root' hparse hset hcontext hentries hindent hne
    hsegments hexpr hparse'
  obtain ⟨hmem', htext'⟩ := tableRnix_parse hparse'
  obtain ⟨before, after, -, hroot⟩ := Root.text_withEntries hset
  obtain ⟨before', after', hfill⟩ := hcontext.text
  have hself := hroot set.entries
  rw [Root.withEntries_self hset, hentries, hfill, Entries.text] at hself
  -- the new key stands after a line break
  have hlong : root'.text = (before ++ before') ++ '\n' ::
      ((indent ++ List.intercalate ['.'] segments) ++
        ([' ', '=', ' '] ++ (value.text ++ (';' :: (final ++ (after' ++ after)))))) := by
    rw [htext', hroot, hfill, text_newEntry, entryText]
    simp
  have hlength : root'.text.length - (root.text.length + value.text.length + 5) =
      (indent ++ List.intercalate ['.'] segments).length := by
    rw [hlong, hself]
    simp only [List.length_append, List.length_cons, List.length_nil]
    omega
  have hall := List.all_eq_true.mp h root (tableRnix_parse hparse).1
  rw [hset, Option.all_some] at hall
  have hroot' := List.all_eq_true.mp (List.all_eq_true.mp hall root' hmem') value (mem_tableExprs hexpr)
  have hline := List.all_eq_true.mp hroot' _ (hlong ▸ mem_afterBreaks _ _)
  dsimp only at hline
  rw [hlength, List.take_left, indentedKey_append hindent hne hsegments] at hline
  have hplace := List.all_eq_true.mp hline (fill, final) (hentries ▸ mem_places hcontext final)
  rcases Bool.or_eq_true_iff.mp hplace with hdiffers | heq
  · exact absurd htext' (of_decide_eq_true hdiffers)
  · exact of_decide_eq_true heq

end Tables

/-! ## The files of a box -/

/-- A string, as the value that its quoted text is read as. -/
def quoted (s : Text) : Node := .leaf (.str [.literal s] (quoteNixString s))

/-- The host's new name, which has to be quoted. -/
def boxName : Text := "the \"box\"".toList

/-- The services of a box, with more entries after the first. -/
def boxServices (final : Entries) : Entries :=
  .leaf ⟨[' '], dotted ["ssh".toList], [' '], [' ']⟩ (.ident "true".toList) [] final

/-- A file with services and the name of a host. -/
def boxRoot (services : Entries) (host : Text) : Root :=
  ⟨[], .attrSet none
    (.set ⟨[' '], dotted ["services".toList], [' '], [' ']⟩ none services []
      (.attrpathValue ⟨[' '], dotted ["host".toList], [' '], [' ']⟩ (quoted host) [] (.nil [' ']))), []⟩

/-- The file `{ services = { ssh = true; }; host = "attic"; }`. -/
def atticRoot : Root := boxRoot (boxServices (.nil [' '])) "attic".toList

/-- The same with another name. -/
def namedRoot : Root := boxRoot (boxServices (.nil [' '])) boxName

/-- The same with a message of the day among the services. -/
def greetingRoot : Root :=
  boxRoot (boxServices (newEntry [' ', ' '] ["motd".toList] (quoted boxName) [' '])) boxName

/-- The new name by itself. -/
def boxNameRoot : Root := ⟨[], .leaf (.str [.literal boxName] (quoteNixString boxName)), []⟩

/-- The parser that knows these files and the new name. -/
def boxTable : Rnix := tableRnix [atticRoot, namedRoot, greetingRoot, boxNameRoot]

def atticFile : NixConfigFile boxTable := ⟨atticRoot.text, atticRoot, rfl⟩

def namedFile : NixConfigFile boxTable := ⟨namedRoot.text, namedRoot, by decide⟩

def greetingFile : NixConfigFile boxTable := ⟨greetingRoot.text, greetingRoot, by decide⟩

theorem boxName_isExpr : boxTable.IsExpr (NixValue.str boxName).toSource (quoted boxName) :=
  ⟨boxNameRoot.expr, by decide, rfl⟩

theorem boxTable_readsValues : boxTable.ReadsValues := readsValues_of_table (by decide)

theorem boxTable_readsEntries : boxTable.ReadsEntries := readsEntries_of_table (by decide)

theorem atticFile_parse : boxTable.parse atticFile.source = .ok atticRoot := rfl

theorem namedFile_parse : boxTable.parse namedFile.source = .ok namedRoot := by decide

/-- The host has a name. -/
theorem atticRoot_host : ∃ loc, findValueNode atticRoot ["host".toList] = some loc := ⟨_, rfl⟩

/-- The new name is written over the old one. -/
theorem atticFile_set :
    atticFile.setAttrpath ["host".toList] (NixValue.str boxName).toSource = .ok namedFile := by
  obtain ⟨loc, hfind⟩ := atticRoot_host
  rw [setAttrpath_of_found atticFile_parse (by decide) hfind, accept_eq_ok]
  cases hfind
  decide

/-- A message of the day goes among the services. -/
theorem namedRoot_insertPoint : ∃ point,
    insertPoint namedRoot ["services".toList, "motd".toList] = some point ∧
      point.remaining = ["motd".toList] := by
  refine ⟨_, rfl, ?_⟩
  decide

/-- The new name is written into the services. -/
theorem namedFile_set : namedFile.setAttrpath ["services".toList, "motd".toList]
    (NixValue.str boxName).toSource = .ok greetingFile := by
  obtain ⟨point, hpoint⟩ :
      ∃ point, insertPoint namedRoot ["services".toList, "motd".toList] = some point := ⟨_, rfl⟩
  rw [setAttrpath_of_point namedFile_parse (by decide) rfl hpoint]
  cases hpoint
  exact accept_eq_ok.mpr (by decide)

end Dashboard
end Cococoir
