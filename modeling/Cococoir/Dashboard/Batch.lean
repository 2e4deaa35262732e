import Cococoir.Dashboard.PutGet
import Cococoir.Dashboard.Save

/-!
# A batch of edits

A save applies its edits one on top of the other.  When no two of their paths are on one way, an
edit changes neither what another one wrote nor where another one is to write, so every value of
the batch is found after it, and everything else is found as before.

* `wayIn`: what is left of a path where its entry would go, without offsets.
* `newSegments_of_setAttrpath`: an edit leaves where the others would insert.
* `Applied.valueAt`: what is found after a batch.

## The induction

It is on the list of the edits, with the file changing under it.  What one edit does to the
lookups of the other paths is known from `Dashboard.Locality`; but a later edit may have to
insert, and then its new key has to be made of identifiers *in the file as it then is*.  The
condition is stated for the file at the beginning.  So one more thing has to be carried along: the
key that a later edit adds is the same after an earlier one.  Where an insertion goes is found by
offsets, which every edit shifts; `wayIn` is the part of the answer that does not depend on them,
and an edit with an incomparable path leaves it alone.

`Write.Sound` is what each edit has to bring: its value is a literal that starts no interpolation
and its new key, if there is one, is made of identifiers.
-/

namespace Cococoir
namespace Dashboard

open Concurrency (Outcome)

/-! ## Insertions without offsets -/

/-- What is left of the path at its insertion point. -/
def wayIn : Entries → List Text → Option (List Text)
  | .nil _, path => some path
  | .inherit _ _ _ rest, path => wayIn rest path
  | .leaf key _ _ rest, path => if Apart key path then wayIn rest path else none
  | .set key _ inner _ rest, path =>
    if Apart key path then wayIn rest path
    else if Passed key path ∨ key.names = path then none
    else wayIn inner (path.drop key.names.length)

theorem descend_remaining (es : Entries) (set : AttrSet) (start : ℕ) (path : List Text) :
    (descend es set start path).map InsertPoint.remaining = wayIn es path := by
  induction es generalizing set start path with
  | nil trivia => rfl
  | inherit trivia names text rest ih => exact ih ..
  | leaf key value beforeSemi rest ih =>
    simp only [descend, ite_apart, wayIn]
    split_ifs
    · exact ih ..
    · rfl
    · rfl
  | set key recToken inner beforeSemi rest ihinner ih =>
    simp only [descend, ite_apart, wayIn]
    split_ifs
    · exact ih ..
    · rfl
    · exact ihinner ..

theorem insertPoint_remaining {root : Root} {set : AttrSet} (h : root.attrset = some set)
    (path : List Text) :
    (insertPoint root path).map InsertPoint.remaining = wayIn set.entries path := by
  rw [insertPoint, h, Option.bind_some, descend_remaining]

theorem Incomparable.symm {path other : List Text} (h : Incomparable path other) :
    Incomparable other path := ⟨h.2, h.1⟩

theorem Incomparable.apart {key : Binder} {other : List Text} (h : Incomparable key.names other) :
    Apart key other := .inr ⟨h.2, h.1⟩

theorem wayIn_apart {key : Binder} {path : List Text} (h : Apart key path) (value : Node)
    (beforeSemi : Text) (rest : Entries) :
    wayIn (.attrpathValue key value beforeSemi rest) path = wayIn rest path := by
  rcases value with value | ⟨recToken, inner⟩
  · rw [Entries.attrpathValue, wayIn, if_pos h]
  · rw [Entries.attrpathValue, wayIn, if_pos h]

section Ways

variable {es : Entries} {start : ℕ} {path other : List Text}

/-- A replaced value is on no other way. -/
theorem Leads.wayIn_fill {keys : List Binder} {fill : Node → Entries} {loc : Located}
    (h : Leads es start path keys fill loc) (hother : Incomparable path other) (v : Node) :
    wayIn (fill v) other = wayIn es other := by
  induction h generalizing other with
  | hereLeaf =>
    rw [wayIn_apart hother.apart, wayIn, if_pos hother.apart]
  | hereSet =>
    rw [wayIn_apart hother.apart, wayIn, if_pos hother.apart]
  | @inside key recToken inner rest beforeSemi start path keys fill loc _ ih =>
    simp only [wayIn]
    split_ifs with hapart hblocked
    · rfl
    · rfl
    · rw [not_or] at hblocked
      obtain ⟨deeper, -, rfl⟩ := exists_rest hblocked.1 hblocked.2
      rw [List.drop_left, ih hother.deeper]
  | afterInherit _ ih => exact ih hother
  | afterLeaf _ ih => simp only [wayIn, ih hother]
  | afterSet _ ih => simp only [wayIn, ih hother]

/-- A new entry is on no other way. -/
theorem Descends.wayIn_insert {set : AttrSet} {fill : Entries → Entries} {final : Text}
    {point : InsertPoint} (h : Descends es set start path fill final point)
    (hother : Incomparable path other) (indent : Text) (value : Node) :
    wayIn (fill (newEntry indent point.remaining value final)) other = wayIn es other := by
  induction h generalizing other with
  | done =>
    refine wayIn_apart (Incomparable.apart ?_) ..
    rw [names_newKey]
    exact hother
  | afterInherit _ ih => exact ih hother
  | afterLeaf _ _ ih => simp only [wayIn, ih hother]
  | afterSet _ _ ih => simp only [wayIn, ih hother]
  | @enter key recToken inner rest beforeSemi final set start path fill point hnames hpath _ ih =>
    simp only [wayIn]
    split_ifs with hapart hblocked
    · rfl
    · rfl
    · rw [not_or] at hblocked
      obtain ⟨deeper, -, rfl⟩ := exists_rest hblocked.1 hblocked.2
      rw [List.drop_left, ih hother.deeper]

end Ways

/-! ## The other paths of a batch -/

section Batch

variable {rnix : Rnix} {file file' : NixConfigFile rnix} {root root' : Root} {set : AttrSet}
  {path other : List Text} {replacement : Text} {value : Node}

theorem newSegments_iff (hparse : rnix.parse file.source = .ok root)
    (hset : root.attrset = some set) {segments : List Text} :
    NewSegments file path segments ↔
      nodeAt set.entries path = none ∧ wayIn set.entries path = some segments := by
  rw [← findValueNode_node hset, Option.map_eq_none_iff, ← insertPoint_remaining hset,
    Option.map_eq_some_iff]
  constructor
  · rintro ⟨root', point, hparse', hfind, hpoint, rfl⟩
    obtain rfl := Except.ok.inj (hparse.symm.trans hparse')
    exact ⟨hfind, point, hpoint, rfl⟩
  · rintro ⟨hfind, point, hpoint, rfl⟩
    exact ⟨root, point, hparse, hfind, hpoint, rfl⟩

/-- **An edit leaves where the others would insert.** -/
theorem newSegments_of_setAttrpath (hvalues : rnix.ReadsValues) (hentries : rnix.ReadsEntries)
    (hpath : path ≠ []) (hexpr : rnix.IsExpr replacement value)
    (hseparates : file.Separates path replacement)
    (hsegments : ∀ segments, NewSegments file path segments → ∀ s ∈ segments, IsIdentifier s)
    (h : file.setAttrpath path replacement = .ok file') (hother : Incomparable path other)
    {segments : List Text} : NewSegments file' other segments ↔ NewSegments file other segments := by
  obtain ⟨root, set, hparse, hset, hcases⟩ :=
    setAttrpath_cases hvalues hentries hpath hexpr hseparates hsegments h
  rw [newSegments_iff hparse hset]
  rcases hcases with ⟨keys, fill, loc, hleads, hparse'⟩ | ⟨point, fill, final, indent, hdescends, hparse'⟩
  · rw [newSegments_iff hparse' (Root.attrset_withEntries hset _), hleads.nodeAt_fill hother,
      hleads.wayIn_fill hother]
  · rw [newSegments_iff hparse' (Root.attrset_withEntries hset _), hdescends.nodeAt_insert hother,
      hdescends.wayIn_insert hother]

/-- A value to be written, and its path. -/
structure Write : Type where
  path : List Text
  value : NixValue
  deriving DecidableEq

def Write.edit (write : Write) : ConfigEdit := ⟨write.path, write.value.toSource⟩

/-- The value is a literal without interpolations, which the parser reads so, and its new key, if
it needs one, is made of identifiers. -/
structure Write.Sound (file : NixConfigFile rnix) (write : Write) : Prop where
  path_ne : write.path ≠ []
  literal : ∀ raw, write.value ≠ .other raw
  plain : write.value.Plain
  reads : rnix.ReadsAs write.value.toSource
  segments : ∀ segments, NewSegments file write.path segments → ∀ s ∈ segments, IsIdentifier s

theorem Write.Sound.isExpr {write : Write} (h : write.Sound file) :
    ∃ value, rnix.IsExpr write.value.toSource value := by
  obtain ⟨value, hexpr, -⟩ := h.reads.1 _ ((nixLiteral_toSource h.literal).1 h.plain)
  exact ⟨value, hexpr⟩

/-- What a lookup finds, wherever it stands. -/
def NixConfigFile.valueAt (file : NixConfigFile rnix) (path : List Text) : Option NixValue :=
  (file.findAttrpath path).map LocatedValue.value

/-- **A batch of edits**: when no two paths are on one way, each value is found after it, and what
is on none of the ways is found as before. -/
theorem Applied.valueAt {writes : List Write} (h : Applied file (writes.map Write.edit) file')
    (hvalues : rnix.ReadsValues) (hentries : rnix.ReadsEntries)
    (hsound : ∀ write ∈ writes, write.Sound file)
    (hpaths : writes.Pairwise fun a b => Incomparable a.path b.path) :
    (∀ write ∈ writes, file'.valueAt write.path = some write.value) ∧
      ∀ other, (∀ write ∈ writes, Incomparable write.path other) →
        file'.valueAt other = file.valueAt other := by
  induction writes generalizing file with
  | nil =>
    obtain ⟨⟩ := h
    exact ⟨fun write hwrite => absurd hwrite List.not_mem_nil, fun _ _ => rfl⟩
  | cons write writes ih =>
    obtain - | ⟨hset, hrest⟩ := h
    rename_i file₁
    obtain ⟨hhead, htail⟩ := List.pairwise_cons.mp hpaths
    have hw := hsound write List.mem_cons_self
    obtain ⟨value, hexpr⟩ := hw.isExpr
    have hseparates : file.Separates write.path write.value.toSource :=
      fun _ _ => separated_toSource hw.literal _
    have hkept : LookupsKept file file₁ write.path :=
      lookupsKept_of_setAttrpath hvalues hentries hw.path_ne hexpr hseparates hw.segments hset
    have hsound₁ : ∀ next ∈ writes, next.Sound file₁ := by
      intro next hnext
      have hn := hsound next (List.mem_cons_of_mem _ hnext)
      refine { hn with segments := fun segments hsegments => ?_ }
      exact hn.segments _ ((newSegments_of_setAttrpath hvalues hentries hw.path_ne hexpr hseparates
        hw.segments hset (hhead next hnext)).mp hsegments)
    obtain ⟨hfound, hothers⟩ := ih hrest hsound₁ htail
    refine ⟨fun next hnext => ?_, fun other hother => ?_⟩
    · rcases List.mem_cons.mp hnext with rfl | hnext
      · rw [hothers _ fun later hlater => (hhead later hlater).symm]
        exact findAttrpath_of_setAttrpath hvalues hentries hw.path_ne hw.literal hw.plain hw.reads
          hw.segments hset
      · exact hfound next hnext
    · rw [hothers other fun later hlater => hother later (List.mem_cons_of_mem _ hlater)]
      exact hkept other (hother write List.mem_cons_self)

end Batch

end Dashboard
end Cococoir
