import Cococoir.Dashboard.Edits

/-!
# What a lookup finds

A lookup compares the path with the names of a key, and the parts of a key that are interpolated
have no name and are left out.  So `a.${x}.b` is taken for `a.b`, and what is found there is bound
to another path.

* `Leads.unique`: a place is reached through one list of keys.
* `strayLookup`: `${x}.a` is found as `a`.
* `lookup_exact_iff`: exactly when a lookup finds a value that is bound to its path.

## What it means to be bound

The names of a key leave out what is interpolated; its parts do not.  `Binds` is stated with the
parts: the keys that lead to a place are, part by part, the names of the path.  A lookup compares
names.  The two agree on a key exactly when it has no interpolated part, because leaving something
out makes the list shorter (`eq_map_some_iff`), and so they agree on a way when all of its keys
are static.

For this the way has to be known from the place, since *exact* is a property of what was found and
not of how.  `Leads.unique` gives it: a place is reached through one list of keys.  The proof is
by the offsets; two different entries start at different ones, and a value lies inside its entry.
-/

namespace Cococoir
namespace Dashboard

/-! ## The keys that lead to a place -/

section Leads

variable {es : Entries} {start : ℕ} {path path' : List Text} {keys keys' : List Binder}
  {fill fill' : Node → Entries} {loc loc' : Located}

theorem Leads.names (h : Leads es start path keys fill loc) : keys.flatMap Binder.names = path := by
  induction h with
  | hereLeaf => exact List.flatMap_singleton ..
  | hereSet => exact List.flatMap_singleton ..
  | inside _ ih => rw [List.flatMap_cons, ih]
  | afterInherit _ ih => exact ih
  | afterLeaf _ ih => exact ih
  | afterSet _ ih => exact ih

theorem length_openText_pos (recToken : Option Text) : 0 < (openText recToken).length := by
  cases recToken <;> simp [openText]

/-- A value starts inside the entries. -/
theorem Leads.start_mem (h : Leads es start path keys fill loc) :
    start ≤ loc.start ∧ loc.start < start + es.text.length := by
  induction h with
  | hereLeaf =>
    simp only [Entries.text, List.length_append, List.length_cons]
    omega
  | hereSet =>
    simp only [Entries.text, List.length_append, List.length_cons]
    omega
  | inside _ ih =>
    simp only [Entries.text, List.length_append, List.length_cons]
    omega
  | afterInherit _ ih =>
    simp only [Entries.text, List.length_append]
    omega
  | afterLeaf _ ih =>
    simp only [Entries.text, Binder.next, Node.text, List.length_append, List.length_cons] at ih ⊢
    omega
  | afterSet _ ih =>
    simp only [Entries.text, Binder.next, Node.text, List.length_append, List.length_cons,
      List.length_nil] at ih ⊢
    omega

/-- A place is reached through one list of keys. -/
theorem Leads.unique (h : Leads es start path keys fill loc)
    (h' : Leads es start path' keys' fill' loc') (hloc : loc.start = loc'.start) : keys = keys' := by
  induction h generalizing path' keys' fill' loc' with
  | @hereLeaf key value beforeSemi rest start =>
    cases h' with
    | hereLeaf => rfl
    | afterLeaf h' =>
      have := h'.start_mem
      simp only [Binder.next] at this hloc
      omega
  | @hereSet key recToken inner rest beforeSemi start =>
    cases h' with
    | hereSet => rfl
    | inside h' =>
      have := h'.start_mem
      have := length_openText_pos recToken
      simp only at hloc
      omega
    | afterSet h' =>
      have := h'.start_mem
      simp only [Binder.next] at this hloc
      omega
  | @inside key recToken inner rest beforeSemi start path keys fill loc h ih =>
    have hstart := h.start_mem
    have hopen := length_openText_pos recToken
    cases h' with
    | hereSet =>
      simp only at hloc
      omega
    | inside h' => rw [ih h' hloc]
    | afterSet h' =>
      have := h'.start_mem
      simp only [Binder.next, Node.text, List.length_append, List.length_cons,
        List.length_nil] at this
      omega
  | afterInherit h ih =>
    cases h' with
    | afterInherit h' => exact ih h' hloc
  | @afterLeaf key value beforeSemi rest start path keys fill loc h ih =>
    cases h' with
    | hereLeaf =>
      have := h.start_mem
      simp only [Binder.next] at this hloc
      omega
    | afterLeaf h' => exact ih h' hloc
  | @afterSet key recToken inner rest beforeSemi start path keys fill loc h ih =>
    have hstart := h.start_mem
    simp only [Binder.next, Node.text, List.length_append, List.length_cons,
      List.length_nil] at hstart
    cases h' with
    | hereSet =>
      simp only at hloc
      omega
    | inside h' =>
      have := h'.start_mem
      omega
    | afterSet h' => exact ih h' hloc

end Leads

/-! ## Bindings -/

/-- The parts of a key; an interpolated one has no name. -/
def Binder.parts (key : Binder) : List (Option Text) := key.attrpath.map fun p => attrName p.2

/-- The file binds the path to the value at a place: the keys that lead there are the path, part by
part. -/
def Binds (root : Root) (path : List Text) (loc : Located) : Prop :=
  ∃ set path' keys fill, root.attrset = some set ∧
    Leads set.entries set.inside path' keys fill loc ∧
    keys.flatMap Binder.parts = path.map some

/-- No part of the key is interpolated. -/
def Binder.Static (key : Binder) : Prop := ∀ part ∈ key.parts, part ≠ none

/-- No key that a lookup of the path walks through has an interpolated part. -/
def WalksStatic (root : Root) (path : List Text) : Prop :=
  ∀ set keys, root.attrset = some set → findKeys set.entries path = some keys →
    ∀ key ∈ keys, key.Static

theorem names_eq_parts (key : Binder) : key.names = key.parts.filterMap id := by
  rw [Binder.names, Binder.parts, List.filterMap_map]
  rfl

/-- Leaving out what has no name changes a list unless everything has one. -/
theorem eq_map_some_iff {parts : List (Option Text)} :
    parts = (parts.filterMap id).map some ↔ ∀ part ∈ parts, part ≠ none := by
  induction parts with
  | nil => simp
  | cons part parts ih =>
    cases part with
    | none =>
      constructor
      · intro h
        have hmem : none ∈ ((none :: parts).filterMap id).map some := h ▸ List.mem_cons_self
        obtain ⟨_, -, hsome⟩ := List.mem_map.mp hmem
        cases hsome
      · exact fun h => absurd rfl (h none List.mem_cons_self)
    | some s =>
      have hcons : (some s :: parts).filterMap id = s :: parts.filterMap id := rfl
      rw [hcons, List.map_cons, List.cons.injEq, ih, List.forall_mem_cons]
      simp

/-- The parts of some keys are their names exactly when none is interpolated. -/
theorem parts_eq_iff {keys : List Binder} :
    keys.flatMap Binder.parts = (keys.flatMap Binder.names).map some ↔ ∀ key ∈ keys, key.Static := by
  have hnames : keys.flatMap Binder.names = (keys.flatMap Binder.parts).filterMap id := by
    induction keys with
    | nil => rfl
    | cons key keys ih =>
      rw [List.flatMap_cons, List.flatMap_cons, List.filterMap_append, ih, names_eq_parts]
  rw [hnames, eq_map_some_iff]
  simp only [Binder.Static, List.mem_flatMap]
  exact ⟨fun h key hkey part hpart => h part ⟨key, hkey, hpart⟩,
    fun h part ⟨key, hkey, hpart⟩ => h key hkey part hpart⟩

/-! ## Lookup -/

section Lookup

variable {root : Root} {path : List Text}

/-- What a lookup finds is bound to the path, if anything there is, exactly when no key on the way
is interpolated. -/
theorem binds_iff {loc : Located} (h : findValueNode root path = some loc) :
    (WalksStatic root path → Binds root path loc) ∧
      ∀ node, Binds root path ⟨loc.start, node⟩ → WalksStatic root path := by
  obtain ⟨set, hset, hfind⟩ := Option.bind_eq_some_iff.mp h
  rcases finds set.entries set.inside path with ⟨hnone, -⟩ | ⟨keys, fill, loc', hsome, hkeys, hleads⟩
  · rw [hnone] at hfind
    cases hfind
  · rw [hsome] at hfind
    cases hfind
    have hstatic : WalksStatic root path ↔ ∀ key ∈ keys, key.Static := by
      constructor
      · exact fun h => h set keys hset hkeys
      · intro h set' keys' hset' hkeys'
        rw [hset] at hset'
        cases hset'
        rw [hkeys] at hkeys'
        cases hkeys'
        exact h
    rw [hstatic, ← parts_eq_iff, hleads.names]
    refine ⟨fun hparts => ⟨set, path, keys, fill, hset, hleads, hparts⟩, ?_⟩
    rintro node ⟨set', path', keys', fill', hset', hleads', hparts⟩
    rw [hset] at hset'
    cases hset'
    rwa [hleads.unique hleads' rfl]

theorem walksStatic_of_not_found (h : findValueNode root path = none) : WalksStatic root path := by
  intro set keys hset hkeys
  rw [findValueNode, hset, Option.bind_some] at h
  rcases finds set.entries set.inside path with ⟨-, hnone⟩ | ⟨_, _, _, hsome, -, -⟩
  · rw [hnone] at hkeys
    cases hkeys
  · rw [hsome] at h
    cases h

end Lookup

/-- A value that a lookup returned is bound to the path, and it is interpreted and quoted as it
stands. -/
def Exact (root : Root) (path : List Text) (v : LocatedValue) : Prop :=
  ∃ node, Binds root path ⟨v.start, node⟩ ∧ v.value = interpret node ∧ v.raw = node.text

section FindAttrpath

variable {rnix : Rnix} {file : NixConfigFile rnix} {root : Root} {path : List Text}

/-- What a lookup by path returns is the value that is found, as it stands. -/
theorem findAttrpath_eq (hparse : rnix.parse file.source = .ok root) (hpath : path ≠ []) :
    file.findAttrpath path = (findValueNode root path).map fun loc =>
      ⟨interpret loc.node, loc.start, loc.node.text⟩ := by
  rw [NixConfigFile.findAttrpath, if_neg hpath, hparse]
  dsimp only
  cases hfind : findValueNode root path with
  | none => rfl
  | some loc =>
    obtain ⟨_, _, _, before, after, -, -, hstart, hsource, -⟩ := found_splits hparse hfind
    have hslice : (file.source.drop loc.start).take loc.node.text.length = loc.node.text :=
      StandsAt.slice ⟨before, after, hsource, hstart.symm⟩
    rw [Option.map_some, Option.map_some, hslice]

/-- A lookup of a path is exact when the keys that it walks through have no interpolated part. -/
theorem exact_iff (hparse : rnix.parse file.source = .ok root) (hpath : path ≠ []) :
    (∀ v, file.findAttrpath path = some v → Exact root path v) ↔ WalksStatic root path := by
  rw [findAttrpath_eq hparse hpath]
  cases hfind : findValueNode root path with
  | none =>
    refine iff_of_true ?_ (walksStatic_of_not_found hfind)
    rintro v ⟨⟩
  | some loc =>
    constructor
    · intro h
      obtain ⟨node, hbinds, -, -⟩ := h _ rfl
      exact (binds_iff hfind).2 node hbinds
    · rintro h v ⟨⟩
      exact ⟨loc.node, (binds_iff hfind).1 h, rfl, rfl⟩

/-- An edit of the path replaces the characters of the value, and nothing else. -/
def EditsAt (file : NixConfigFile rnix) (path : List Text) (v : LocatedValue) : Prop :=
  ∀ replacement, file.setAttrpath path replacement =
    accept (file.source.take v.start ++ (replacement ++ file.source.drop (v.start + v.raw.length)))
      replacement path

/-- An edit lands on the value that a lookup of the same path finds. -/
theorem editsAt_of_findAttrpath (hparse : rnix.parse file.source = .ok root) {v : LocatedValue}
    (h : file.findAttrpath path = some v) : EditsAt file path v := by
  have hpath : path ≠ [] := by
    rintro rfl
    cases h
  rw [findAttrpath_eq hparse hpath] at h
  obtain ⟨loc, hfind, rfl⟩ := Option.map_eq_some_iff.mp h
  exact fun replacement => setAttrpath_of_found hparse hpath hfind

end FindAttrpath

/-! ## The paths that are found -/

/-- A file whose only key starts with an interpolation. -/
def dynamicRoot : Root :=
  ⟨[], .attrSet none (.leaf ⟨[' '], [([], .dynamic "${x}".toList), (['.'], .ident ['a'])], [' '], [' ']⟩
    (.other ['1']) [] (.nil [' '])), []⟩

def dynamicFile : NixConfigFile (tableRnix [dynamicRoot]) :=
  ⟨"{ ${x}.a = 1; }".toList, dynamicRoot, rfl⟩

/-- What is bound to `${x}.a` is found as `a`. -/
theorem strayLookup : ¬∀ v, dynamicFile.findAttrpath [['a']] = some v →
    Exact dynamicRoot [['a']] v := by
  rw [exact_iff rfl (by decide)]
  intro h
  exact h _ _ rfl rfl _ List.mem_cons_self none List.mem_cons_self rfl

/-- **A lookup is exact**, and an edit lands on the binding of its path, when the keys that the
lookup walks through have no interpolated part, and then only. -/
theorem lookup_exact_iff {rnix : Rnix} {file : NixConfigFile rnix} {path : List Text} :
    (∀ root v, rnix.parse file.source = .ok root → file.findAttrpath path = some v →
      Exact root path v ∧ EditsAt file path v) ↔
    ∀ root, rnix.parse file.source = .ok root → path ≠ [] → WalksStatic root path := by
  constructor
  · exact fun h root hparse hpath => (exact_iff hparse hpath).mp fun v hfind =>
      (h root v hparse hfind).1
  · intro h root v hparse hfind
    have hpath : path ≠ [] := by
      rintro rfl
      cases hfind
    exact ⟨(exact_iff hparse hpath).mpr (h root hparse hpath) v hfind,
      editsAt_of_findAttrpath hparse hfind⟩

end Dashboard
end Cococoir
