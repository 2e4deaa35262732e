import Cococoir.Dashboard.Locality
import Mathlib.Data.Char
import Mathlib.Data.List.Lex
import Mathlib.Data.List.Sort

/-!
# The names under a path

The users of a file are the names bound directly under a path, and each of them is edited by paths
that go on from there.  Two walks of the tree are made for the two: one collects the names, the
other looks up a path.

* `collectChildKeys`, `NixConfigFile.attrsetKeys`: the names under a path.
* `agreed_entries`: a name is collected if and only if some path through it is found.
* `attrset_keys_findable`: the same of files, and the names are in strict order.

## Two walks of one tree

If the walks disagreed, the page would show a user whose fields it cannot find, or hide one that
it can.  They are written apart in the source, and treat a key that is longer than the path, one
that is shorter, and a key without literal parts each in its own place.

`Stands` lists how the names of a key may stand to a path: elsewhere, beyond it, or on the way to
it.  In the first case both walks pass the entry.  In the second the collecting walk takes the
next name of the key, and the lookup finds a value for some path through it.  In the third both go
on below the value, with what is left of the path.  `Agreed` is what is to be shown of a list of
entries, `Agreed.entry` the step from the entries below and after one to the list with it, and the
induction is on the tree.

Sorting and `dedup` come last: what is collected is put in order and has no name twice, because
neighbours that are equal are all that a sorted list can have.
-/

namespace Cococoir
namespace Dashboard

/-! ## Collecting names -/

/-- The names bound directly under `path` among entries, in the order in which they stand, and
whether anything is bound there. -/
def collectChildKeys : Entries → List Text → List Text × Bool
  | .nil _, _ => ([], false)
  | .inherit _ _ _ rest, path => collectChildKeys rest path
  | .leaf key _ _ rest, path =>
    let later := collectChildKeys rest path
    if key.names = [] then later
    else if !agrees key.names path then later
    else if path.length < key.names.length then (key.names[path.length]?.toList ++ later.1, true)
    else later
  | .set key _ inner _ rest, path =>
    let later := collectChildKeys rest path
    if key.names = [] then later
    else if !agrees key.names path then later
    else if path.length < key.names.length then (key.names[path.length]?.toList ++ later.1, true)
    else
      let deeper := collectChildKeys inner (path.drop key.names.length)
      (deeper.1 ++ later.1, deeper.2 || later.2)

/-- `Vec::dedup`: of equal neighbours one is kept. -/
def dedup : List Text → List Text
  | a :: b :: l => if a = b then dedup (b :: l) else a :: dedup (b :: l)
  | l => l

/-- The names bound directly under the attribute set at `path`. -/
def NixConfigFile.attrsetKeys {rnix : Rnix} (file : NixConfigFile rnix) (path : List Text) :
    Option (List Text) :=
  match rnix.parse file.source with
  | .error _ => none
  | .ok root =>
    root.attrset.bind fun set =>
      let collected := collectChildKeys set.entries path
      -- strings are ordered by their bytes, which is the order of their characters
      if collected.2 then some (dedup (collected.1.insertionSort (· ≤ ·))) else none

/-! ## Sorting and deduplicating -/

theorem mem_dedup {l : List Text} {k : Text} : k ∈ dedup l ↔ k ∈ l := by
  induction l using dedup.induct with
  | case1 a l ih =>
    rw [dedup, if_pos rfl, ih]
    simp
  | case2 a b l hab ih => rw [dedup, if_neg hab, List.mem_cons, ih, List.mem_cons (l := b :: l)]
  | case3 l hl =>
    rw [dedup]
    exact hl

theorem pairwise_dedup {l : List Text} (h : l.Pairwise (· ≤ ·)) : (dedup l).Pairwise (· < ·) := by
  induction l using dedup.induct with
  | case1 a l ih =>
    rw [dedup, if_pos rfl]
    exact ih (List.pairwise_cons.mp h).2
  | case2 a b l hab ih =>
    obtain ⟨ha, hrest⟩ := List.pairwise_cons.mp h
    rw [dedup, if_neg hab]
    refine List.pairwise_cons.mpr ⟨fun k hk => ?_, ih hrest⟩
    have hb : b ≤ k := by
      rcases List.mem_cons.mp (mem_dedup.mp hk) with rfl | hk
      · exact le_refl k
      · exact (List.pairwise_cons.mp hrest).1 k hk
    exact lt_of_lt_of_le (lt_of_le_of_ne (ha b List.mem_cons_self) hab) hb
  | case3 l hl =>
    match l, hl with
    | [], _ => exact List.Pairwise.nil
    | [a], _ => exact List.pairwise_singleton _ a
    | a :: b :: l, hl => exact absurd rfl (hl a b l)

/-! ## The two walks, entry by entry -/

/-- The names and the path agree when one is a start of the other. -/
theorem agrees_iff_either {names path : List Text} :
    agrees names path ↔ names <+: path ∨ path <+: names := by
  induction names generalizing path with
  | nil => simp [agrees]
  | cons n names ih =>
    cases path with
    | nil => simp [agrees]
    | cons p path =>
      have ih := @ih path
      unfold agrees at ih ⊢
      rw [List.zip_cons_cons, List.all_cons, Bool.and_eq_true, ih, List.cons_prefix_cons,
        List.cons_prefix_cons, decide_eq_true_eq, eq_comm (a := p), ← and_or_left]

/-- How the names of a key stand to a path: elsewhere, beyond it, or on the way to it. -/
inductive Stands (names path : List Text) : Prop
  | aside (h : names = [] ∨ ¬agrees names path) : Stands names path
  | beyond (child : Text) (more : List Text) (h : names = path ++ child :: more) : Stands names path
  | above (deeper : List Text) (hne : names ≠ []) (h : path = names ++ deeper) : Stands names path

theorem stands (names path : List Text) : Stands names path := by
  by_cases hnil : names = []
  · exact .aside (.inl hnil)
  by_cases hagrees : agrees names path
  · rcases agrees_iff_either.mp hagrees with ⟨deeper, h⟩ | ⟨more, h⟩
    · exact .above deeper hnil h.symm
    · cases more with
      | nil => exact .above [] hnil (by rw [List.append_nil] at h ⊢; exact h)
      | cons child more => exact .beyond child more h.symm
  · exact .aside (.inr hagrees)

/-- A key that is elsewhere is passed by a lookup of any path that goes on. -/
theorem passed_of_aside {key : Binder} {path : List Text}
    (h : key.names = [] ∨ ¬agrees key.names path) (k : Text) (more : List Text) :
    Passed key (path ++ k :: more) := by
  rcases h with hnil | hagrees
  · exact .inl hnil
  · refine .inr (.inr fun hpre => hagrees (agrees_iff_either.mpr ?_))
    exact List.prefix_or_prefix_of_prefix hpre (List.prefix_append path _)

/-- What is collected below the value of an entry. -/
def Node.childKeys : Node → List Text → List Text × Bool
  | .leaf _, _ => ([], false)
  | .attrSet _ entries, path => collectChildKeys entries path

/-- What is found below the value of an entry. -/
def Node.below : Node → List Text → Option Node
  | .leaf _, _ => none
  | .attrSet _ entries, path => nodeAt entries path

section Entry

variable {key : Binder} {value : Node} {beforeSemi : Text} {rest : Entries} {path : List Text}

theorem collect_aside (h : key.names = [] ∨ ¬agrees key.names path) :
    collectChildKeys (.attrpathValue key value beforeSemi rest) path = collectChildKeys rest path := by
  have hite : ∀ {β : Type} (skip here : β), (if key.names = [] then skip
      else if (!agrees key.names path) = true then skip else here) = skip := by
    intro β skip here
    rcases h with hnil | hagrees
    · exact if_pos hnil
    · have hnot : (!agrees key.names path) = true := by simpa using hagrees
      rw [if_pos hnot, ite_self]
  cases value <;> exact hite _ _

theorem collect_beyond {child : Text} {more : List Text} (h : key.names = path ++ child :: more) :
    collectChildKeys (.attrpathValue key value beforeSemi rest) path =
      (child :: (collectChildKeys rest path).1, true) := by
  have hne : key.names ≠ [] := by simp [h]
  have hagrees : ¬(!agrees key.names path) = true := by
    simp [agrees_iff_either.mpr (.inr ⟨child :: more, h.symm⟩)]
  have hlen : path.length < key.names.length := by simp [h]
  have hchild : key.names[path.length]?.toList = [child] := by simp [h]
  cases value
  · simp only [Entries.attrpathValue, collectChildKeys, if_neg hne, if_neg hagrees, if_pos hlen, hchild]
    rfl
  · simp only [Entries.attrpathValue, collectChildKeys, if_neg hne, if_neg hagrees, if_pos hlen, hchild]
    rfl

theorem collect_above {deeper : List Text} (hne : key.names ≠ []) (h : path = key.names ++ deeper) :
    collectChildKeys (.attrpathValue key value beforeSemi rest) path =
      ((value.childKeys deeper).1 ++ (collectChildKeys rest path).1,
        (value.childKeys deeper).2 || (collectChildKeys rest path).2) := by
  have hagrees : ¬(!agrees key.names path) = true := by
    simp [agrees_iff_either.mpr (.inl ⟨deeper, h.symm⟩)]
  have hlen : ¬path.length < key.names.length := by simp [h]
  have hdrop : path.drop key.names.length = deeper := by rw [h, List.drop_left]
  cases value
  · simp only [Entries.attrpathValue, collectChildKeys, if_neg hne, if_neg hagrees, if_neg hlen]
    rfl
  · simp only [Entries.attrpathValue, collectChildKeys, if_neg hne, if_neg hagrees, if_neg hlen, hdrop]
    rfl

/-- A lookup finds the value of an entry, or goes on below it and after it. -/
theorem nodeAt_entry (hpassed : ¬Passed key path) :
    nodeAt (.attrpathValue key value beforeSemi rest) path =
      if key.names = path then some value
      else (value.below (path.drop key.names.length)).or (nodeAt rest path) := by
  cases value <;> exact if_neg hpassed

end Entry

/-! ## Agreement -/

/-- What the two walks of some entries have to do with each other. -/
def Agreed (collected : List Text → List Text × Bool) (found : List Text → Option Node) : Prop :=
  ∀ path k, (k ∈ (collected path).1 ↔ ∃ more, (found (path ++ k :: more)).isSome) ∧
    (k ∈ (collected path).1 → (collected path).2 = true)

/-- One entry keeps the agreement of what is below its value and after it. -/
theorem Agreed.entry {key : Binder} {value : Node} {beforeSemi : Text} {rest : Entries}
    (hvalue : Agreed value.childKeys value.below) (hrest : Agreed (collectChildKeys rest) (nodeAt rest)) :
    Agreed (collectChildKeys (.attrpathValue key value beforeSemi rest))
      (nodeAt (.attrpathValue key value beforeSemi rest)) := by
  intro path k
  obtain ⟨hmem, hfound⟩ := hrest path k
  cases stands key.names path with
  | aside h =>
    rw [collect_aside h, hmem]
    refine ⟨exists_congr fun more => ?_, fun hk => hfound (hmem.mpr hk)⟩
    rw [nodeAt_passed (passed_of_aside h k more)]
  | beyond child more h =>
    rw [collect_beyond h]
    refine ⟨?_, fun _ => rfl⟩
    rw [List.mem_cons, hmem]
    constructor
    · rintro (rfl | ⟨more', hfind⟩)
      · refine ⟨more, ?_⟩
        rw [nodeAt_entry, if_pos h]
        · rfl
        · rintro (hnil | hlong | hpre)
          · simp [h] at hnil
          · rw [h] at hlong
            exact lt_irrefl _ hlong
          · exact hpre (h ▸ List.prefix_refl _)
      · refine ⟨more', ?_⟩
        by_cases hpassed : Passed key (path ++ k :: more')
        · rw [nodeAt_passed hpassed]
          exact hfind
        · rw [nodeAt_entry hpassed]
          split_ifs
          · rfl
          · rw [Option.isSome_or, hfind, Bool.or_true]
    · rintro ⟨more', hfind⟩
      by_cases hpassed : Passed key (path ++ k :: more')
      · rw [nodeAt_passed hpassed] at hfind
        exact .inr ⟨more', hfind⟩
      · have hpre : key.names <+: path ++ k :: more' :=
          not_not.mp fun hno => hpassed (.inr (.inr hno))
        rw [h, List.prefix_append_right_inj, List.cons_prefix_cons] at hpre
        exact .inl hpre.1.symm
  | above deeper hne h =>
    obtain ⟨hmem', hfound'⟩ := hvalue deeper k
    rw [collect_above hne h, List.mem_append, hmem, hmem']
    constructor
    · rw [← exists_or]
      refine exists_congr fun more => ?_
      have hfull : path ++ k :: more = key.names ++ (deeper ++ k :: more) := by
        rw [h, List.append_assoc]
      have hpassed : ¬Passed key (path ++ k :: more) := by
        rintro (hnil | hlong | hpre)
        · exact hne hnil
        · rw [hfull, List.length_append] at hlong
          omega
        · exact hpre ⟨_, hfull.symm⟩
      have hlonger : key.names ≠ path ++ k :: more := by
        intro heq
        have := congrArg List.length (heq.trans hfull)
        simp at this
      rw [nodeAt_entry hpassed, if_neg hlonger, hfull, List.drop_left, Option.isSome_or,
        Bool.or_eq_true]
    · rintro (hk | hk)
      · rw [hfound' (hmem'.mpr hk), Bool.true_or]
      · rw [hfound (hmem.mpr hk), Bool.or_true]

/-- **The walks agree**, for any entries: a name is collected if and only if some path through it is
found. -/
theorem agreed_entries (es : Entries) : Agreed (collectChildKeys es) (nodeAt es) := by
  have hnone : Agreed (fun _ => ([], false)) fun _ => none := fun path k => by simp
  induction es with
  | nil trivia => exact hnone
  | inherit trivia names text rest ih => exact ih
  | leaf key value beforeSemi rest ih => exact @Agreed.entry key (.leaf value) beforeSemi rest hnone ih
  | set key recToken inner beforeSemi rest ihinner ih =>
    exact @Agreed.entry key (.attrSet recToken inner) beforeSemi rest ihinner ih

section Files

variable {rnix : Rnix} {file : NixConfigFile rnix} {path : List Text}

theorem isSome_findAttrpath {root : Root} {set : AttrSet} (hparse : rnix.parse file.source = .ok root)
    (hset : root.attrset = some set) (hpath : path ≠ []) :
    (file.findAttrpath path).isSome = (nodeAt set.entries path).isSome := by
  rw [findAttrpath_eq hparse hpath, Option.isSome_map, ← findValueNode_node hset, Option.isSome_map]

/-- **The editor's users are those that it can find**: the names under a path are the ones that some
path through them is found for, and they are listed in strict order. -/
theorem attrset_keys_findable (file : NixConfigFile rnix) (path : List Text) :
    (∀ k, (∃ keys, file.attrsetKeys path = some keys ∧ k ∈ keys) ↔
      ∃ more v, file.findAttrpath (path ++ k :: more) = some v) ∧
    ∀ keys, file.attrsetKeys path = some keys → keys.Pairwise (· < ·) := by
  obtain ⟨root, hparse⟩ := file.parses
  have hkeys : file.attrsetKeys path = root.attrset.bind fun set =>
      if (collectChildKeys set.entries path).2 then
        some (dedup ((collectChildKeys set.entries path).1.insertionSort (· ≤ ·))) else none := by
    rw [NixConfigFile.attrsetKeys, hparse]
  rw [hkeys]
  cases hset : root.attrset with
  | none =>
    refine ⟨fun k => ?_, nofun⟩
    rw [Option.bind_none]
    refine iff_of_false (fun ⟨_, h, _⟩ => by cases h) fun ⟨more, v, hfind⟩ => ?_
    rw [findAttrpath_eq hparse (by simp), findValueNode, hset] at hfind
    cases hfind
  | some set =>
    rw [Option.bind_some]
    constructor
    · intro k
      obtain ⟨hmem, hfound⟩ := agreed_entries set.entries path k
      have hlisted : (∃ keys, (if (collectChildKeys set.entries path).2 then
          some (dedup ((collectChildKeys set.entries path).1.insertionSort (· ≤ ·))) else none) =
            some keys ∧ k ∈ keys) ↔ k ∈ (collectChildKeys set.entries path).1 := by
        constructor
        · rintro ⟨keys, h, hk⟩
          split_ifs at h
          cases h
          exact (List.mem_insertionSort _).mp (mem_dedup.mp hk)
        · intro hk
          refine ⟨_, if_pos (hfound hk), mem_dedup.mpr ((List.mem_insertionSort _).mpr hk)⟩
      rw [hlisted, hmem]
      refine exists_congr fun more => ?_
      rw [← isSome_findAttrpath hparse hset (by simp), Option.isSome_iff_exists]
    · intro keys h
      split_ifs at h
      cases h
      exact pairwise_dedup (List.pairwise_insertionSort _ _)

end Files

end Dashboard
end Cococoir
