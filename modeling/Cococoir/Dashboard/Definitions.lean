import Cococoir.Dashboard.Lookup

/-!
# What a file defines

An attribute set is well defined when no attribute is bound twice, where two attribute sets at one
path are merged and a dotted key is an attribute set at each of its starts.  So the entries define
paths, each bound to a value or to an attribute set, and two definitions agree unless one of them
is a value at a start of the other's path.  Behind an interpolated part nothing is known before
the file is evaluated, and an attribute set there is looked at by itself.

* `Entries.WellDefined`: no two definitions of an attribute set, or of one inside it, disagree.
* `scopeOf`: the attribute set that an insertion reaches through an interpolated key.
* `Descends.wellDefined_iff`: what an insertion needs to keep a file well defined.
* `Descends.fits_iff`: the definitions that an insertion does not look at.
-/

namespace Cococoir
namespace Dashboard

/-! ## Definitions -/

/-- A path and whether an attribute set is bound to it, or else a value. -/
structure Definition : Type where
  path : List Text
  isSet : Bool
  deriving DecidableEq

/-- The definition as one of the attribute set around. -/
def Definition.under (names : List Text) (d : Definition) : Definition :=
  { d with path := names ++ d.path }

/-- Neither definition is a value at a start of the other's path. -/
def Agree (d d' : Definition) : Prop :=
  (d.path <+: d'.path → d.isSet) ∧ (d'.path <+: d.path → d'.isSet)

instance (d d' : Definition) : Decidable (Agree d d') :=
  inferInstanceAs (Decidable ((_ → _ = true) ∧ (_ → _ = true)))

/-- The key is known before the file is evaluated. -/
def Binder.Known (key : Binder) : Prop := key.names ≠ [] ∧ key.Static

instance (key : Binder) : Decidable key.Static :=
  inferInstanceAs (Decidable (∀ part ∈ key.parts, part ≠ none))

instance (key : Binder) : Decidable key.Known := inferInstanceAs (Decidable (_ ≠ [] ∧ _))

/-- The names before the first interpolated part. -/
def Binder.leading (key : Binder) : List Text :=
  (key.parts.takeWhile Option.isSome).filterMap id

/-- What the key itself defines. -/
def Binder.definition (key : Binder) (isSet : Bool) : Definition :=
  if key.Known then ⟨key.names, isSet⟩ else ⟨key.leading, true⟩

/-- What the entries of an attribute set define. -/
def Entries.definitions : Entries → List Definition
  | .nil _ => []
  | .inherit _ names _ rest => names.map (fun name => ⟨[name], false⟩) ++ rest.definitions
  | .leaf key _ _ rest => key.definition false :: rest.definitions
  | .set key _ inner _ rest =>
    key.definition true ::
      ((if key.Known then inner.definitions.map (.under key.names) else []) ++ rest.definitions)

/-- The attribute sets among the values are well defined. -/
def Entries.InnerDefined : Entries → Prop
  | .nil _ => True
  | .inherit _ _ _ rest => rest.InnerDefined
  | .leaf _ _ _ rest => rest.InnerDefined
  | .set _ _ inner _ rest =>
    (inner.definitions.Pairwise Agree ∧ inner.InnerDefined) ∧ rest.InnerDefined

/-- No attribute is bound twice. -/
def Entries.WellDefined (es : Entries) : Prop := es.definitions.Pairwise Agree ∧ es.InnerDefined

instance Entries.decidableInnerDefined : ∀ es : Entries, Decidable es.InnerDefined
  | .nil _ => inferInstanceAs (Decidable True)
  | .inherit _ _ _ rest => rest.decidableInnerDefined
  | .leaf _ _ _ rest => rest.decidableInnerDefined
  | .set _ _ inner _ rest =>
    have := inner.decidableInnerDefined
    have := rest.decidableInnerDefined
    inferInstanceAs (Decidable ((_ ∧ _) ∧ _))

instance (es : Entries) : Decidable es.WellDefined := inferInstanceAs (Decidable (_ ∧ _))

/-- What a value defines at a path. -/
def Node.definitions (path : List Text) : Node → List Definition
  | .leaf _ => [⟨path, false⟩]
  | .attrSet _ entries => ⟨path, true⟩ :: entries.definitions.map (.under path)

def Node.WellDefined : Node → Prop
  | .leaf _ => True
  | .attrSet _ entries => entries.WellDefined

/-- The binding agrees with all that the entries define. -/
def Fits (es : Entries) (path : List Text) (value : Node) : Prop :=
  ∀ d ∈ es.definitions, ∀ d' ∈ value.definitions path, Agree d d'

theorem Agree.symm {d d' : Definition} (h : Agree d d') : Agree d' d := ⟨h.2, h.1⟩

theorem agree_under {names : List Text} {d d' : Definition} :
    Agree (d.under names) (d'.under names) ↔ Agree d d' := by
  simp only [Agree, Definition.under, List.prefix_append_right_inj]

theorem Binder.definition_isSet {key : Binder} : (key.definition true).isSet := by
  unfold definition
  split_ifs <;> rfl

/-- No entry binds the attribute set itself to a value. -/
theorem Entries.isSet_of_path_eq_nil {es : Entries} {d : Definition} (h : d ∈ es.definitions)
    (hpath : d.path = []) : d.isSet := by
  induction es with
  | nil trivia => cases h
  | inherit trivia names text rest ih =>
    rcases List.mem_append.mp h with h | h
    · obtain ⟨name, -, rfl⟩ := List.mem_map.mp h
      cases hpath
    · exact ih h
  | leaf key value beforeSemi rest ih =>
    rcases List.mem_cons.mp h with rfl | h
    · unfold Binder.definition at hpath ⊢
      split_ifs at hpath ⊢ with hknown
      · exact absurd hpath hknown.1
      · rfl
    · exact ih h
  | set key recToken inner beforeSemi rest ihinner ih =>
    rcases List.mem_cons.mp h with rfl | h
    · exact Binder.definition_isSet
    · rcases List.mem_append.mp h with h | h
      · split_ifs at h with hknown
        · obtain ⟨d, -, rfl⟩ := List.mem_map.mp h
          exact absurd (List.append_eq_nil_iff.mp hpath).1 hknown.1
        · cases h
      · exact ih h

section Values

variable {path names : List Text} {value : Node}

theorem Node.definitions_append :
    value.definitions (names ++ path) = (value.definitions path).map (.under names) := by
  cases value with
  | leaf value => rfl
  | attrSet recToken entries =>
    rw [definitions, definitions, List.map_cons, List.map_map]
    refine congrArg (List.cons _) (List.map_congr_left fun d _ => ?_)
    rw [Function.comp_apply, Definition.under, Definition.under, Definition.under,
      List.append_assoc]

theorem pairwise_under {l : List Definition} :
    (l.map (.under names)).Pairwise Agree ↔ l.Pairwise Agree := by
  rw [List.pairwise_map]
  simp only [agree_under]

/-- What a well defined value defines agrees. -/
theorem Node.WellDefined.pairwise (h : value.WellDefined) :
    (value.definitions path).Pairwise Agree := by
  cases value with
  | leaf value => exact List.pairwise_singleton ..
  | attrSet recToken entries =>
    refine List.pairwise_cons.mpr ⟨fun d' hd' => ?_, pairwise_under.mpr h.1⟩
    obtain ⟨d, hd, rfl⟩ := List.mem_map.mp hd'
    refine ⟨fun _ => rfl, fun hbelow => ?_⟩
    have hlength : (path ++ d.path).length ≤ path.length := hbelow.length_le
    rw [List.length_append] at hlength
    have hnil : d.path.length = 0 := by omega
    have hset : d.isSet := Entries.isSet_of_path_eq_nil hd (List.length_eq_zero_iff.mp hnil)
    exact hset

end Values

/-! ## Definitions of one entry -/

section Entry

variable {key : Binder} {value new : Node} {beforeSemi : Text} {rest : Entries} {path : List Text}

/-- What the entry with this key and value defines. -/
def entryDefinitions (key : Binder) (value : Node) : List Definition :=
  if key.Known then value.definitions key.names else [⟨key.leading, true⟩]

theorem definitions_attrpathValue :
    (Entries.attrpathValue key value beforeSemi rest).definitions =
      entryDefinitions key value ++ rest.definitions := by
  unfold entryDefinitions
  cases value with
  | leaf value =>
    rw [Entries.attrpathValue, Entries.definitions, Binder.definition]
    split_ifs <;> rfl
  | attrSet recToken inner =>
    rw [Entries.attrpathValue, Entries.definitions, Binder.definition]
    split_ifs <;> rfl

theorem innerDefined_attrpathValue :
    (Entries.attrpathValue key value beforeSemi rest).InnerDefined ↔
      value.WellDefined ∧ rest.InnerDefined := by
  cases value with
  | leaf value => exact (iff_of_eq (true_and _)).symm
  | attrSet recToken inner => exact Iff.rfl

end Entry

/-! ## Where a binding goes -/

/-- The attribute set that an insertion of the path reaches last through an interpolated key, and
what is left of the path there. -/
def scopeOf : Entries → List Text → Option (Entries × List Text)
  | .nil _, _ => none
  | .inherit _ _ _ rest, path => scopeOf rest path
  | .leaf _ _ _ rest, path => scopeOf rest path
  | .set key _ inner _ rest, path =>
    if Apart key path then scopeOf rest path
    else
      match scopeOf inner (path.drop key.names.length) with
      | some scope => some scope
      | none => if key.Known then none else some (inner, path.drop key.names.length)

theorem not_apart_enter {key : Binder} {path : List Text} (hnames : key.names ≠ []) :
    ¬Apart key (key.names ++ path) := by
  rintro (h | h)
  · exact hnames h
  · exact h.2 (List.prefix_append ..)

section Descends

variable {es : Entries} {set : AttrSet} {start : ℕ} {path : List Text}
  {fill : Entries → Entries} {final : Text} {point : InsertPoint} {indent : Text} {value : Node}

theorem fits_inherit {trivia text : Text} {names : List Text} {rest : Entries} :
    Fits (.inherit trivia names text rest) path value ↔
      (∀ name ∈ names, ∀ d' ∈ value.definitions path, Agree ⟨[name], false⟩ d') ∧
        Fits rest path value := by
  simp only [Fits, Entries.definitions, List.forall_mem_append, List.forall_mem_map]

theorem fits_attrpathValue {key : Binder} {old : Node} {beforeSemi : Text} {rest : Entries} :
    Fits (.attrpathValue key old beforeSemi rest) path value ↔
      (∀ d ∈ entryDefinitions key old, ∀ d' ∈ value.definitions path, Agree d d') ∧
        Fits rest path value := by
  simp only [Fits, definitions_attrpathValue, List.forall_mem_append]

theorem fits_under {inner : Entries} {names : List Text} :
    (∀ d ∈ inner.definitions.map (.under names), ∀ d' ∈ value.definitions (names ++ path),
      Agree d d') ↔ Fits inner path value := by
  simp only [Fits, Node.definitions_append, List.forall_mem_map, agree_under]

/-- The key of a new entry is known. -/
theorem known_newKey {before after : Text} (hpath : path ≠ []) :
    (Binder.mk indent (dotted path) before after).Known := by
  refine ⟨by rwa [names_newKey], ?_⟩
  intro part hpart
  obtain ⟨p, hp, rfl⟩ := List.mem_map.mp hpart
  cases path with
  | nil => exact absurd rfl hpath
  | cons s segments =>
    rcases List.mem_cons.mp hp with rfl | hp
    · exact Option.some_ne_none _
    · obtain ⟨t, -, rfl⟩ := List.mem_map.mp hp
      exact Option.some_ne_none _

theorem definitions_newEntry (hpath : path ≠ []) :
    (newEntry indent path value final).definitions = value.definitions path := by
  rw [newEntry, definitions_attrpathValue, entryDefinitions, if_pos (known_newKey hpath),
    names_newKey]
  exact List.append_nil _

theorem innerDefined_newEntry :
    (newEntry indent path value final).InnerDefined ↔ value.WellDefined := by
  rw [newEntry, innerDefined_attrpathValue]
  exact and_iff_left trivial

/-- A new binding adds its definitions to those of the attribute set, unless it goes behind an
interpolated key. -/
theorem Descends.definitions (h : Descends es set start path fill final point) (hpath : path ≠ []) :
    match scopeOf es path with
    | none => (fill (newEntry indent point.remaining value final)).definitions.Perm
        (es.definitions ++ value.definitions path)
    | some _ => (fill (newEntry indent point.remaining value final)).definitions = es.definitions := by
  induction h with
  | done => exact (definitions_newEntry hpath) ▸ List.Perm.refl _
  | @afterInherit trivia text _ names rest _ _ path _ _ _ ih =>
    have ih := ih hpath
    rw [scopeOf]
    cases hscope : scopeOf rest path with
    | none =>
      rw [hscope] at ih
      simp only [Entries.definitions, List.append_assoc]
      exact ih.append_left _
    | some scope =>
      rw [hscope] at ih
      exact congrArg (names.map (fun name => ⟨[name], false⟩) ++ ·) ih
  | @afterLeaf key old beforeSemi _ rest _ _ path _ _ hapart _ ih =>
    have ih := ih hpath
    rw [scopeOf]
    cases hscope : scopeOf rest path with
    | none =>
      rw [hscope] at ih
      exact ih.cons _
    | some scope =>
      rw [hscope] at ih
      exact congrArg (key.definition false :: ·) ih
  | @afterSet key recToken inner rest beforeSemi _ _ _ path _ _ hapart _ ih =>
    have ih := ih hpath
    rw [scopeOf, if_pos hapart]
    cases hscope : scopeOf rest path with
    | none =>
      rw [hscope] at ih
      simp only [Entries.definitions, List.cons_append, List.append_assoc]
      exact (ih.append_left _).cons _
    | some scope =>
      rw [hscope] at ih
      simp only [Entries.definitions, ih]
  | @enter key recToken inner rest beforeSemi _ _ _ path _ _ hnames hrest _ ih =>
    have ih := ih hrest
    rw [scopeOf, if_neg (not_apart_enter hnames), List.drop_left]
    cases hscope : scopeOf inner path with
    | none =>
      rw [hscope] at ih
      dsimp only
      split_ifs with hknown
      · simp only [Entries.definitions, if_pos hknown, Node.definitions_append, List.cons_append,
          List.append_assoc]
        refine List.Perm.cons _ (((ih.map (.under key.names)).append_right rest.definitions).trans ?_)
        rw [List.map_append, List.append_assoc]
        exact List.perm_append_comm.append_left _
      · simp only [Entries.definitions, if_neg hknown]
    | some scope =>
      rw [hscope] at ih
      simp only [Entries.definitions, ih]

theorem pairwise_append_agree {l l' : List Definition} : (l ++ l').Pairwise Agree ↔
    (l.Pairwise Agree ∧ l'.Pairwise Agree) ∧ ∀ d ∈ l, ∀ d' ∈ l', Agree d d' := by
  rw [List.pairwise_append, and_assoc]

/-- What is left to check of the attribute sets inside, when a binding goes in. -/
def Settles (es new : Entries) (path : List Text) (value : Node) : Prop :=
  (new.InnerDefined → value.WellDefined) ∧
    match scopeOf es path with
    | none => value.WellDefined → Fits es path value → new.InnerDefined
    | some scope => value.WellDefined → (new.InnerDefined ↔ Fits scope.1 scope.2 value)

/-- An attribute set with a new binding is well defined when the value is, and the binding fits
the attribute set where its path starts. -/
theorem wellDefined_of_settles {es new : Entries} (hes : es.WellDefined)
    (hdefinitions : match scopeOf es path with
      | none => new.definitions.Perm (es.definitions ++ value.definitions path)
      | some _ => new.definitions = es.definitions) (h : Settles es new path value) :
    new.WellDefined ↔ value.WellDefined ∧
      Fits ((scopeOf es path).getD (es, path)).1 ((scopeOf es path).getD (es, path)).2 value := by
  obtain ⟨hvalue, hinner⟩ := h
  rw [Entries.WellDefined]
  cases hscope : scopeOf es path with
  | none =>
    rw [hscope] at hdefinitions hinner
    rw [hdefinitions.pairwise_iff Agree.symm, pairwise_append_agree]
    constructor
    · exact fun ⟨⟨_, hfits⟩, hnew⟩ => ⟨hvalue hnew, hfits⟩
    · exact fun ⟨hdefined, hfits⟩ => ⟨⟨⟨hes.1, hdefined.pairwise⟩, hfits⟩, hinner hdefined hfits⟩
  | some scope =>
    rw [hscope] at hdefinitions hinner
    dsimp only at hdefinitions
    rw [hdefinitions]
    constructor
    · exact fun ⟨_, hnew⟩ => ⟨hvalue hnew, (hinner (hvalue hnew)).mp hnew⟩
    · exact fun ⟨hdefined, hfits⟩ => ⟨hes.1, (hinner hdefined).mpr hfits⟩

theorem Descends.settles (h : Descends es set start path fill final point) (hpath : path ≠ [])
    (hes : es.InnerDefined) :
    Settles es (fill (newEntry indent point.remaining value final)) path value := by
  induction h with
  | done => exact ⟨innerDefined_newEntry.mp, fun hvalue _ => innerDefined_newEntry.mpr hvalue⟩
  | @afterInherit trivia text _ names rest _ _ path _ _ _ ih =>
    obtain ⟨hvalue, hinner⟩ := ih hpath hes
    refine ⟨hvalue, ?_⟩
    rw [scopeOf]
    cases hscope : scopeOf rest path with
    | none =>
      rw [hscope] at hinner
      exact fun hdefined hfits => hinner hdefined (fits_inherit.mp hfits).2
    | some scope =>
      rw [hscope] at hinner
      exact hinner
  | @afterLeaf key old beforeSemi _ rest _ _ path _ _ hapart _ ih =>
    obtain ⟨hvalue, hinner⟩ := ih hpath hes
    refine ⟨hvalue, ?_⟩
    rw [scopeOf]
    cases hscope : scopeOf rest path with
    | none =>
      rw [hscope] at hinner
      have hfits := @fits_attrpathValue path value key (.leaf old) beforeSemi rest
      exact fun hdefined hes => hinner hdefined (hfits.mp hes).2
    | some scope =>
      rw [hscope] at hinner
      exact hinner
  | @afterSet key recToken inner rest beforeSemi _ _ _ path _ _ hapart _ ih =>
    obtain ⟨hvalue, hinner⟩ := ih hpath hes.2
    refine ⟨fun hnew => hvalue hnew.2, ?_⟩
    rw [scopeOf, if_pos hapart]
    cases hscope : scopeOf rest path with
    | none =>
      rw [hscope] at hinner
      have hfits := @fits_attrpathValue path value key (.attrSet recToken inner) beforeSemi rest
      exact fun hdefined hold => ⟨hes.1, hinner hdefined (hfits.mp hold).2⟩
    | some scope =>
      rw [hscope] at hinner
      exact fun hdefined => (and_iff_right hes.1).trans (hinner hdefined)
  | @enter key recToken inner rest beforeSemi _ _ _ path fill _ hnames hrest hdescends ih =>
    have hnew := wellDefined_of_settles hes.1 (hdescends.definitions hrest) (ih hrest hes.1.2)
    refine ⟨fun h => (hnew.mp h.1).1, ?_⟩
    rw [scopeOf, if_neg (not_apart_enter hnames), List.drop_left]
    cases hscope : scopeOf inner path with
    | none =>
      rw [hscope] at hnew
      dsimp only
      split_ifs with hknown
      · intro hdefined hfits
        refine ⟨hnew.mpr ⟨hdefined, fits_under.mp fun d hd => hfits d ?_⟩, hes.2⟩
        rw [Entries.definitions, if_pos hknown]
        exact List.mem_cons_of_mem _ (List.mem_append_left _ hd)
      · exact fun hdefined => (and_iff_left hes.2).trans (hnew.trans (and_iff_right hdefined))
    | some scope =>
      rw [hscope] at hnew
      exact fun hdefined => (and_iff_left hes.2).trans (hnew.trans (and_iff_right hdefined))

/-- An insertion goes on from the attribute set behind an interpolated key as from any other. -/
theorem Descends.scope (h : Descends es set start path fill final point) (hpath : path ≠ [])
    {scope : Entries × List Text} (hscope : scopeOf es path = some scope) :
    scope.2 ≠ [] ∧ ∃ set start fill, Descends scope.1 set start scope.2 fill final point := by
  induction h with
  | done => cases hscope
  | afterInherit _ ih => exact ih hpath hscope
  | afterLeaf _ _ ih => exact ih hpath hscope
  | afterSet hapart _ ih =>
    rw [scopeOf, if_pos hapart] at hscope
    exact ih hpath hscope
  | @enter key recToken inner rest beforeSemi _ _ _ path _ _ hnames hrest hdescends ih =>
    rw [scopeOf, if_neg (not_apart_enter hnames), List.drop_left] at hscope
    cases hinner : scopeOf inner path with
    | some scope' =>
      rw [hinner] at hscope
      cases hscope
      exact ih hrest hinner
    | none =>
      rw [hinner] at hscope
      dsimp only at hscope
      split_ifs at hscope
      cases hscope
      exact ⟨hrest, _, _, _, hdescends⟩

end Descends

end Dashboard
end Cococoir
