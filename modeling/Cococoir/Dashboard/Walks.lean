import Cococoir.Dashboard.Editor

/-!
# The walks of a lookup and of an insertion

What a lookup finds and where an insertion goes are places in a tree; here they are relations that
carry the keys walked through and the tree around the place, so that an edit of the text can be
read as an edit of the tree.

* `Leads`: the way to a value, `leads_of_findInAttrset`.
* `Descends`: the way to an insertion point, `descends_of_descend`.
* `Leads.around`, `Descends.around`: the text around the place stays.

## From functions to relations

`findInAttrset` and `descend` return a place and forget the way to it.  To say what an edit does
one needs the way: which keys were walked through, which entries were passed, and what the tree is
with something else in the place.  `Leads` and `Descends` have this as arguments.  Their
constructors are the steps of the walk (past an entry, to its value, into its attribute set), and
`fill` is a function that makes the tree around the place for any contents.  Two lemmas come from
functions to relations, by the recursion of each function; everything after that is an induction
on the way.

## Text

`Around` says of two lists of entries, one of them with the place filled otherwise, that they have
the same text before the place and the same text after it.  Each kind of entry keeps it, and so
does each step.  The offset of the place is then the length of the text before it, and the slices
that the source takes, with offsets into the whole file, are the parts of this equation:
`StandsAt`.
-/

namespace Cococoir
namespace Dashboard

/-! ## Agreement of names and a path -/

theorem agrees_iff {names path : List Text} (h : names.length ≤ path.length) :
    agrees names path ↔ names <+: path := by
  induction names generalizing path with
  | nil => simp [agrees]
  | cons n names ih =>
    cases path with
    | nil => simp at h
    | cons p path =>
      have ih := ih (Nat.le_of_succ_le_succ h)
      unfold agrees at ih ⊢
      rw [List.zip_cons_cons, List.all_cons, Bool.and_eq_true, ih, List.cons_prefix_cons,
        decide_eq_true_eq]

theorem isStrictPrefix_iff {short long : List Text} :
    isStrictPrefix short long ↔ short.length < long.length ∧ short <+: long := by
  unfold isStrictPrefix
  rw [Bool.and_eq_true, decide_eq_true_eq]
  exact and_congr_right fun h => agrees_iff (Nat.le_of_lt h)

/-- A lookup goes past the entry: its key has no name, or is longer than the path, or differs. -/
def Passed (key : Binder) (path : List Text) : Prop :=
  key.names = [] ∨ path.length < key.names.length ∨ ¬key.names <+: path

instance (key : Binder) (path : List Text) : Decidable (Passed key path) :=
  inferInstanceAs (Decidable (_ ∨ _ ∨ ¬_))

/-- How a lookup asks for the way on, and how it compares a key and a path. -/
theorem ite_passed {β : Type} (key : Binder) (path : List Text) (skip here deeper : β) :
    (if key.names = [] ∨ path.length < key.names.length then skip
      else if !agrees key.names path then skip
      else if key.names.length = path.length then here
      else deeper) =
      if Passed key path then skip else if key.names = path then here else deeper := by
  by_cases hskip : key.names = [] ∨ path.length < key.names.length
  · have hpassed : Passed key path := hskip.imp_right Or.inl
    rw [if_pos hskip, if_pos hpassed]
  · have hle : key.names.length ≤ path.length := Nat.not_lt.mp fun h => hskip (Or.inr h)
    by_cases hstarts : key.names <+: path
    · have hagrees : (!agrees key.names path) ≠ true := by
        rw [(agrees_iff hle).mpr hstarts]
        exact Bool.false_ne_true
      have hpassed : ¬Passed key path := by
        rintro (h | h | h)
        · exact hskip (Or.inl h)
        · exact hskip (Or.inr h)
        · exact h hstarts
      have hlength : key.names.length = path.length ↔ key.names = path :=
        ⟨hstarts.eq_of_length, congrArg _⟩
      simp only [if_neg hskip, if_neg hagrees, if_neg hpassed, hlength]
    · have hagrees : (!agrees key.names path) = true := by
        rw [Bool.not_eq_true', ← Bool.not_eq_true]
        exact fun h => hstarts ((agrees_iff hle).mp h)
      have hpassed : Passed key path := Or.inr (Or.inr hstarts)
      rw [if_neg hskip, if_pos hagrees, if_pos hpassed]

/-- A key that is not passed and is not the path leads on to the rest of it. -/
theorem exists_rest {key : Binder} {path : List Text} (hpassed : ¬Passed key path)
    (hpath : key.names ≠ path) : ∃ rest, rest ≠ [] ∧ path = key.names ++ rest := by
  have hstarts : key.names <+: path := not_not.mp fun h => hpassed (Or.inr (Or.inr h))
  obtain ⟨rest, rfl⟩ := hstarts
  refine ⟨rest, fun h => hpath ?_, rfl⟩
  rw [h, List.append_nil]

/-! ## The text around a place -/

/-- Where the entry after a value starts. -/
abbrev Binder.next (key : Binder) (value : Node) (beforeSemi : Text) (start : ℕ) : ℕ :=
  start + key.text.length + value.text.length + beforeSemi.length + 1

/-- The entries that start at `start` have the same text around what is at `pos`, whatever that
is. -/
def Around {α : Type} (text : α → Text) (fill : α → Entries) (start pos : ℕ) : Prop :=
  ∃ before after, pos = start + before.length ∧ ∀ v, (fill v).text = before ++ (text v ++ after)

section Around

variable {α : Type} {text : α → Text} {fill : α → Entries} {start pos : ℕ}

theorem Around.inherit {trivia source : Text} {names : List Text}
    (h : Around text fill (start + trivia.length + source.length) pos) :
    Around text (fun v => .inherit trivia names source (fill v)) start pos := by
  obtain ⟨before, after, rfl, htext⟩ := h
  refine ⟨trivia ++ (source ++ before), after, ?_, fun v => ?_⟩
  · simp only [List.length_append]
    omega
  · simp [Entries.text, htext]

theorem Around.leaf {key : Binder} {value : Leaf} {beforeSemi : Text}
    (h : Around text fill (key.next (.leaf value) beforeSemi start) pos) :
    Around text (fun v => .leaf key value beforeSemi (fill v)) start pos := by
  obtain ⟨before, after, rfl, htext⟩ := h
  refine ⟨key.text ++ (value.text ++ (beforeSemi ++ ';' :: before)), after, ?_, fun v => ?_⟩
  · simp only [Binder.next, Node.text, List.length_append, List.length_cons]
    omega
  · simp [Entries.text, htext]

theorem Around.set {key : Binder} {recToken : Option Text} {inner : Entries} {beforeSemi : Text}
    (h : Around text fill (key.next (.attrSet recToken inner) beforeSemi start) pos) :
    Around text (fun v => .set key recToken inner beforeSemi (fill v)) start pos := by
  obtain ⟨before, after, rfl, htext⟩ := h
  refine ⟨key.text ++ ((Node.attrSet recToken inner).text ++ (beforeSemi ++ ';' :: before)), after,
    ?_, fun v => ?_⟩
  · simp only [Binder.next, List.length_append, List.length_cons]
    omega
  · simp [Entries.text, Node.text, htext]

theorem Around.inside {key : Binder} {recToken : Option Text} {rest : Entries} {beforeSemi : Text}
    (h : Around text fill (start + key.text.length + (openText recToken).length) pos) :
    Around text (fun v => .set key recToken (fill v) beforeSemi rest) start pos := by
  obtain ⟨before, after, rfl, htext⟩ := h
  refine ⟨key.text ++ (openText recToken ++ before),
    after ++ '}' :: (beforeSemi ++ ';' :: rest.text), ?_, fun v => ?_⟩
  · simp only [List.length_append]
    omega
  · simp [Entries.text, htext]

theorem Around.value {key : Binder} {beforeSemi : Text} {rest : Entries} :
    Around Node.text (fun v => .attrpathValue key v beforeSemi rest) start
      (start + key.text.length) :=
  ⟨key.text, beforeSemi ++ ';' :: rest.text, rfl, by simp⟩

end Around

/-! ## The way to a value -/

/-- The names of some keys, one after the other, lead through entries to a value; `fill` is the
tree with another value there. -/
inductive Leads : Entries → ℕ → List Text → List Binder → (Node → Entries) → Located → Prop
  | hereLeaf {key : Binder} {value : Leaf} {beforeSemi : Text} {rest : Entries} {start : ℕ} :
    Leads (.leaf key value beforeSemi rest) start key.names [key]
      (fun v => .attrpathValue key v beforeSemi rest) ⟨start + key.text.length, .leaf value⟩
  | hereSet {key : Binder} {recToken : Option Text} {inner rest : Entries} {beforeSemi : Text}
      {start : ℕ} :
    Leads (.set key recToken inner beforeSemi rest) start key.names [key]
      (fun v => .attrpathValue key v beforeSemi rest)
      ⟨start + key.text.length, .attrSet recToken inner⟩
  | inside {key : Binder} {recToken : Option Text} {inner rest : Entries} {beforeSemi : Text}
      {start : ℕ} {path : List Text} {keys : List Binder} {fill : Node → Entries} {loc : Located}
      (h : Leads inner (start + key.text.length + (openText recToken).length) path keys fill loc) :
    Leads (.set key recToken inner beforeSemi rest) start (key.names ++ path) (key :: keys)
      (fun v => .set key recToken (fill v) beforeSemi rest) loc
  | afterInherit {trivia text : Text} {names : List Text} {rest : Entries} {start : ℕ}
      {path : List Text} {keys : List Binder} {fill : Node → Entries} {loc : Located}
      (h : Leads rest (start + trivia.length + text.length) path keys fill loc) :
    Leads (.inherit trivia names text rest) start path keys
      (fun v => .inherit trivia names text (fill v)) loc
  | afterLeaf {key : Binder} {value : Leaf} {beforeSemi : Text} {rest : Entries} {start : ℕ}
      {path : List Text} {keys : List Binder} {fill : Node → Entries} {loc : Located}
      (h : Leads rest (key.next (.leaf value) beforeSemi start) path keys fill loc) :
    Leads (.leaf key value beforeSemi rest) start path keys
      (fun v => .leaf key value beforeSemi (fill v)) loc
  | afterSet {key : Binder} {recToken : Option Text} {inner rest : Entries} {beforeSemi : Text}
      {start : ℕ} {path : List Text} {keys : List Binder} {fill : Node → Entries} {loc : Located}
      (h : Leads rest (key.next (.attrSet recToken inner) beforeSemi start) path keys fill loc) :
    Leads (.set key recToken inner beforeSemi rest) start path keys
      (fun v => .set key recToken inner beforeSemi (fill v)) loc

/-- The keys that a lookup walks through to the value that it finds. -/
def findKeys : Entries → List Text → Option (List Binder)
  | .nil _, _ => none
  | .inherit _ _ _ rest, path => findKeys rest path
  | .leaf key _ _ rest, path =>
    if key.names = [] ∨ path.length < key.names.length then findKeys rest path
    else if !agrees key.names path then findKeys rest path
    else if key.names.length = path.length then some [key]
    else findKeys rest path
  | .set key _ inner _ rest, path =>
    if key.names = [] ∨ path.length < key.names.length then findKeys rest path
    else if !agrees key.names path then findKeys rest path
    else if key.names.length = path.length then some [key]
    else
      match findKeys inner (path.drop key.names.length) with
      | some keys => some (key :: keys)
      | none => findKeys rest path

/-- A lookup finds nothing and walks nowhere, or its keys lead to what it finds. -/
def Finds (es : Entries) (start : ℕ) (path : List Text) (found : Option Located)
    (walked : Option (List Binder)) : Prop :=
  (found = none ∧ walked = none) ∨
    ∃ keys fill loc, found = some loc ∧ walked = some keys ∧ Leads es start path keys fill loc

theorem finds (es : Entries) (start : ℕ) (path : List Text) :
    Finds es start path (findInAttrset es start path) (findKeys es path) := by
  induction es generalizing start path with
  | nil trivia => exact Or.inl ⟨rfl, rfl⟩
  | inherit trivia names text rest ih =>
    exact (ih _ path).imp_right fun ⟨keys, _, loc, hf, hk, h⟩ =>
      ⟨keys, _, loc, hf, hk, .afterInherit h⟩
  | leaf key value beforeSemi rest ih =>
    have hafter : Finds (.leaf key value beforeSemi rest) start path
        (findInAttrset rest (key.next (.leaf value) beforeSemi start) path) (findKeys rest path) :=
      (ih _ path).imp_right fun ⟨keys, _, loc, hf, hk, h⟩ => ⟨keys, _, loc, hf, hk, .afterLeaf h⟩
    simp only [findInAttrset, findKeys, ite_passed]
    split_ifs with hpassed hpath
    · exact hafter
    · subst hpath
      exact Or.inr ⟨_, _, _, rfl, rfl, .hereLeaf⟩
    · exact hafter
  | set key recToken inner beforeSemi rest ihinner ih =>
    have hafter : Finds (.set key recToken inner beforeSemi rest) start path
        (findInAttrset rest (key.next (.attrSet recToken inner) beforeSemi start) path)
        (findKeys rest path) :=
      (ih _ path).imp_right fun ⟨keys, _, loc, hf, hk, h⟩ => ⟨keys, _, loc, hf, hk, .afterSet h⟩
    simp only [findInAttrset, findKeys, ite_passed]
    split_ifs with hpassed hpath
    · exact hafter
    · subst hpath
      exact Or.inr ⟨_, _, _, rfl, rfl, .hereSet⟩
    · obtain ⟨deeper, -, rfl⟩ := exists_rest hpassed hpath
      rw [List.drop_left]
      rcases ihinner (AttrSet.inside ⟨start + key.text.length, recToken, inner⟩) deeper with
        ⟨hf, hk⟩ | ⟨keys, fill, loc, hf, hk, h⟩
      · rw [hf, hk]
        exact hafter
      · rw [hf, hk]
        exact Or.inr ⟨_, _, _, rfl, rfl, .inside h⟩

/-- What a lookup finds, some keys lead to. -/
theorem leads_of_findInAttrset {es : Entries} {start : ℕ} {path : List Text} {loc : Located}
    (h : findInAttrset es start path = some loc) : ∃ keys fill, Leads es start path keys fill loc := by
  rcases finds es start path with ⟨hnone, -⟩ | ⟨keys, fill, loc', hsome, -, hleads⟩
  · rw [hnone] at h
    cases h
  · rw [hsome] at h
    cases h
    exact ⟨keys, fill, hleads⟩

section Leads

variable {es : Entries} {start : ℕ} {path : List Text} {keys : List Binder} {fill : Node → Entries}
  {loc : Located}

theorem Leads.fill_node (h : Leads es start path keys fill loc) : fill loc.node = es := by
  induction h with
  | hereLeaf => rfl
  | hereSet => rfl
  | @inside key recToken _ rest beforeSemi _ _ _ _ _ _ ih =>
    exact congrArg (Entries.set key recToken · beforeSemi rest) ih
  | @afterInherit trivia text names _ _ _ _ _ _ _ ih =>
    exact congrArg (Entries.inherit trivia names text) ih
  | @afterLeaf key value beforeSemi _ _ _ _ _ _ _ ih =>
    exact congrArg (Entries.leaf key value beforeSemi) ih
  | @afterSet key recToken inner _ beforeSemi _ _ _ _ _ _ ih =>
    exact congrArg (Entries.set key recToken inner beforeSemi) ih

/-- The text around a value stays when the value is replaced. -/
theorem Leads.around (h : Leads es start path keys fill loc) :
    Around Node.text fill start loc.start := by
  induction h with
  | hereLeaf => exact .value
  | hereSet => exact .value
  | inside _ ih => exact ih.inside
  | afterInherit _ ih => exact ih.inherit
  | afterLeaf _ ih => exact ih.leaf
  | afterSet _ ih => exact ih.set

end Leads

/-! ## The way to an insertion point -/

/-- An insertion goes past the entry: its key has no name, or differs from the path before either
ends. -/
def Apart (key : Binder) (path : List Text) : Prop :=
  key.names = [] ∨ ¬path <+: key.names ∧ ¬key.names <+: path

/-- An insertion of `path` among entries of `set` goes to `point`; `fill` is the tree with more
entries there, before the trivia that end the attribute set. -/
inductive Descends : Entries → AttrSet → ℕ → List Text → (Entries → Entries) → Text →
    InsertPoint → Prop
  | done {trivia : Text} {set : AttrSet} {start : ℕ} {path : List Text} :
    Descends (.nil trivia) set start path id trivia ⟨set, path⟩
  | afterInherit {trivia text final : Text} {names : List Text} {rest : Entries} {set : AttrSet}
      {start : ℕ} {path : List Text} {fill : Entries → Entries} {point : InsertPoint}
      (h : Descends rest set (start + trivia.length + text.length) path fill final point) :
    Descends (.inherit trivia names text rest) set start path
      (fun e => .inherit trivia names text (fill e)) final point
  | afterLeaf {key : Binder} {value : Leaf} {beforeSemi final : Text} {rest : Entries}
      {set : AttrSet} {start : ℕ} {path : List Text} {fill : Entries → Entries}
      {point : InsertPoint} (hapart : Apart key path)
      (h : Descends rest set (key.next (.leaf value) beforeSemi start) path fill final point) :
    Descends (.leaf key value beforeSemi rest) set start path
      (fun e => .leaf key value beforeSemi (fill e)) final point
  | afterSet {key : Binder} {recToken : Option Text} {inner rest : Entries}
      {beforeSemi final : Text} {set : AttrSet} {start : ℕ} {path : List Text}
      {fill : Entries → Entries} {point : InsertPoint} (hapart : Apart key path)
      (h : Descends rest set (key.next (.attrSet recToken inner) beforeSemi start) path fill final
        point) :
    Descends (.set key recToken inner beforeSemi rest) set start path
      (fun e => .set key recToken inner beforeSemi (fill e)) final point
  | enter {key : Binder} {recToken : Option Text} {inner rest : Entries}
      {beforeSemi final : Text} {set : AttrSet} {start : ℕ} {path : List Text}
      {fill : Entries → Entries} {point : InsertPoint} (hnames : key.names ≠ []) (hpath : path ≠ [])
      (h : Descends inner ⟨start + key.text.length, recToken, inner⟩
        (start + key.text.length + (openText recToken).length) path fill final point) :
    Descends (.set key recToken inner beforeSemi rest) set start (key.names ++ path)
      (fun e => .set key recToken (fill e) beforeSemi rest) final point

instance (key : Binder) (path : List Text) : Decidable (Apart key path) :=
  inferInstanceAs (Decidable (_ ∨ ¬_ ∧ ¬_))

/-- How an insertion asks for the way on, and how it compares a key and a path. -/
theorem ite_apart {β : Type} (key : Binder) (path : List Text) (skip deeper blocked : β) :
    (if key.names = [] ∨ path.length < key.names.length then
        if key.names ≠ [] ∧ isStrictPrefix path key.names then blocked else skip
      else if !agrees key.names path then skip
      else if key.names.length = path.length then blocked
      else deeper) =
      if Apart key path then skip
      else if Passed key path ∨ key.names = path then blocked else deeper := by
  by_cases hnil : key.names = []
  · have hapart : Apart key path := Or.inl hnil
    rw [if_pos (Or.inl hnil), if_neg fun h => h.1 hnil, if_pos hapart]
  by_cases hlength : path.length < key.names.length
  · rw [if_pos (Or.inr hlength)]
    have hnot : ¬key.names <+: path := fun h => Nat.not_le.mpr hlength h.length_le
    by_cases hstarts : path <+: key.names
    · have happart : ¬Apart key path := by
        rintro (h | ⟨h, -⟩)
        · exact hnil h
        · exact h hstarts
      have hpassed : Passed key path := Or.inr (Or.inl hlength)
      rw [if_pos ⟨hnil, isStrictPrefix_iff.mpr ⟨hlength, hstarts⟩⟩, if_neg happart,
        if_pos (Or.inl hpassed)]
    · have hapart : Apart key path := Or.inr ⟨hstarts, hnot⟩
      rw [if_neg fun h => hstarts (isStrictPrefix_iff.mp h.2).2, if_pos hapart]
  · have hle := Nat.not_lt.mp hlength
    rw [if_neg (not_or.mpr ⟨hnil, hlength⟩)]
    by_cases hstarts : key.names <+: path
    · have hagrees : (!agrees key.names path) ≠ true := by
        rw [(agrees_iff hle).mpr hstarts]
        exact Bool.false_ne_true
      have happart : ¬Apart key path := by
        rintro (h | ⟨-, h⟩)
        · exact hnil h
        · exact h hstarts
      have hblocked : (Passed key path ∨ key.names = path) ↔ key.names.length = path.length := by
        constructor
        · rintro ((h | h | h) | h)
          · exact absurd h hnil
          · exact absurd h hlength
          · exact absurd hstarts h
          · rw [h]
        · exact fun h => Or.inr (hstarts.eq_of_length h)
      simp only [if_neg hagrees, if_neg happart, hblocked]
    · have hagrees : (!agrees key.names path) = true := by
        rw [Bool.not_eq_true', ← Bool.not_eq_true]
        exact fun h => hstarts ((agrees_iff hle).mp h)
      have hback : ¬path <+: key.names := fun h =>
        hstarts (h.eq_of_length (Nat.le_antisymm h.length_le hle) ▸ List.prefix_rfl)
      have hapart : Apart key path := Or.inr ⟨hback, hstarts⟩
      rw [if_pos hagrees, if_pos hapart]

/-- Where an insertion goes. -/
theorem descends_of_descend {es : Entries} {set : AttrSet} {start : ℕ} {path : List Text}
    {point : InsertPoint} (h : descend es set start path = some point) :
    ∃ fill final, Descends es set start path fill final point := by
  induction es generalizing set start path with
  | nil trivia =>
    cases h
    exact ⟨_, _, .done⟩
  | inherit trivia names text rest ih =>
    obtain ⟨fill, final, hdescends⟩ := ih h
    exact ⟨_, _, .afterInherit hdescends⟩
  | leaf key value beforeSemi rest ih =>
    simp only [descend, ite_apart] at h
    split_ifs at h with hapart
    obtain ⟨fill, final, hdescends⟩ := ih h
    exact ⟨_, _, .afterLeaf hapart hdescends⟩
  | set key recToken inner beforeSemi rest ihinner ih =>
    simp only [descend, ite_apart] at h
    split_ifs at h with hapart hblocked
    · obtain ⟨fill, final, hdescends⟩ := ih h
      exact ⟨_, _, .afterSet hapart hdescends⟩
    · rw [not_or] at hblocked
      obtain ⟨deeper, hdeeper, rfl⟩ := exists_rest hblocked.1 hblocked.2
      rw [List.drop_left] at h
      obtain ⟨fill, final, hdescends⟩ := ihinner h
      have hnames : key.names ≠ [] := fun hnil => hblocked.1 (Or.inl hnil)
      exact ⟨_, _, .enter hnames hdeeper hdescends⟩

section Descends

variable {es : Entries} {set : AttrSet} {start : ℕ} {path : List Text}
  {fill : Entries → Entries} {final : Text} {point : InsertPoint}

theorem Descends.fill_nil (h : Descends es set start path fill final point) :
    fill (.nil final) = es := by
  induction h with
  | done => rfl
  | @afterInherit trivia text _ names _ _ _ _ _ _ _ ih =>
    exact congrArg (Entries.inherit trivia names text) ih
  | @afterLeaf key value beforeSemi _ _ _ _ _ _ _ _ _ ih =>
    exact congrArg (Entries.leaf key value beforeSemi) ih
  | @afterSet key recToken inner _ beforeSemi _ _ _ _ _ _ _ _ ih =>
    exact congrArg (Entries.set key recToken inner beforeSemi) ih
  | @enter key recToken _ rest beforeSemi _ _ _ _ _ _ _ _ _ ih =>
    exact congrArg (Entries.set key recToken · beforeSemi rest) ih

theorem Descends.remaining_ne (h : Descends es set start path fill final point) (hpath : path ≠ []) :
    point.remaining ≠ [] := by
  induction h with
  | done => exact hpath
  | afterInherit _ ih => exact ih hpath
  | afterLeaf _ _ ih => exact ih hpath
  | afterSet _ _ ih => exact ih hpath
  | enter _ hrest _ ih => exact ih hrest

/-- Where the last of the entries that start at an offset ends. -/
def Entries.lastEnd (es : Entries) (start : ℕ) : ℕ := (es.ends start).getLast?.getD start

theorem getLast?_cons_getD (n start : ℕ) (l : List ℕ) :
    (n :: l).getLast?.getD start = l.getLast?.getD n := by
  cases l with
  | nil => rfl
  | cons m l => rw [List.getLast?_cons_cons, List.getLast?_cons, Option.getD_some, Option.getD_some]

/-- The text of the walked entries stays when more are inserted, and these go after the last entry
of the set. -/
theorem Descends.around (h : Descends es set start path fill final point)
    (hset : set.entries.lastEnd set.inside = es.lastEnd start) :
    Around Entries.text fill start (point.attrset.entries.lastEnd point.attrset.inside) := by
  induction h with
  | done =>
    rw [hset]
    exact ⟨[], [], rfl, by simp⟩
  | afterInherit _ ih => exact (ih (hset.trans (getLast?_cons_getD ..))).inherit
  | afterLeaf _ _ ih => exact (ih (hset.trans (getLast?_cons_getD ..))).leaf
  | afterSet _ _ ih => exact (ih (hset.trans (getLast?_cons_getD ..))).set
  | enter _ _ _ ih => exact (ih rfl).inside

end Descends

/-! ## Slices of the source -/

/-- What stands in the source from an offset on. -/
def StandsAt (source : Text) (start : ℕ) (text : Text) : Prop :=
  ∃ before after, source = before ++ (text ++ after) ∧ before.length = start

section StandsAt

variable {source a b : Text} {start : ℕ}

theorem StandsAt.left (h : StandsAt source start (a ++ b)) : StandsAt source start a := by
  obtain ⟨before, after, rfl, hstart⟩ := h
  exact ⟨before, b ++ after, by simp, hstart⟩

theorem StandsAt.right (h : StandsAt source start (a ++ b)) :
    StandsAt source (start + a.length) b := by
  obtain ⟨before, after, rfl, rfl⟩ := h
  exact ⟨before ++ a, after, by simp, by simp⟩

theorem StandsAt.slice (h : StandsAt source start a) : (source.drop start).take a.length = a := by
  obtain ⟨before, after, rfl, rfl⟩ := h
  rw [List.drop_left, List.take_left]

theorem StandsAt.rest {key value semi : Text} (h : StandsAt source start
    (key ++ (value ++ (semi ++ ';' :: a)))) :
    StandsAt source (start + key.length + value.length + semi.length + 1) a :=
  StandsAt.right (a := [';']) h.right.right.right

end StandsAt

/-- An insertion goes to an attribute set that stands in the source. -/
theorem Descends.standsAt {es : Entries} {set : AttrSet} {start : ℕ} {path : List Text}
    {fill : Entries → Entries} {final : Text} {point : InsertPoint} {source : Text}
    (h : Descends es set start path fill final point)
    (hset : StandsAt source set.start set.text) (hes : StandsAt source start es.text) :
    StandsAt source point.attrset.start point.attrset.text := by
  have hassoc : ∀ {key recToken inner beforeSemi rest}, (Entries.set key recToken inner beforeSemi
      rest).text = key.text ++ ((Node.attrSet recToken inner).text ++
        (beforeSemi ++ ';' :: rest.text)) := by simp [Entries.text, Node.text]
  induction h with
  | done => exact hset
  | afterInherit _ ih => exact ih hset hes.right.right
  | afterLeaf _ _ ih => exact ih hset hes.rest
  | afterSet _ _ ih =>
    rw [hassoc] at hes
    exact ih hset hes.rest
  | enter _ _ _ ih =>
    have hinner := hes.right.right.left
    rw [hassoc] at hes
    exact ih hes.right.left hinner

end Dashboard
end Cococoir
