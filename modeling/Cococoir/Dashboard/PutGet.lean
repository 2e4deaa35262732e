import Cococoir.Dashboard.Locality

/-!
# What an edit leaves to be found

A lookup of the edited path finds the value that was set, when the text that is spliced in means
that value.  Nix reads a quoted string by its own rules, `unquote`: the escapes that are written
are the ones that it knows, but the `${` that starts an interpolation is not written as an escape.

* `nixLiteral`: what a text means, as a boolean, a string or a list of strings.
* `nixLiteral_toSource`: a rendered value means itself exactly if it starts no interpolation.
* `slot_of_setAttrpath`: the place of an edit, before it and after it.
* `setAttrpath_finds`: when the value that was set is found.
* `setAttrpath_again`: a second edit of the path undoes the first.

## Quoting and reading

`quoteNixString` escapes five characters, and the language knows more escapes than it writes.
That reading undoes quoting is an induction on the text, character by character, with one thing
to watch: what a dollar sign means depends on the character after it, and this one is quoted, too.
`head?_quoted` says which characters a quoted text can begin with.  A dollar sign followed by a
brace is left as it is, so it begins an interpolation, and then the text is no literal: the law is
an equivalence.

## The place of an edit

An edit splits the file in two parts with the value's text between them.  `Slot` says that every
further edit of the path writes between the same two parts.  This gives the laws of a lens without
a look at the tree: to set what is found writes the characters that stand there, and of two
settings the second alone counts.  An insertion makes a slot, as long as its own lookup finds the
new entry; here the new key has to be made of identifiers, since a part with a dot is read as two.

What the parser does with the edited text is taken from `Dashboard.Reading`.
-/

namespace Cococoir
namespace Dashboard

open Concurrency (Outcome)

/-! ## Literals of the language -/

/-- The character that an escape stands for. -/
def unescapeChar : Char → Char
  | 'n' => '\n'
  | 't' => '\t'
  | 'r' => '\r'
  | c => c

/-- The text of a string, from after its opening quote, and what follows its closing quote; `none`
when the string interpolates or does not end. -/
def unquote : Text → Option (Text × Text)
  | [] => none
  | '"' :: rest => some ([], rest)
  | ['\\'] => none
  | '\\' :: c :: s => (unquote s).map fun p => (unescapeChar c :: p.1, p.2)
  | '$' :: '{' :: _ => none
  -- the second dollar sign starts nothing
  | '$' :: '$' :: s => (unquote s).map fun p => ('$' :: '$' :: p.1, p.2)
  | c :: s => (unquote s).map fun p => (c :: p.1, p.2)

theorem unquote_length {s t rest : Text} (h : unquote s = some (t, rest)) : rest.length < s.length := by
  induction s using unquote.induct generalizing t with
  | case1 => cases h
  | case2 rest' =>
    obtain ⟨-, rfl⟩ := Prod.mk.inj (Option.some.inj h)
    exact Nat.lt_succ_self _
  | case3 => cases h
  | case4 c s ih =>
    obtain ⟨p, hp, heq⟩ := Option.map_eq_some_iff.mp h
    obtain ⟨-, rfl⟩ := Prod.mk.inj heq
    exact Nat.lt_succ_of_lt (Nat.lt_succ_of_lt (ih hp))
  | case5 s => cases h
  | case6 s ih =>
    obtain ⟨p, hp, heq⟩ := Option.map_eq_some_iff.mp h
    obtain ⟨-, rfl⟩ := Prod.mk.inj heq
    exact Nat.lt_succ_of_lt (Nat.lt_succ_of_lt (ih hp))
  | case7 c s h₁ h₂ h₃ h₄ h₅ ih =>
    rw [unquote] at h
    · obtain ⟨p, hp, heq⟩ := Option.map_eq_some_iff.mp h
      obtain ⟨-, rfl⟩ := Prod.mk.inj heq
      exact Nat.lt_succ_of_lt (ih hp)
    all_goals assumption

/-- The strings of a list, from after its opening bracket. -/
def unquoteItems : Text → Option (List Text)
  | [']'] => some []
  | ' ' :: s => unquoteItems s
  | '"' :: s =>
    match _h : unquote s with
    | some (t, rest) => (unquoteItems rest).map (t :: ·)
    | none => none
  | _ => none
termination_by s => s.length
decreasing_by
  · exact Nat.lt_succ_self _
  · exact Nat.lt_succ_of_lt (unquote_length _h)

/-- What a text means, if it is a boolean, a string or a list of strings without interpolations. -/
def nixLiteral (text : Text) : Option NixValue :=
  if text = "true".toList then some (.bool true)
  else if text = "false".toList then some (.bool false)
  else
    match text with
    | '"' :: s => (unquote s).bind fun p => if p.2 = [] then some (.str p.1) else none
    | '[' :: s => (unquoteItems s).map .strList
    | _ => none

/-! ## What is quoted -/

/-- A character that is escaped stands for itself, unless it is a dollar sign before a brace or
before another one. -/
theorem unquote_escapeChar {c : Char} {s : Text}
    (h : c = '$' → s.head? ≠ some '{' ∧ s.head? ≠ some '$') :
    unquote (escapeChar c ++ s) = (unquote s).map fun p => (c :: p.1, p.2) := by
  have hplain : ∀ {c}, c ≠ '"' → c ≠ '\\' → (c = '$' → s.head? ≠ some '{' ∧ s.head? ≠ some '$') →
      unquote (c :: s) = (unquote s).map fun p => (c :: p.1, p.2) := by
    intro c hquote hslash hdollar
    rw [unquote]
    · exact hquote
    · exact fun hc _ => hslash hc
    · exact fun _ _ hc _ => hslash hc
    · rintro t hc rfl
      exact (hdollar hc).1 rfl
    · rintro t hc rfl
      exact (hdollar hc).2 rfl
  unfold escapeChar
  split
  · rfl
  · rfl
  · rfl
  · rfl
  · rfl
  · rename_i hquote hslash hline htab hreturn
    exact hplain hquote hslash h

/-- No quoted text starts with a character that the text does not start with, save the two that
quoting adds. -/
theorem head?_quoted {d : Char} {s rest : Text} (hs : ∀ t, s ≠ d :: t) (hquote : d ≠ '"')
    (hslash : d ≠ '\\') : (s.flatMap escapeChar ++ '"' :: rest).head? ≠ some d := by
  intro hhead
  rcases s with _ | ⟨c, s⟩
  · exact hquote (Option.some.inj hhead).symm
  · have hne : c ≠ d := by
      rintro rfl
      exact hs s rfl
    rw [List.flatMap_cons] at hhead
    unfold escapeChar at hhead
    split at hhead
    · exact hslash (Option.some.inj hhead).symm
    · exact hslash (Option.some.inj hhead).symm
    · exact hslash (Option.some.inj hhead).symm
    · exact hslash (Option.some.inj hhead).symm
    · exact hslash (Option.some.inj hhead).symm
    · exact hne (Option.some.inj hhead)

/-- A quoted text means itself, unless it starts an interpolation. -/
theorem unquote_quoted (s rest : Text) : unquote (s.flatMap escapeChar ++ '"' :: rest) =
    if interpolates s then none else some (s, rest) := by
  induction s using interpolates.induct with
  | case1 tail => rfl
  | case2 s ih =>
    show Option.map _ (unquote (s.flatMap escapeChar ++ '"' :: rest)) = _
    rw [ih, interpolates]
    split <;> rfl
  | case3 c s hbrace hdollar ih =>
    rw [List.flatMap_cons, List.append_assoc, unquote_escapeChar, ih, interpolates]
    · split <;> rfl
    · exact hbrace
    · exact hdollar
    · rintro rfl
      exact ⟨head?_quoted (fun t ht => hbrace t rfl ht) (by decide) (by decide),
        head?_quoted (fun t ht => hdollar t rfl ht) (by decide) (by decide)⟩
  | case4 => rfl

theorem unquoteItems_quoted (s rest : Text) : unquoteItems (quoteNixString s ++ rest) =
    if interpolates s then none else (unquoteItems rest).map (s :: ·) := by
  have hread := unquote_quoted s rest
  rw [quoteNixString, List.cons_append, List.append_assoc, List.singleton_append, unquoteItems]
  split
  · rename_i t rest' h
    rw [h] at hread
    split at hread
    · cases hread
    · rename_i hplain
      obtain ⟨rfl, rfl⟩ := Prod.mk.inj (Option.some.inj hread)
      rw [if_neg hplain]
  · rename_i h
    rw [h] at hread
    split at hread
    · rename_i hstarts
      rw [if_pos hstarts]
    · cases hread

/-- The items of a list are read one after the other, up to the first that interpolates. -/
theorem unquoteItems_intercalate (items : List Text) :
    unquoteItems (List.intercalate [' '] (items.map quoteNixString) ++ " ]".toList) =
      if ∀ s ∈ items, ¬interpolates s then some items else none := by
  have hnil : unquoteItems " ]".toList = some [] := by
    show unquoteItems [' ', ']'] = _
    rw [unquoteItems, unquoteItems]
  induction items with
  | nil =>
    rw [if_pos fun s hs => absurd hs List.not_mem_nil]
    exact hnil
  | cons s items ih =>
    have hcons : unquoteItems (List.intercalate [' '] ((s :: items).map quoteNixString) ++
        " ]".toList) = if interpolates s then none else
          (unquoteItems (List.intercalate [' '] (items.map quoteNixString) ++ " ]".toList)).map
            (s :: ·) := by
      rcases items with _ | ⟨s', items⟩
      · rw [List.map_singleton, List.intercalate_singleton, unquoteItems_quoted]
        rfl
      · rw [List.map_cons, List.map_cons, List.intercalate_cons_cons, List.append_assoc,
          List.append_assoc, unquoteItems_quoted, List.singleton_append, unquoteItems,
          ← List.map_cons]
    rw [hcons, ih]
    by_cases hstarts : interpolates s
    · rw [if_pos hstarts, if_neg fun h => h s List.mem_cons_self hstarts]
    · rw [if_neg hstarts]
      by_cases hitems : ∀ s ∈ items, ¬interpolates s
      · have hall : ∀ t ∈ s :: items, ¬interpolates t := List.forall_mem_cons.mpr ⟨hstarts, hitems⟩
        rw [if_pos hitems, if_pos hall]
        rfl
      · rw [if_neg hitems, if_neg fun h => hitems (List.forall_mem_cons.mp h).2]
        rfl

/-- A rendered value means itself, unless it starts an interpolation: then it is no literal. -/
theorem nixLiteral_toSource {v : NixValue} (hv : ∀ raw, v ≠ .other raw) :
    (v.Plain → nixLiteral v.toSource = some v) ∧ (¬v.Plain → nixLiteral v.toSource = none) := by
  rcases v with b | s | items | raw
  · refine ⟨fun _ => ?_, fun h => absurd trivial h⟩
    cases b <;> rfl
  · have hread : nixLiteral (NixValue.str s).toSource = if interpolates s then none else some (.str s) := by
      show (unquote (s.flatMap escapeChar ++ ['"'])).bind _ = _
      rw [unquote_quoted]
      split <;> rfl
    rw [hread]
    exact ⟨fun h => if_neg h, fun h => if_pos (not_not.mp h)⟩
  · have hread : nixLiteral (NixValue.strList items).toSource =
        if ∀ s ∈ items, ¬interpolates s then some (.strList items) else none := by
      show (unquoteItems (' ' :: (List.intercalate [' '] (items.map quoteNixString) ++
        " ]".toList))).map NixValue.strList = _
      rw [unquoteItems, unquoteItems_intercalate]
      split <;> rfl
    rw [hread]
    exact ⟨fun h => if_pos h, fun h => if_neg h⟩
  · exact absurd rfl (hv raw)

/-! ## The place of an edit -/

section Places

variable {es : Entries} {start : ℕ} {path : List Text}

theorem Leads.bounds {keys : List Binder} {fill : Node → Entries} {loc : Located}
    (h : Leads es start path keys fill loc) :
    start ≤ loc.start ∧ loc.start + loc.node.text.length ≤ start + es.text.length := by
  obtain ⟨before, after, hpos, htext⟩ := h.around
  rw [← h.fill_node, htext, hpos, List.length_append, List.length_append]
  omega

theorem bounds_of_findInAttrset {loc : Located} (h : findInAttrset es start path = some loc) :
    start ≤ loc.start ∧ loc.start + loc.node.text.length ≤ start + es.text.length := by
  obtain ⟨keys, fill, hleads⟩ := leads_of_findInAttrset h
  exact hleads.bounds

theorem findInAttrset_leaf (key : Binder) (value : Leaf) (beforeSemi : Text) (rest : Entries)
    (start : ℕ) (path : List Text) : findInAttrset (.leaf key value beforeSemi rest) start path =
      if Passed key path then findInAttrset rest (key.next (.leaf value) beforeSemi start) path
      else if key.names = path then some ⟨start + key.text.length, .leaf value⟩
      else findInAttrset rest (key.next (.leaf value) beforeSemi start) path := by
  rw [findInAttrset]
  exact ite_passed ..

theorem findInAttrset_set (key : Binder) (recToken : Option Text) (inner : Entries)
    (beforeSemi : Text) (rest : Entries) (start : ℕ) (path : List Text) :
    findInAttrset (.set key recToken inner beforeSemi rest) start path =
      if Passed key path then
        findInAttrset rest (key.next (.attrSet recToken inner) beforeSemi start) path
      else if key.names = path then some ⟨start + key.text.length, .attrSet recToken inner⟩
      else (findInAttrset inner (start + key.text.length + (openText recToken).length)
          (path.drop key.names.length)).or
        (findInAttrset rest (key.next (.attrSet recToken inner) beforeSemi start) path) := by
  rw [findInAttrset]
  refine (ite_passed ..).trans ?_
  congr 2
  have hinside : AttrSet.inside ⟨start + key.text.length, recToken, inner⟩ =
      start + key.text.length + (openText recToken).length := rfl
  rw [hinside]
  cases findInAttrset inner (start + key.text.length + (openText recToken).length)
    (path.drop key.names.length) <;> rfl

/-- A lookup that an entry does not pass finds its value. -/
theorem findInAttrset_here {key : Binder} (hpassed : ¬Passed key key.names) (v : Node)
    (beforeSemi : Text) (rest : Entries) :
    findInAttrset (.attrpathValue key v beforeSemi rest) start key.names =
      some ⟨start + key.text.length, v⟩ := by
  rcases v with value | ⟨recToken, inner⟩
  · rw [Entries.attrpathValue, findInAttrset_leaf, if_neg hpassed, if_pos rfl]
  · rw [Entries.attrpathValue, findInAttrset_set, if_neg hpassed, if_pos rfl]

theorem passed_of_findInAttrset {pos : ℕ} {beforeSemi : Text} {rest : Entries} {key : Binder}
    {value : Node} (h : findInAttrset rest (key.next value beforeSemi start) path = some ⟨pos, value⟩) :
    start + key.text.length < pos := by
  have hbounds := (bounds_of_findInAttrset h).1
  simp only [Binder.next] at hbounds
  omega

/-- The lookup of the path finds another value in the place of the one that it found. -/
theorem Leads.found_fill {keys : List Binder} {fill : Node → Entries} {loc : Located}
    (h : Leads es start path keys fill loc) (hfind : findInAttrset es start path = some loc)
    (v : Node) : findInAttrset (fill v) start path = some ⟨loc.start, v⟩ := by
  induction h with
  | @hereLeaf key value beforeSemi rest start =>
    by_cases hpassed : Passed key key.names
    · rw [findInAttrset_leaf, if_pos hpassed] at hfind
      exact absurd (passed_of_findInAttrset hfind) (Nat.lt_irrefl _)
    · exact findInAttrset_here hpassed v beforeSemi rest
  | @hereSet key recToken inner rest beforeSemi start =>
    by_cases hpassed : Passed key key.names
    · rw [findInAttrset_set, if_pos hpassed] at hfind
      exact absurd (passed_of_findInAttrset hfind) (Nat.lt_irrefl _)
    · exact findInAttrset_here hpassed v beforeSemi rest
  | @inside key recToken inner rest beforeSemi start path keys fill loc h ih =>
    have hinner := h.bounds
    have hrest : findInAttrset rest (key.next (.attrSet recToken inner) beforeSemi start)
        (key.names ++ path) ≠ some loc := by
      intro hfound
      have hbounds := (bounds_of_findInAttrset hfound).1
      simp only [Binder.next, Node.text, List.length_append, List.length_singleton] at hbounds
      omega
    rw [findInAttrset_set] at hfind ⊢
    split_ifs at hfind ⊢ with hpassed hnames
    · exact absurd hfind hrest
    · obtain rfl := Option.some.inj hfind
      have hopen : 0 < (openText recToken).length := by
        cases recToken <;> simp [openText]
      simp only at hinner
      omega
    · rw [List.drop_left] at hfind ⊢
      rcases hin : findInAttrset inner (start + key.text.length + (openText recToken).length) path
        with _ | found
      · rw [hin] at hfind
        exact absurd hfind hrest
      · rw [hin] at hfind
        obtain rfl := Option.some.inj hfind
        rw [ih hin]
        rfl
  | afterInherit h ih =>
    rw [findInAttrset] at hfind ⊢
    exact ih hfind
  | @afterLeaf key value beforeSemi rest start path keys fill loc h ih =>
    rw [findInAttrset_leaf] at hfind ⊢
    split_ifs at hfind ⊢ with hpassed hnames
    · exact ih hfind
    · obtain rfl := Option.some.inj hfind
      have hbounds := h.bounds.1
      simp only [Binder.next] at hbounds
      omega
    · exact ih hfind
  | @afterSet key recToken inner rest beforeSemi start path keys fill loc h ih =>
    have hbounds := h.bounds.1
    simp only [Binder.next, Node.text, List.length_append, List.length_singleton] at hbounds
    rw [findInAttrset_set] at hfind ⊢
    split_ifs at hfind ⊢ with hpassed hnames
    · exact ih hfind
    · obtain rfl := Option.some.inj hfind
      simp only at hbounds
      omega
    · rcases hin : findInAttrset inner (start + key.text.length + (openText recToken).length)
        (path.drop key.names.length) with _ | found
      · rw [hin] at hfind
        exact ih hfind
      · rw [hin] at hfind
        obtain rfl := Option.some.inj hfind
        have hinner := (bounds_of_findInAttrset hin).2
        omega

/-- The lookup of the path finds the value of its new entry, and the text around it is the same for
every value. -/
theorem Descends.found_insert {set : AttrSet} {fill : Entries → Entries} {final : Text}
    {point : InsertPoint} (h : Descends es set start path fill final point) (hpath : path ≠ [])
    (hfind : nodeAt es path = none) (indent : Text) :
    ∃ pos, Around Node.text (fun v => fill (newEntry indent point.remaining v final)) start pos ∧
      ∀ v, findInAttrset (fill (newEntry indent point.remaining v final)) start path =
        some ⟨pos, v⟩ := by
  induction h with
  | @done trivia set start path =>
    let key : Binder := ⟨'\n' :: indent, dotted path, [' '], [' ']⟩
    have hnames : key.names = path := names_newKey ..
    have hpassed : ¬Passed key key.names := by
      rintro (hnil | hlength | hprefix)
      · exact hpath (hnames.symm.trans hnil)
      · exact Nat.lt_irrefl _ hlength
      · exact hprefix List.prefix_rfl
    refine ⟨start + key.text.length, .value, fun v => ?_⟩
    have hhere : findInAttrset (.attrpathValue key v [] (.nil trivia)) start key.names =
        some ⟨start + key.text.length, v⟩ := findInAttrset_here hpassed v [] (.nil trivia)
    rw [hnames] at hhere
    exact hhere
  | afterInherit h ih =>
    obtain ⟨pos, haround, hfound⟩ := ih hpath hfind
    exact ⟨pos, haround.inherit, hfound⟩
  | @afterLeaf key value beforeSemi final rest set start path fill point hapart h ih =>
    have hpassed : Passed key path := hapart.imp_right fun happart => .inr happart.2
    rw [nodeAt, if_pos hpassed] at hfind
    obtain ⟨pos, haround, hfound⟩ := ih hpath hfind
    refine ⟨pos, haround.leaf, fun v => ?_⟩
    rw [findInAttrset_leaf, if_pos hpassed, hfound]
  | @afterSet key recToken inner rest beforeSemi final set start path fill point hapart h ih =>
    have hpassed : Passed key path := hapart.imp_right fun happart => .inr happart.2
    rw [nodeAt, if_pos hpassed] at hfind
    obtain ⟨pos, haround, hfound⟩ := ih hpath hfind
    refine ⟨pos, haround.set, fun v => ?_⟩
    rw [findInAttrset_set, if_pos hpassed, hfound]
  | @enter key recToken inner rest beforeSemi final set start path fill point hnames hrest h ih =>
    have hpassed : ¬Passed key (key.names ++ path) := by
      rintro (hnil | hlength | hprefix)
      · exact hnames hnil
      · rw [List.length_append] at hlength
        omega
      · exact hprefix (List.prefix_append ..)
    have hne : key.names ≠ key.names ++ path := by
      intro heq
      exact hrest (List.append_right_eq_self.mp heq.symm)
    rw [nodeAt, if_neg hpassed, if_neg hne, List.drop_left, Option.or_eq_none_iff] at hfind
    obtain ⟨pos, haround, hfound⟩ := ih hrest hfind.1
    refine ⟨pos, haround.inside, fun v => ?_⟩
    rw [findInAttrset_set, if_neg hpassed, if_neg hne, List.drop_left, hfound]
    rfl

end Places

section Slots

variable {rnix : Rnix} {file file' : NixConfigFile rnix} {root root' : Root} {path : List Text}
  {replacement before after : Text} {value : Node}

/-- Every edit of the path writes its text between the same two parts of the file. -/
def Slot (file : NixConfigFile rnix) (path : List Text) (before after : Text) : Prop :=
  ∀ r, file.setAttrpath path r = accept (before ++ (r ++ after)) r path

/-- An edit whose value is found at its place leaves the place to further edits. -/
theorem Slot.kept (hslot : Slot file path before after) (hpath : path ≠ [])
    (h : file.setAttrpath path replacement = .ok file') (htext : value.text = replacement)
    (hparse : rnix.parse file'.source = .ok root)
    (hfind : findValueNode root path = some ⟨before.length, value⟩) :
    Slot file' path before after ∧
      file'.findAttrpath path = some ⟨interpret value, before.length, replacement⟩ := by
  rw [hslot, accept_eq_ok] at h
  have hfound : file'.findAttrpath path = some ⟨interpret value, before.length, replacement⟩ := by
    rw [findAttrpath_eq hparse hpath, hfind, Option.map_some, htext]
  refine ⟨fun r => ?_, hfound⟩
  rw [editsAt_of_findAttrpath hparse hfound r, h, List.take_left, ← List.drop_drop, List.drop_left,
    List.drop_left]

/-- **The place of an edit**: the value that was written is found between the two parts of the file
that were there before, and every further edit of the path writes there. -/
theorem slot_of_setAttrpath (hvalues : rnix.ReadsValues) (hentries : rnix.ReadsEntries)
    (hpath : path ≠ []) (hexpr : rnix.IsExpr replacement value)
    (hseparates : file.Separates path replacement)
    (hsegments : ∀ segments, NewSegments file path segments → ∀ s ∈ segments, IsIdentifier s)
    (h : file.setAttrpath path replacement = .ok file') :
    ∃ before after, Slot file path before after ∧ Slot file' path before after ∧
      file'.findAttrpath path = some ⟨interpret value, before.length, replacement⟩ := by
  obtain ⟨root, hparse⟩ := file.parses
  rcases hfind : findValueNode root path with _ | loc
  · rcases hpoint : insertPoint root path with _ | point
    · rw [setAttrpath_of_blocked hparse hpath hfind hpoint] at h
      cases h
    have hidents := hsegments _ ⟨root, point, hparse, hfind, hpoint, rfl⟩
    obtain ⟨set, fill, final, hset, hdescends, hpanic, hplain⟩ := spliceEntry_eq hparse hpath hpoint
    have hedit : ∀ r, file.setAttrpath path r = _ := fun r =>
      setAttrpath_of_point hparse hpath hfind hpoint
    rcases hrec : point.attrset.recToken with _ | trivia
    swap
    · rw [hedit, hpanic trivia hrec] at h
      cases h
    obtain ⟨indent, hindent, hsplice⟩ := hplain hrec
    obtain ⟨before, after, hinside, hroot⟩ := Root.text_withEntries hset
    have hnone : nodeAt set.entries path = none := by
      rw [← findValueNode_node hset, hfind]
      rfl
    obtain ⟨pos, ⟨before', after', hpos, hfill⟩, hfound⟩ :=
      hdescends.found_insert hpath hnone indent
    have htext : ∀ v : Node,
        (root.withEntries (fill (newEntry indent point.remaining v final))).text =
          (before ++ before') ++ (v.text ++ (after' ++ after)) := by
      intro v
      rw [hroot, hfill]
      simp
    have hslot : Slot file path (before ++ before') (after' ++ after) := by
      intro r
      have hwrites : spliceEntry file.source point r =
          .ok ((before ++ before') ++ (r ++ (after' ++ after))) :=
        (hsplice (.leaf (.other r))).trans (congrArg Outcome.ok (htext _))
      rw [hedit, hwrites]
    obtain ⟨root', hparse'⟩ := file'.parses
    have hsource := h
    rw [hslot, accept_eq_ok, ← hexpr.text_eq, ← htext] at hsource
    have hread : root' = root.withEntries (fill (newEntry indent point.remaining value final)) := by
      refine hentries root set fill indent point.remaining value final root' ?_ hset
        hdescends.context hdescends.fill_nil.symm hindent (hdescends.remaining_ne hpath) hidents ?_ ?_
      · rw [rnix.lossless hparse]
        exact hparse
      · rw [hexpr.text_eq]
        exact hexpr
      · rw [← hsource]
        exact hparse'
    refine ⟨_, _, hslot, hslot.kept hpath h hexpr.text_eq hparse' ?_⟩
    rw [hread, findValueNode, Root.attrset_withEntries hset, Option.bind_some, List.length_append,
      ← hinside, ← hpos]
    exact hfound value
  · obtain ⟨set, keys, fill, before, after, hset, hleads, hstart, hsource, htext⟩ :=
      found_splits hparse hfind
    have hslot : Slot file path before after := by
      intro r
      rw [setAttrpath_of_found hparse hpath hfind, spliceSpan, hstart, hsource, List.take_left,
        ← List.drop_drop, List.drop_left, List.drop_left]
    obtain ⟨set', keys', fill', hset', hleads', hparse'⟩ :=
      setAttrpath_replaces hvalues hparse hpath hfind hexpr hseparates h
    refine ⟨before, after, hslot, hslot.kept hpath h hexpr.text_eq hparse' ?_⟩
    rw [findValueNode, hset', Option.bind_some] at hfind
    rw [findValueNode, Root.attrset_withEntries hset', Option.bind_some, ← hstart]
    exact hleads'.found_fill hfind value

/-- The parser reads the text by the rules of the language: a literal is an expression with its
value, and an expression that is no literal has none. -/
def Rnix.ReadsAs (rnix : Rnix) (text : Text) : Prop :=
  (∀ v, nixLiteral text = some v → ∃ value, rnix.IsExpr text value ∧ interpret value = v) ∧
    (nixLiteral text = none → ∀ value, rnix.IsExpr text value → ∃ raw, interpret value = .other raw)

/-- A literal that starts no interpolation is found where it was set. -/
theorem findAttrpath_of_setAttrpath (hvalues : rnix.ReadsValues) (hentries : rnix.ReadsEntries)
    (hpath : path ≠ []) {v : NixValue} (hv : ∀ raw, v ≠ .other raw) (hplain : v.Plain)
    (hreads : rnix.ReadsAs v.toSource)
    (hsegments : ∀ segments, NewSegments file path segments → ∀ s ∈ segments, IsIdentifier s)
    (h : file.setAttrpath path v.toSource = .ok file') :
    (file'.findAttrpath path).map LocatedValue.value = some v := by
  obtain ⟨value, hexpr, hvalue⟩ := hreads.1 v ((nixLiteral_toSource hv).1 hplain)
  obtain ⟨before, after, -, -, hfound⟩ := slot_of_setAttrpath hvalues hentries hpath hexpr
    (fun _ _ => separated_toSource hv _) hsegments h
  rw [hfound, Option.map_some, hvalue]

end Slots

/-! ## Finding what was set -/

/-- The file `{ a = "${b}"; }`, whose value interpolates `b`. -/
def interpolRoot : Root :=
  ⟨[], .attrSet none (newEntry [' ', ' '] [['a']]
    (.leaf (.str [.interpolation] (quoteNixString ['$', '\x7b', 'b', '\x7d']))) [' ']), []⟩

def bareFile : NixConfigFile (tableRnix [emptyRoot, interpolRoot]) := ⟨"{ }".toList, emptyRoot, rfl⟩

def interpolFile : NixConfigFile (tableRnix [emptyRoot, interpolRoot]) :=
  ⟨interpolRoot.text, interpolRoot, rfl⟩

/-- A string with `${` is set as code, and is not found again. -/
theorem setAttrpath_interpolates : ¬∀ file', bareFile.setAttrpath [['a']]
    (NixValue.str ['$', '\x7b', 'b', '\x7d']).toSource = .ok file' →
      (file'.findAttrpath [['a']]).map LocatedValue.value = some (.str ['$', '\x7b', 'b', '\x7d']) := by
  intro h
  have hpoint : insertPoint emptyRoot [['a']] = some ⟨⟨0, none, .nil [' ']⟩, [['a']]⟩ := rfl
  have hparse : (tableRnix [emptyRoot, interpolRoot]).parse bareFile.source = .ok emptyRoot := rfl
  have hset : bareFile.setAttrpath [['a']] (NixValue.str ['$', '\x7b', 'b', '\x7d']).toSource =
      .ok interpolFile := by
    rw [setAttrpath_of_point hparse (by decide) rfl hpoint]
    exact accept_eq_ok.mpr rfl
  exact absurd (h interpolFile hset) (by decide)

/-- **What was set is found**: an accepted edit with a literal, and a new key of identifiers, makes
the lookup of the path find the value, when it starts no interpolation; and of the values whose
text is an expression, these are the only ones. -/
theorem setAttrpath_finds {rnix : Rnix} {v : NixValue} (hv : ∀ raw, v ≠ .other raw)
    (hvalues : rnix.ReadsValues) (hentries : rnix.ReadsEntries) (hreads : rnix.ReadsAs v.toSource)
    {file file' : NixConfigFile rnix} {path : List Text} (hpath : path ≠ [])
    (hsegments : ∀ segments, NewSegments file path segments → ∀ s ∈ segments, IsIdentifier s)
    (h : file.setAttrpath path v.toSource = .ok file') :
    (v.Plain → (file'.findAttrpath path).map LocatedValue.value = some v) ∧
      ((∃ value, rnix.IsExpr v.toSource value) →
        (file'.findAttrpath path).map LocatedValue.value = some v → v.Plain) := by
  refine ⟨fun hplain => findAttrpath_of_setAttrpath hvalues hentries hpath hv hplain hreads hsegments h,
    fun hexpr hfind => ?_⟩
  by_contra hp
  obtain ⟨value, hexpr⟩ := hexpr
  obtain ⟨raw, hraw⟩ := hreads.2 ((nixLiteral_toSource hv).2 hp) value hexpr
  obtain ⟨before, after, -, -, hfound⟩ := slot_of_setAttrpath hvalues hentries hpath hexpr
    (fun _ _ => separated_toSource hv _) hsegments h
  rw [hfound, Option.map_some, hraw] at hfind
  exact hv raw (Option.some.inj hfind).symm

/-- A name that has to be quoted is found where the host had another, and where there was no entry. -/
theorem setAttrpath_finds_named :
    (namedFile.findAttrpath ["host".toList]).map LocatedValue.value = some (.str boxName) ∧
      (greetingFile.findAttrpath ["services".toList, "motd".toList]).map LocatedValue.value =
        some (.str boxName) := by
  have hliteral : ∀ raw, NixValue.str boxName ≠ .other raw := fun raw heq => by cases heq
  have hreads : boxTable.ReadsAs (NixValue.str boxName).toSource := by
    have hlit := (nixLiteral_toSource hliteral).1 boxName_plain
    refine ⟨fun v hv => ⟨_, boxName_isExpr, ?_⟩, fun hnone => ?_⟩
    · exact Option.some.inj (hlit.symm.trans hv)
    · cases hlit.symm.trans hnone
  obtain ⟨loc, hfind⟩ := atticRoot_host
  exact ⟨(setAttrpath_finds hliteral boxTable_readsValues boxTable_readsEntries hreads (by decide)
      (fun segments h => absurd h (no_newSegments atticFile_parse hfind segments)) atticFile_set).1 boxName_plain,
    (setAttrpath_finds hliteral boxTable_readsValues boxTable_readsEntries hreads (by decide)
      namedFile_segments namedFile_set).1 boxName_plain⟩

/-! ## Setting what was found, and setting twice -/

/-- **Edits undo each other**: to set what is found changes nothing, and after an accepted edit with
an expression, every further edit of the path, whatever its text, ends as if it were the first:
with the same file, character for character, or the same error. -/
theorem setAttrpath_again {rnix : Rnix} (hvalues : rnix.ReadsValues) (hentries : rnix.ReadsEntries)
    {file : NixConfigFile rnix} {path : List Text} (hpath : path ≠ []) :
    (∀ v, file.findAttrpath path = some v → file.setAttrpath path v.raw = .ok file) ∧
      ∀ (file' : NixConfigFile rnix) (replacement : Text) (value : Node), rnix.IsExpr replacement value →
        file.Separates path replacement →
        (∀ segments, NewSegments file path segments → ∀ s ∈ segments, IsIdentifier s) →
        file.setAttrpath path replacement = .ok file' →
          ∀ r, file'.setAttrpath path r = file.setAttrpath path r := by
  refine ⟨fun v hv => ?_, fun file' replacement value hexpr hseparates hsegments h r => ?_⟩
  · obtain ⟨root, hparse⟩ := file.parses
    have hedit := editsAt_of_findAttrpath hparse hv
    rw [findAttrpath_eq hparse hpath] at hv
    obtain ⟨loc, hfind, rfl⟩ := Option.map_eq_some_iff.mp hv
    obtain ⟨-, -, -, before', after', -, -, hstart, hsource, -⟩ := found_splits hparse hfind
    rw [hedit, accept_eq_ok]
    show file.source = file.source.take loc.start ++ (loc.node.text ++
      file.source.drop (loc.start + loc.node.text.length))
    rw [hstart, hsource, List.take_left, ← List.drop_drop, List.drop_left, List.drop_left]
  · obtain ⟨before, after, hslot, hslot', -⟩ :=
      slot_of_setAttrpath hvalues hentries hpath hexpr hseparates hsegments h
    exact (hslot' r).trans (hslot r).symm

/-- The name of a host is set twice, and so is the message of the day. -/
theorem setAttrpath_again_named :
    (∀ v, atticFile.findAttrpath ["host".toList] = some v →
      atticFile.setAttrpath ["host".toList] v.raw = .ok atticFile) ∧
    (∀ r, namedFile.setAttrpath ["host".toList] r = atticFile.setAttrpath ["host".toList] r) ∧
      ∀ r, greetingFile.setAttrpath ["services".toList, "motd".toList] r =
        namedFile.setAttrpath ["services".toList, "motd".toList] r := by
  have hseparated : ∀ after, Separated (NixValue.str boxName).toSource after :=
    separated_toSource fun raw heq => by cases heq
  obtain ⟨loc, hfind⟩ := atticRoot_host
  have hhost := @setAttrpath_again boxTable boxTable_readsValues boxTable_readsEntries atticFile
    ["host".toList] (by decide)
  exact ⟨hhost.1, hhost.2 namedFile _ _ boxName_isExpr (fun _ _ => hseparated _)
      (fun segments h => absurd h (no_newSegments atticFile_parse hfind segments)) atticFile_set,
    (setAttrpath_again boxTable_readsValues boxTable_readsEntries (by decide)).2 greetingFile _ _
      boxName_isExpr (fun _ _ => hseparated _) namedFile_segments namedFile_set⟩

end Dashboard
end Cococoir
