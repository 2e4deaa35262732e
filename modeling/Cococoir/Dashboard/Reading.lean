import Cococoir.Dashboard.Lookup

/-!
# How the parser reads an edited file

The parser is a parameter, and of what it does with an edited text two things are assumed, both
only when it accepts the text: that a value in the place of another is read in this place, and
that a new entry is read as that entry.

* `Rnix.ReadsValues`, `Rnix.ReadsEntries`: the two assumptions.
* `Separated`: the text of a value ends before what stands after it.
* `setAttrpath_replaces`, `setAttrpath_inserts`: what an accepted edit leaves to be read.

## Why they hold

An expression can stand wherever another one can, in the value of an entry: what follows there is
a semicolon, with space or comments before it.  So if a text is one expression by itself, the
parser that comes to it in this place reads it to its end and finds the semicolon.  The one thing
that can go wrong is that the expression does not end where its text does.  A path or a URI that
is not quoted takes up a slash that follows it, and a comment may begin with one.  `Separated`
excludes this: no comment follows directly, or the value's last character ends it, or the value is
one identifier.  A literal that the dashboard writes ends in a quote or in a bracket, or is `true`
or `false`, so it is separated from anything.

For an entry the reason is simpler.  It is written whole, key, value and semicolon, on a line of
its own.

## Contexts

A place in a file is a `Context`: the entries of some set, from a place on left open, and the sets
around it.  The two walks of `Dashboard.Walks` give contexts, and what an accepted edit leaves to
be read is the context with something else in its place.
-/

namespace Cococoir
namespace Dashboard

open Concurrency (Outcome)

/-! ## What may be spliced -/

/-- A letter or an underscore. -/
def isIdentStart (c : Char) : Bool := c.isAlpha || c = '_'

/-- A character of an identifier. -/
def isIdentChar (c : Char) : Bool := c.isAlphanum || c = '_' || c = '\'' || c = '-'

/-- The text is one identifier. -/
def IsIdentifier : Text → Prop
  | [] => False
  | c :: s => isIdentStart c ∧ ∀ d ∈ s, isIdentChar d

instance : ∀ s, Decidable (IsIdentifier s)
  | [] => inferInstanceAs (Decidable False)
  | c :: s =>
    -- the characters are looked at one by one, and not all that there are
    have : Decidable (∀ d ∈ s, isIdentChar d) := List.decidableBAll _ s
    inferInstanceAs (Decidable (isIdentStart c ∧ ∀ d ∈ s, isIdentChar d))

/-- An expression as the value of an entry. -/
def Expr.asNode : Expr → Node
  | .attrSet recToken entries => .attrSet recToken entries
  | .leaf value => .leaf value
  | e => .leaf (.other e.text)

theorem Expr.text_asNode (e : Expr) : e.asNode.text = e.text := by
  cases e <;> rfl

/-- The text is one expression, from its first to its last character. -/
def Rnix.IsExpr (rnix : Rnix) (text : Text) (value : Node) : Prop :=
  ∃ e : Expr, rnix.parse text = .ok ⟨[], e, []⟩ ∧ value = e.asNode

theorem Rnix.IsExpr.text_eq {rnix : Rnix} {text : Text} {value : Node} (h : rnix.IsExpr text value) :
    value.text = text := by
  obtain ⟨e, hparse, rfl⟩ := h
  rw [e.text_asNode, ← rnix.lossless hparse, Root.text, List.nil_append, List.append_nil]

/-! ## One place in the entries -/

/-- Entries with one place, among the entries of some attribute set, from which on they vary. -/
inductive Context : (Entries → Entries) → Prop
  | hole : Context id
  | afterInherit {fill : Entries → Entries} {trivia text : Text} {names : List Text}
      (h : Context fill) : Context fun e => .inherit trivia names text (fill e)
  | afterLeaf {fill : Entries → Entries} {key : Binder} {value : Leaf} {beforeSemi : Text}
      (h : Context fill) : Context fun e => .leaf key value beforeSemi (fill e)
  | afterSet {fill : Entries → Entries} {key : Binder} {recToken : Option Text} {inner : Entries}
      {beforeSemi : Text} (h : Context fill) :
    Context fun e => .set key recToken inner beforeSemi (fill e)
  | inside {fill : Entries → Entries} {key : Binder} {recToken : Option Text} {rest : Entries}
      {beforeSemi : Text} (h : Context fill) :
    Context fun e => .set key recToken (fill e) beforeSemi rest

/-- What ends a string, a list, an attribute set and a pair of parentheses. -/
def closers : List Char := ['"', ']', '}', ')']

/-- What stands after a value is not read as a part of it: no comment follows directly, or the value
is one identifier, or its last character closes it.  An unquoted URI would go on, since the slash and
the star that open a comment are characters of a URI. -/
def Separated (text after : Text) : Prop :=
  after.head? ≠ some '/' ∨ IsIdentifier text ∨ ∃ c ∈ text.getLast?, c ∈ closers

/-- A replaced value, when the text is accepted, is read where it stands. -/
def Rnix.ReadsValues (rnix : Rnix) : Prop :=
  ∀ root set fill key old new beforeSemi rest root', rnix.parse root.text = .ok root →
    root.attrset = some set → Context fill →
    set.entries = fill (.attrpathValue key old beforeSemi rest) → rnix.IsExpr new.text new →
    Separated new.text beforeSemi →
    rnix.parse (root.withEntries (fill (.attrpathValue key new beforeSemi rest))).text = .ok root' →
    root' = root.withEntries (fill (.attrpathValue key new beforeSemi rest))

/-- A new entry whose key is made of identifiers, when the text is accepted, is read as that
entry. -/
def Rnix.ReadsEntries (rnix : Rnix) : Prop :=
  ∀ root set fill indent segments value final root', rnix.parse root.text = .ok root →
    root.attrset = some set → Context fill → set.entries = fill (.nil final) →
    (∀ c ∈ indent, c = ' ') → segments ≠ [] → (∀ s ∈ segments, IsIdentifier s) →
    rnix.IsExpr value.text value →
    rnix.parse (root.withEntries (fill (newEntry indent segments value final))).text = .ok root' →
    root' = root.withEntries (fill (newEntry indent segments value final))

/-- What a text ends before, its beginning ends before. -/
theorem Separated.of_append {text after more : Text} (h : Separated text (after ++ ';' :: more)) :
    Separated text after := by
  rcases h with hafter | hself
  · refine .inl fun hslash => hafter ?_
    rw [List.head?_append, hslash, Option.some_or]
  · exact .inr hself

theorem Leads.context {es : Entries} {start : ℕ} {path : List Text} {keys : List Binder}
    {fill : Node → Entries} {loc : Located} (h : Leads es start path keys fill loc) :
    ∃ around key beforeSemi rest, Context around ∧
      (∀ v, fill v = around (.attrpathValue key v beforeSemi rest)) ∧
      Around (fun v : Node => v.text ++ (beforeSemi ++ [';'])) fill start loc.start := by
  have hhere : ∀ {key : Binder} {beforeSemi : Text} {rest : Entries} {start : ℕ},
      Around (fun v : Node => v.text ++ (beforeSemi ++ [';']))
        (fun v => .attrpathValue key v beforeSemi rest) start (start + key.text.length) :=
    fun {key _ rest _} => ⟨key.text, rest.text, rfl, fun v => by simp⟩
  induction h with
  | hereLeaf => exact ⟨_, _, _, _, .hole, fun _ => rfl, hhere⟩
  | hereSet => exact ⟨_, _, _, _, .hole, fun _ => rfl, hhere⟩
  | @inside outer recToken _ after semi _ _ _ _ _ _ ih =>
    obtain ⟨around, key, beforeSemi, rest, hcontext, hfill, htext⟩ := ih
    exact ⟨_, key, beforeSemi, rest, .inside hcontext, fun v =>
      congrArg (Entries.set outer recToken · semi after) (hfill v), htext.inside⟩
  | @afterInherit trivia text names _ _ _ _ _ _ _ ih =>
    obtain ⟨around, key, beforeSemi, rest, hcontext, hfill, htext⟩ := ih
    exact ⟨_, key, beforeSemi, rest, .afterInherit hcontext, fun v =>
      congrArg (Entries.inherit trivia names text) (hfill v), htext.inherit⟩
  | @afterLeaf before value semi _ _ _ _ _ _ _ ih =>
    obtain ⟨around, key, beforeSemi, rest, hcontext, hfill, htext⟩ := ih
    exact ⟨_, key, beforeSemi, rest, .afterLeaf hcontext, fun v =>
      congrArg (Entries.leaf before value semi) (hfill v), htext.leaf⟩
  | @afterSet before recToken inner _ semi _ _ _ _ _ _ ih =>
    obtain ⟨around, key, beforeSemi, rest, hcontext, hfill, htext⟩ := ih
    exact ⟨_, key, beforeSemi, rest, .afterSet hcontext, fun v =>
      congrArg (Entries.set before recToken inner semi) (hfill v), htext.set⟩

theorem Descends.context {es : Entries} {set : AttrSet} {start : ℕ} {path : List Text}
    {fill : Entries → Entries} {final : Text} {point : InsertPoint}
    (h : Descends es set start path fill final point) : Context fill := by
  induction h with
  | done => exact .hole
  | afterInherit _ ih => exact .afterInherit ih
  | afterLeaf _ _ ih => exact .afterLeaf ih
  | afterSet _ _ ih => exact .afterSet ih
  | enter _ _ _ ih => exact .inside ih

/-! ## Accepted edits -/

section Accepted

variable {rnix : Rnix} {file file' : NixConfigFile rnix} {root root' : Root} {path : List Text}
  {replacement : Text} {value : Node}

/-- What stands after a value in the file. -/
theorem drop_value {set : AttrSet} {keys : List Binder} {fill : Node → Entries} {loc : Located}
    {beforeSemi : Text} (hparse : rnix.parse file.source = .ok root) (hset : root.attrset = some set)
    (hleads : Leads set.entries set.inside path keys fill loc)
    (htext : Around (fun v : Node => v.text ++ (beforeSemi ++ [';'])) fill set.inside loc.start) :
    ∃ more, file.source.drop (loc.start + loc.node.text.length) = beforeSemi ++ ';' :: more := by
  obtain ⟨before, after, hinside, hroot⟩ := Root.text_withEntries hset
  obtain ⟨before', after', hstart, hfill⟩ := htext
  have hsource : file.source =
      (before ++ before') ++ (loc.node.text ++ (beforeSemi ++ ';' :: (after' ++ after))) := by
    rw [← rnix.lossless hparse, ← Root.withEntries_self hset, ← hleads.fill_node, hroot, hfill]
    simp
  refine ⟨after' ++ after, ?_⟩
  rw [hstart, hinside, hsource, ← List.length_append, ← List.drop_drop, List.drop_left, List.drop_left]

/-- Where the path has a value, a text in its place ends before what stands after it. -/
def NixConfigFile.Separates (file : NixConfigFile rnix) (path : List Text) (text : Text) : Prop :=
  ∀ v, file.findAttrpath path = some v → Separated text (file.source.drop (v.start + v.raw.length))

/-- **An accepted replacement** is read as the file with the new value. -/
theorem setAttrpath_replaces (hvalues : rnix.ReadsValues)
    (hparse : rnix.parse file.source = .ok root) (hpath : path ≠ []) {loc : Located}
    (hfind : findValueNode root path = some loc) (hexpr : rnix.IsExpr replacement value)
    (hseparates : file.Separates path replacement)
    (h : file.setAttrpath path replacement = .ok file') :
    ∃ set keys fill, root.attrset = some set ∧
      Leads set.entries set.inside path keys fill loc ∧
      rnix.parse file'.source = .ok (root.withEntries (fill value)) := by
  obtain ⟨set, keys, fill, hset, hleads, hsplice⟩ := spliceSpan_eq hparse hfind
  obtain ⟨around, key, beforeSemi, rest, hcontext, hfill, htext⟩ := hleads.context
  refine ⟨set, keys, fill, hset, hleads, ?_⟩
  have hseparated : Separated value.text beforeSemi := by
    have hfound := findAttrpath_eq hparse hpath
    rw [hfind, Option.map_some] at hfound
    obtain ⟨more, hdrop⟩ := drop_value hparse hset hleads htext
    have hends := hseparates _ hfound
    dsimp only at hends
    rw [hdrop] at hends
    rw [hexpr.text_eq]
    exact hends.of_append
  rw [setAttrpath_of_found hparse hpath hfind, accept_eq_ok, ← hexpr.text_eq, hsplice] at h
  obtain ⟨root', hparse'⟩ := file'.parses
  rw [hparse']
  rw [h, hfill] at hparse'
  rw [hfill, hvalues root set around key loc.node value beforeSemi rest root'
    (by rw [rnix.lossless hparse]; exact hparse) hset hcontext (by rw [← hfill, hleads.fill_node])
    (by rw [hexpr.text_eq]; exact hexpr) hseparated hparse']

/-- **An accepted insertion** is read as the file with the new entry. -/
theorem setAttrpath_inserts (hentries : rnix.ReadsEntries)
    (hparse : rnix.parse file.source = .ok root) (hpath : path ≠ [])
    (hfind : findValueNode root path = none) {point : InsertPoint}
    (hpoint : insertPoint root path = some point) (hexpr : rnix.IsExpr replacement value)
    (hsegments : ∀ s ∈ point.remaining, IsIdentifier s)
    (h : file.setAttrpath path replacement = .ok file') :
    ∃ set fill final indent, root.attrset = some set ∧
      Descends set.entries set set.inside path fill final point ∧
      rnix.parse file'.source =
        .ok (root.withEntries (fill (newEntry indent point.remaining value final))) := by
  obtain ⟨set, fill, final, hset, hdescends, hpanic, hplain⟩ := spliceEntry_eq hparse hpath hpoint
  rw [setAttrpath_of_point hparse hpath hfind hpoint] at h
  cases hrec : point.attrset.recToken with
  | some trivia =>
    rw [hpanic trivia hrec] at h
    cases h
  | none =>
    obtain ⟨indent, hindent, hsplice⟩ := hplain hrec
    refine ⟨set, fill, final, indent, hset, hdescends, ?_⟩
    rw [← hexpr.text_eq, hsplice] at h
    dsimp only at h
    rw [accept_eq_ok] at h
    obtain ⟨root', hparse'⟩ := file'.parses
    rw [hparse']
    rw [h] at hparse'
    rw [hentries root set fill indent point.remaining value final root'
      (by rw [rnix.lossless hparse]; exact hparse) hset hdescends.context hdescends.fill_nil.symm
      hindent (hdescends.remaining_ne hpath) hsegments (by rw [hexpr.text_eq]; exact hexpr) hparse']

end Accepted

end Dashboard
end Cococoir
