import Mathlib.Data.List.Basic

/-!
# The lossless syntax tree of a config file

The editor sees a file through `rnix`, a parser whose tree keeps every character.  The tree here
has what the editor looks at: the attribute sets, their entries and the keys of these, strings by
their parts, and everything else by its text.  A value that is not an attribute set is a leaf,
since no lookup enters it.

`rnix` itself is a parameter, `Rnix`: what it reads a text as, of which the one thing assumed is
that the tree has the text of the file.

## A tree that knows its text

The parser is a parameter: a function from texts to trees.  What is fixed is the shape of a tree,
and that it has its own text: every expression, every entry and every space between is kept, so
that the text of the tree is the text that was parsed.  This is what rnix promises and what the
edits rely on, because they cut the source at the places of nodes.

Only what the dashboard looks at is told apart: attribute sets with their entries, functions,
parentheses and `let`, strings with their parts, lists, identifiers.  Any other expression is a
leaf with its text.
-/

namespace Cococoir
namespace Dashboard

/-- Source text. -/
abbrev Text : Type := List Char

/-- A part of a string, after its escapes are resolved. -/
inductive InterpolPart : Type where
  | literal (s : Text) : InterpolPart
  | interpolation : InterpolPart
  deriving DecidableEq

/-- An attribute of a key. -/
inductive Attr : Type where
  | ident (text : Text) : Attr
  | str (parts : List InterpolPart) (text : Text) : Attr
  | dynamic (text : Text) : Attr
  deriving DecidableEq

def Attr.text : Attr → Text
  | .ident text => text
  | .str _ text => text
  | .dynamic text => text

/-- The attributes of a key, each with what stands between it and the one before it. -/
abbrev Attrpath : Type := List (Text × Attr)

def Attrpath.text (attrpath : Attrpath) : Text := attrpath.flatMap fun p => p.1 ++ p.2.text

/-- An item of a list. -/
inductive Item : Type where
  | str (parts : List InterpolPart) : Item
  | other : Item
  deriving DecidableEq

/-- A value that is not an attribute set. -/
inductive Leaf : Type where
  | ident (text : Text) : Leaf
  | str (parts : List InterpolPart) (text : Text) : Leaf
  | list (items : List Item) (text : Text) : Leaf
  | other (text : Text) : Leaf
  deriving DecidableEq

def Leaf.text : Leaf → Text
  | .ident text => text
  | .str _ text => text
  | .list _ text => text
  | .other text => text

/-- An entry up to its value: the white space and comments before it, and its key, with what
stands around the equals sign. -/
structure Binder : Type where
  trivia : Text
  attrpath : Attrpath
  beforeEq : Text
  afterEq : Text
  deriving DecidableEq

def Binder.text (key : Binder) : Text :=
  key.trivia ++ (key.attrpath.text ++ (key.beforeEq ++ '=' :: key.afterEq))

/-- What opens an attribute set; a recursive one has `rec` and what stands after it. -/
def openText : Option Text → Text
  | none => ['{']
  | some trivia => "rec".toList ++ (trivia ++ ['{'])

/-- The entries of an attribute set, up to its closing brace. -/
inductive Entries : Type where
  | nil (trivia : Text) : Entries
  | inherit (trivia : Text) (names : List Text) (text : Text) (rest : Entries) : Entries
  | leaf (key : Binder) (value : Leaf) (beforeSemi : Text) (rest : Entries) : Entries
  | set (key : Binder) (recToken : Option Text) (inner : Entries) (beforeSemi : Text)
      (rest : Entries) : Entries
  deriving DecidableEq

def Entries.text : Entries → Text
  | .nil trivia => trivia
  | .inherit trivia _ text rest => trivia ++ (text ++ rest.text)
  | .leaf key value beforeSemi rest =>
    key.text ++ (value.text ++ (beforeSemi ++ ';' :: rest.text))
  | .set key recToken inner beforeSemi rest =>
    key.text ++ (openText recToken ++ (inner.text ++ '}' :: (beforeSemi ++ ';' :: rest.text)))

/-- The value of an entry. -/
inductive Node : Type where
  | leaf (value : Leaf) : Node
  | attrSet (recToken : Option Text) (entries : Entries) : Node
  deriving DecidableEq

def Node.text : Node → Text
  | .leaf value => value.text
  | .attrSet recToken entries => openText recToken ++ (entries.text ++ ['}'])

/-- The entry that binds a key to a value. -/
def Entries.attrpathValue (key : Binder) (value : Node) (beforeSemi : Text) (rest : Entries) :
    Entries :=
  match value with
  | .leaf value => .leaf key value beforeSemi rest
  | .attrSet recToken inner => .set key recToken inner beforeSemi rest

@[simp] theorem Entries.text_attrpathValue (key : Binder) (value : Node) (beforeSemi : Text)
    (rest : Entries) : (Entries.attrpathValue key value beforeSemi rest).text =
      key.text ++ (value.text ++ (beforeSemi ++ ';' :: rest.text)) := by
  cases value with
  | leaf value => rfl
  | attrSet recToken inner => simp [attrpathValue, text, Node.text]

/-- The expression of a file: its attribute set, below function headers, `let` and parentheses. -/
inductive Expr : Type where
  | attrSet (recToken : Option Text) (entries : Entries) : Expr
  | lambda (head : Text) (body : Expr) : Expr
  | letIn (head : Text) (body : Expr) : Expr
  | paren (before : Text) (inner : Expr) (after : Text) : Expr
  | leaf (value : Leaf) : Expr
  deriving DecidableEq

def Expr.text : Expr → Text
  | .attrSet recToken entries => (Node.attrSet recToken entries).text
  | .lambda head body => head ++ body.text
  | .letIn head body => head ++ body.text
  | .paren before inner after => '(' :: (before ++ (inner.text ++ (after ++ [')'])))
  | .leaf value => value.text

/-- A file. -/
structure Root : Type where
  before : Text
  expr : Expr
  after : Text
  deriving DecidableEq

def Root.text (root : Root) : Text := root.before ++ (root.expr.text ++ root.after)

/-- The parser: the tree, or the first error's message. -/
structure Rnix : Type where
  parse : Text → Except String Root
  lossless : ∀ {source root}, parse source = .ok root → root.text = source

/-- A parser that knows some files. -/
def tableRnix (roots : List Root) : Rnix where
  parse source :=
    match roots.find? (·.text = source) with
    | some root => .ok root
    | none => .error "unexpected end of file"
  lossless {source root} h := by
    cases hfind : roots.find? (·.text = source) with
    | none =>
      rw [hfind] at h
      cases h
    | some root' =>
      rw [hfind] at h
      cases h
      have hfound := List.find?_some hfind
      exact of_decide_eq_true hfound

end Dashboard
end Cococoir
