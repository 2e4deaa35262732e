import Cococoir.Concurrency.Prog
import Cococoir.Dashboard.Syntax
import Mathlib.Algebra.GroupWithZero.Nat

/-!
# Editing a config file

A value is looked up by its attribute path, and an edit replaces the characters of one value or
adds one entry: everything else keeps its place.  Offsets are counted in characters; the spans of
the tree start and end between characters, so nothing depends on how many bytes these take.

The lookups walk the entries of an attribute set with the offset at which these start.

## The dictionary

The functions are those of `nix_config_parser.rs`.  Its tree is rnix's, where every node knows its
span; here a node is a term, its text is computed from it, and the offset at which it stands is
carried along by whoever walks: `Located`, `AttrSet`.  `findInAttrset` is `find_in_attrset`, with
the path's rest as an argument where the source shortens a slice; `descend` and `insertPoint` find
where a missing binding belongs, and `none` means that something else is in the way.

## An edit, in the source's order

`setAttrpath` looks the path up.  If there is a value its characters give way to those of the new
one, `spliceSpan`.  If not, and if an attribute set can take it, one entry is written after the
last one, in the indentation of the line before, `spliceEntry`; this is where an assertion of the
source may fail, with a recursive set.  The new text is parsed again, and an edit that does not
parse is refused: `accept`.

`NixConfigFile` has as a field that its source parses, so a file that does not parse is not a
file.
-/

namespace Cococoir
namespace Dashboard

open Concurrency (Outcome)

/-! ## Values -/

/-- The value of a node, interpreted as far as the dashboard needs. -/
inductive NixValue : Type where
  | bool (b : Bool) : NixValue
  | str (s : Text) : NixValue
  | strList (items : List Text) : NixValue
  | other (raw : Text) : NixValue
  deriving DecidableEq

/-- Escape a character of a quoted string. -/
def escapeChar : Char → Text
  | '"' => ['\\', '"']
  | '\\' => ['\\', '\\']
  | '\n' => ['\\', 'n']
  | '\t' => ['\\', 't']
  | '\r' => ['\\', 'r']
  | c => [c]

/-- Quote a string as a Nix double-quoted string literal. -/
def quoteNixString (s : Text) : Text := '"' :: (s.flatMap escapeChar ++ ['"'])

/-- Render a value as Nix source text. -/
def NixValue.toSource : NixValue → Text
  | .bool true => "true".toList
  | .bool false => "false".toList
  | .str s => quoteNixString s
  | .strList items =>
    "[ ".toList ++ (List.intercalate [' '] (items.map quoteNixString) ++ " ]".toList)
  | .other raw => raw

/-- The text of a string without interpolations. -/
def literalString : List InterpolPart → Option Text
  | [] => some []
  | .literal s :: parts => (literalString parts).map (s ++ ·)
  | .interpolation :: _ => none

/-- The name of an attribute that does not depend on the evaluation. -/
def attrName : Attr → Option Text
  | .ident text => some text
  | .str parts _ => literalString parts
  | .dynamic _ => none

/-- The texts of a list's items, when all are literal strings. -/
def literalItems : List Item → Option (List Text)
  | [] => some []
  | .str parts :: items =>
    match literalString parts, literalItems items with
    | some s, some rest => some (s :: rest)
    | _, _ => none
  | .other :: _ => none

/-- Interpret a node; anything that is not a boolean, a string or a list of strings keeps its
source text. -/
def interpret : Node → NixValue
  | .leaf (.ident text) =>
    if text = "true".toList then .bool true
    else if text = "false".toList then .bool false
    else .other text
  | .leaf (.str parts text) => ((literalString parts).map .str).getD (.other text)
  | .leaf (.list items text) => ((literalItems items).map .strList).getD (.other text)
  | .leaf (.other text) => .other text
  | .attrSet recToken entries => .other (Node.attrSet recToken entries).text

/-! ## Lookup -/

/-- The names of a key; a part that is not a literal is left out. -/
def Binder.names (key : Binder) : List Text := key.attrpath.filterMap fun p => attrName p.2

/-- Do the names and the path agree as far as both go? -/
def agrees (names path : List Text) : Bool := (names.zip path).all fun p => p.1 = p.2

/-- Is `short` a strict prefix of `long`? -/
def isStrictPrefix (short long : List Text) : Bool := short.length < long.length && agrees short long

/-- A node and where it starts. -/
structure Located : Type where
  start : ℕ
  node : Node
  deriving DecidableEq

/-- An attribute set and where it starts. -/
structure AttrSet : Type where
  start : ℕ
  recToken : Option Text
  entries : Entries
  deriving DecidableEq

/-- Where the entries of the attribute set start. -/
def AttrSet.inside (set : AttrSet) : ℕ := set.start + (openText set.recToken).length

def AttrSet.text (set : AttrSet) : Text := (Node.attrSet set.recToken set.entries).text

/-- Find the value of `path` among entries: the first one, behind dotted keys and nested sets. -/
def findInAttrset : Entries → ℕ → List Text → Option Located
  | .nil _, _, _ => none
  | .inherit trivia _ text rest, start, path =>
    findInAttrset rest (start + trivia.length + text.length) path
  | .leaf key value beforeSemi rest, start, path =>
    let valueStart := start + key.text.length
    let next := valueStart + value.text.length + beforeSemi.length + 1
    if key.names = [] ∨ path.length < key.names.length then findInAttrset rest next path
    else if !agrees key.names path then findInAttrset rest next path
    else if key.names.length = path.length then some ⟨valueStart, .leaf value⟩
    else findInAttrset rest next path
  | .set key recToken inner beforeSemi rest, start, path =>
    let value : AttrSet := ⟨start + key.text.length, recToken, inner⟩
    let next := value.start + value.text.length + beforeSemi.length + 1
    if key.names = [] ∨ path.length < key.names.length then findInAttrset rest next path
    else if !agrees key.names path then findInAttrset rest next path
    else if key.names.length = path.length then some ⟨value.start, .attrSet recToken inner⟩
    else
      match findInAttrset inner value.inside (path.drop key.names.length) with
      | some found => some found
      | none => findInAttrset rest next path

/-- Unwrap an expression to its attribute set: a function's body, a `let`'s, and parentheses. -/
def rootExprToAttrset : Expr → ℕ → Option AttrSet
  | .attrSet recToken entries, start => some ⟨start, recToken, entries⟩
  | .lambda head body, start => rootExprToAttrset body (start + head.length)
  | .letIn head body, start => rootExprToAttrset body (start + head.length)
  | .paren before inner _, start => rootExprToAttrset inner (start + 1 + before.length)
  | .leaf _, _ => none

def Root.attrset (root : Root) : Option AttrSet := rootExprToAttrset root.expr root.before.length

/-- The value node for `path`. -/
def findValueNode (root : Root) (path : List Text) : Option Located :=
  root.attrset.bind fun set => findInAttrset set.entries set.inside path

/-! ## Insertion points -/

/-- A missing binding's home: an attribute set, and what is left of the path in it. -/
structure InsertPoint : Type where
  attrset : AttrSet
  remaining : List Text
  deriving DecidableEq

/-- Walk `path` through the entries of `set` as deep as attribute sets allow; `none` when the path
is blocked. -/
def descend : Entries → AttrSet → ℕ → List Text → Option InsertPoint
  | .nil _, set, _, path => some ⟨set, path⟩
  | .inherit trivia _ text rest, set, start, path =>
    descend rest set (start + trivia.length + text.length) path
  | .leaf key value beforeSemi rest, set, start, path =>
    let next := start + key.text.length + value.text.length + beforeSemi.length + 1
    if key.names = [] ∨ path.length < key.names.length then
      if key.names ≠ [] ∧ isStrictPrefix path key.names then none
      else descend rest set next path
    else if !agrees key.names path then descend rest set next path
    else if key.names.length = path.length then none
    -- the value is none that can be extended
    else none
  | .set key recToken inner beforeSemi rest, set, start, path =>
    let value : AttrSet := ⟨start + key.text.length, recToken, inner⟩
    let next := value.start + value.text.length + beforeSemi.length + 1
    if key.names = [] ∨ path.length < key.names.length then
      if key.names ≠ [] ∧ isStrictPrefix path key.names then none
      else descend rest set next path
    else if !agrees key.names path then descend rest set next path
    else if key.names.length = path.length then none
    else descend inner value value.inside (path.drop key.names.length)

/-- The deepest attribute set on the path, and what is left of it there. -/
def insertPoint (root : Root) (path : List Text) : Option InsertPoint :=
  root.attrset.bind fun set => descend set.entries set set.inside path

/-! ## Splicing -/

/-- Failures from an edit. -/
inductive SetError : Type where
  | notFound (path : Text) : SetError
  | invalidValue (value : Text) : SetError
  deriving DecidableEq

/-- Replace a node in `source`. -/
def spliceSpan (source : Text) (node : Located) (replacement : Text) : Text :=
  source.take node.start ++ (replacement ++ source.drop (node.start + node.node.text.length))

/-- The ends of the entries that start at an offset. -/
def Entries.ends : Entries → ℕ → List ℕ
  | .nil _, _ => []
  | .inherit trivia _ text rest, start =>
    let next := start + trivia.length + text.length
    next :: rest.ends next
  | .leaf key value beforeSemi rest, start =>
    let next := start + key.text.length + value.text.length + beforeSemi.length + 1
    next :: rest.ends next
  | .set key recToken inner beforeSemi rest, start =>
    let next := start + key.text.length + (Node.attrSet recToken inner).text.length +
      beforeSemi.length + 1
    next :: rest.ends next

/-- White space, as `char::is_whitespace` has it. -/
def isWhitespace (c : Char) : Bool :=
  let n := c.toNat
  (0x09 ≤ n && n ≤ 0x0d) || n = 0x20 || n = 0x85 || n = 0xa0 || n = 0x1680 ||
    (0x2000 ≤ n && n ≤ 0x200a) || n = 0x2028 || n = 0x2029 || n = 0x202f || n = 0x205f ||
    n = 0x3000

/-- What follows the last line break, if there is one. -/
def lastLine : Text → Option Text
  | [] => none
  | c :: s =>
    match lastLine s with
    | some line => some line
    | none => if c = '\n' then some s else none

/-- Indentation for a new entry: that of the last line before it, or two spaces. -/
def entryIndent (source : Text) (start insertAt : ℕ) : Text :=
  let body := (source.drop start).take (insertAt - start)
  match lastLine body with
  | some line =>
    if line.dropWhile isWhitespace ≠ [] then
      List.replicate ((line.takeWhile isWhitespace).map fun c => c.utf8Size).sum ' '
    else [' ', ' ']
  | none => [' ', ' ']

/-- The text of the new entry, from the line break before it. -/
def entryText (indent : Text) (remaining : List Text) (replacement : Text) : Text :=
  '\n' :: (indent ++ (List.intercalate ['.'] remaining ++ (" = ".toList ++ (replacement ++ [';']))))

/-- Where a new entry of the attribute set goes: after the last one, or after the brace. -/
def AttrSet.insertAt (set : AttrSet) : ℕ :=
  (set.entries.ends set.inside).getLast?.getD (set.start + 1)

/-- Splice a new entry into the attribute set. -/
def spliceEntry (source : Text) (point : InsertPoint) (replacement : Text) :
    Outcome SetError Text :=
  if point.remaining = [] then .panic "insert point must carry an unbound path suffix"
  else
    let literal := (source.drop point.attrset.start).take point.attrset.text.length
    if literal.head? = some '{' ∧ literal.getLast? = some '}' then
      let insertAt := point.attrset.insertAt
      let indent := entryIndent source point.attrset.start insertAt
      .ok (source.take insertAt ++
        (entryText indent point.remaining replacement ++ source.drop insertAt))
    else .panic "insert target must be an attrset literal"

/-! ## Files -/

/-- A parsed config file: its source, which parses. -/
structure NixConfigFile (rnix : Rnix) : Type where
  source : Text
  parses : ∃ root, rnix.parse source = .ok root

section Files

variable {rnix : Rnix}

/-- The text as a file, or the error that it does not parse. -/
def NixConfigFile.parse (source : Text) : Except String (NixConfigFile rnix) :=
  match h : rnix.parse source with
  | .ok root => .ok ⟨source, root, h⟩
  | .error message => .error message

/-- A value found at an attribute path, and its characters. -/
structure LocatedValue : Type where
  value : NixValue
  start : ℕ
  raw : Text
  deriving DecidableEq

/-- Look up a value by attribute path. -/
def NixConfigFile.findAttrpath (file : NixConfigFile rnix) (path : List Text) :
    Option LocatedValue :=
  if path = [] then none
  else
    match rnix.parse file.source with
    | .error _ => none
    | .ok root =>
      (findValueNode root path).map fun located =>
        ⟨interpret located.node, located.start,
          (file.source.drop located.start).take located.node.text.length⟩

/-- Accept an edited source if it parses. -/
def accept (candidate replacement : Text) (path : List Text) :
    Outcome SetError (NixConfigFile rnix) :=
  match NixConfigFile.parse candidate with
  | .ok file => .ok file
  | .error _ => .err (.invalidValue
      (replacement ++ (" at path ".toList ++ List.intercalate ['.'] path)))

/-- Set the value at `path`, or add the binding when it is missing. -/
def NixConfigFile.setAttrpath (file : NixConfigFile rnix) (path : List Text)
    (replacement : Text) : Outcome SetError (NixConfigFile rnix) :=
  if path = [] then .panic "set_attrpath requires a non-empty path"
  else
    match rnix.parse file.source with
    | .error _ => .err (.invalidValue "source file does not parse".toList)
    | .ok root =>
      match findValueNode root path with
      | some node => accept (spliceSpan file.source node replacement) replacement path
      | none =>
        match insertPoint root path with
        | none => .err (.notFound (List.intercalate ['.'] path))
        | some point =>
          match spliceEntry file.source point replacement with
          | .ok candidate => accept candidate replacement path
          | .err error => .err error
          | .panic message => .panic message

end Files

end Dashboard
end Cococoir
