import Mathlib.Data.List.Basic

/-!
# A web server's sites

What a Caddy site is made of, as far as the rendered ones use it, and which paths a handle
matches: a path is compared without regard to case.

Texts are literal words: there is no wildcard, placeholder or regular expression in them but where
a constructor says so.

* `Site`: a site, its handles and their directives.
* `Matcher.Matches`: the paths that a handle is for.

A site is its handles and, for every request, the directives that are in none: `Site.rows` has
both in one form.  Within a handle the directives stand in the order written, so a gate in front
of a proxy can be told from one behind it.  A pattern is a path, or everything below one, which
are the two forms the rendered sites use: `/git` and `/git/*`.

Matching lowers the pattern and expects a path that is in lower case already.  The lowering is
that of the ASCII letters.  The server folds the other letters, too, so of paths with such letters
in different cases nothing is said here.  `SegmentPrefix` is the relation that two services' paths
must not be in, and `slash_suffix_of_lower` is the fact about letters that it rests on: no letter
is lowered to a slash.
-/

namespace Cococoir
namespace Caddy

abbrev Text : Type := List Char

/-! ## Sites -/

/-- The origin that a header is rewritten to: a fixed one, or plain HTTP at the host of the
request. -/
inductive Origin : Type where
  | fixed (origin : Text) : Origin
  | requestHost : Origin
  deriving DecidableEq

/-- A change to a header of an answer. -/
inductive HeaderOp : Type where
  /-- Another origin for a location that starts with this one; `whole`, when the origin ends
  there. -/
  | location (start : Text) (whole : Bool) (origin : Origin) : HeaderOp
  /-- Cookies are kept to a path. -/
  | setCookie (path : Text) : HeaderOp
  deriving DecidableEq

/-- The paths that a matcher lists: one, or all below one. -/
inductive Pattern : Type where
  | exact (path : Text) : Pattern
  | under (path : Text) : Pattern
  deriving DecidableEq

/-- The requests that a handle is for: all, those with a path, or those of a named list. -/
inductive Matcher : Type where
  | all : Matcher
  | path (path : Text) : Matcher
  | named (name : String) (patterns : List Pattern) : Matcher
  deriving DecidableEq

def Matcher.patterns : Matcher → List Pattern
  | .all => []
  | .path p => [.exact p]
  | .named _ patterns => patterns

inductive Directive : Type where
  | forwardAuth (upstream uri : Text) : Directive
  | stripPrefix (path : Text) : Directive
  | header (op : HeaderOp) : Directive
  | reverseProxy (upstream : Text) : Directive
  | redir (target : Text) (withUri : Bool) (code : ℕ) : Directive
  | respond (body : Text) (code : ℕ) : Directive
  deriving DecidableEq

/-- Directives in the order written, for the requests that match. -/
structure Handle : Type where
  matcher : Matcher
  route : List Directive
  deriving DecidableEq

/-- A site, with the directives that are in no handle. -/
structure Site : Type where
  tls : Option (Text × Text)
  bind : List Text
  header : List HeaderOp
  handles : List Handle
  route : List Directive
  deriving DecidableEq

/-- All that a site does with requests. -/
def Site.rows (site : Site) : List Handle := site.handles ++ [⟨.all, site.route⟩]

/-! ## Paths -/

/-- The ASCII letters in lower case; the others stay as they are. -/
def lower (text : Text) : Text := text.map Char.toLower

/-- The pattern matches the path, which is in lower case. -/
def Pattern.Matches : Pattern → Text → Prop
  | .exact p, path => path = lower p
  | .under p, path => lower p ++ ['/'] <+: path

/-- The matcher matches the path, which is in lower case. -/
def Matcher.Matches (m : Matcher) (path : Text) : Prop :=
  m = .all ∨ ∃ pattern ∈ m.patterns, pattern.Matches path

/-- The path of one is that of the other or above it, when case does not count. -/
def SegmentPrefix (path path' : Text) : Prop := lower path ++ ['/'] <+: lower path' ++ ['/']

instance : ∀ (pattern : Pattern) (path : Text), Decidable (pattern.Matches path)
  | .exact _, _ => inferInstanceAs (Decidable (_ = _))
  | .under _, _ => inferInstanceAs (Decidable (_ <+: _))

instance (m : Matcher) (path : Text) : Decidable (m.Matches path) :=
  inferInstanceAs (Decidable (_ ∨ ∃ pattern ∈ m.patterns, pattern.Matches path))

instance (path path' : Text) : Decidable (SegmentPrefix path path') :=
  inferInstanceAs (Decidable (_ <+: _))

theorem toLower_eq_slash {c : Char} (h : c.toLower = '/') : c = '/' := by
  unfold Char.toLower at h
  split_ifs at h with hupper
  · have hlow : 65 ≤ c.val.toNat := UInt32.le_iff_toNat_le.mp hupper.1
    have hhigh : c.val.toNat ≤ 90 := UInt32.le_iff_toNat_le.mp hupper.2
    have hval : (c.val + 32).toNat = 47 := congrArg Char.toNat h
    rw [UInt32.toNat_add] at hval
    have hadd : (32 : UInt32).toNat = 32 := rfl
    omega
  · exact h

/-- A path that is a slash below another in lower case ends with a slash. -/
theorem slash_suffix_of_lower {path p : Text} (h : lower path = p ++ ['/']) : ['/'] <:+ path := by
  obtain ⟨a, b, rfl, -, hb⟩ := List.map_eq_append_iff.mp h
  obtain ⟨c, rfl, hc⟩ := List.map_eq_singleton_iff.mp hb
  rw [toLower_eq_slash hc]
  exact List.suffix_append ..

end Caddy
end Cococoir
