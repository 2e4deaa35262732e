import Cococoir.Text.Split

/-!
# Invite URLs, as the box reads them

An owner shares an invite as a link, and a box gets the link as a text that someone pasted.  From
it the box takes two things, which host to dial and which code to ask it for, and it does so
before it has spoken to anyone: a link that is read wrongly sends a fresh key to a stranger.

* `parseInviteUrl`: the edge's base and the code of a pasted link.
* `hostAndCode_eq_some`: exactly the links that are accepted.
* `parseInviteUrl_ok`: what an accepted link gives.

## The shape of a link

The scheme may be `http` or `https`, and either way the edge is asked over TLS: the base is always
made anew from the host.  The host is everything up to the first slash, so it may carry a port.
What follows has to be `i/` and a code, which is not empty and has no slash in it; a query or a
fragment is not cut off, and the edge will refuse such a code since it is no four words of the
list.

The characterization is an equation for the whole text, *scheme, host,* `/i/`, *code*, and not a
description of the steps of the parser, so that what the edge prints is checked against it by
unfolding nothing.
-/

namespace Cococoir
namespace Client

open Split

/-- What can go wrong when a box enrolls. -/
inductive EnrollError : Type where
  | inviteUrl (url : String) : EnrollError
  | api (msg : String) : EnrollError
  | denied : EnrollError
  | timedOut (polls : ℕ) : EnrollError
  | io (msg : String) : EnrollError
  | noTunnelIp : EnrollError
  deriving DecidableEq

def EnrollError.display : EnrollError → String
  | .inviteUrl url => "invalid invite URL: " ++ url
  | .api msg => "edge api: " ++ msg
  | .denied => "denied: the owner denied this machine's enrollment"
  | .timedOut polls => "owner did not approve in time (" ++ toString polls ++ " polls)"
  | .io msg => "state persistence failed: " ++ msg
  | .noTunnelIp => "assigned tunnel ip is missing from the approval payload"

def https : List Char := ['h', 't', 't', 'p', 's', ':', '/', '/']

def http : List Char := ['h', 't', 't', 'p', ':', '/', '/']

/-- What follows the scheme. -/
def stripScheme (url : List Char) : Option (List Char) :=
  (stripPrefix https url).or (stripPrefix http url)

/-- The host and the code of an invite link. -/
def hostAndCode (url : List Char) : Option (List Char × List Char) := do
  let rest ← stripScheme url
  let (host, path) ← splitOnce '/' rest
  let code ← stripPrefix ['i', '/'] path
  if host = [] ∨ code = [] ∨ '/' ∈ code then none else some (host, code)

/-- The edge's base, which is always asked over TLS, and the invite code. -/
def parseInviteUrl (inviteUrl : String) : Except EnrollError (String × String) :=
  match hostAndCode inviteUrl.toList with
  | some (base, code) => .ok ("https://" ++ String.ofList base, String.ofList code)
  | none => .error (.inviteUrl inviteUrl)

theorem stripScheme_eq_some {url rest : List Char} :
    stripScheme url = some rest ↔ url = https ++ rest ∨ url = http ++ rest := by
  unfold stripScheme
  cases h : stripPrefix https url with
  | some rest' =>
    rw [stripPrefix_eq_some] at h
    subst h
    rw [Option.some_or, Option.some.injEq, List.append_cancel_left_eq]
    refine (or_iff_left fun he => ?_).symm
    -- the two schemes part at the `s`
    simp [https, http] at he
  | none =>
    rw [Option.none_or, stripPrefix_eq_some]
    refine (or_iff_right ?_).symm
    rintro rfl
    rw [stripPrefix_append] at h
    cases h

/-- **The links that are accepted**: a scheme, a host, `/i/` and a code, neither of them empty or
with a slash in it. -/
theorem hostAndCode_eq_some {url host code : List Char} : hostAndCode url = some (host, code) ↔
    (url = https ++ (host ++ '/' :: 'i' :: '/' :: code) ∨
      url = http ++ (host ++ '/' :: 'i' :: '/' :: code)) ∧
    host ≠ [] ∧ '/' ∉ host ∧ code ≠ [] ∧ '/' ∉ code := by
  simp only [hostAndCode, Option.bind_eq_bind, Option.bind_eq_some_iff, stripScheme_eq_some]
  constructor
  · rintro ⟨rest, hscheme, ⟨host', path⟩, hsplit, code', hpath, h⟩
    rw [splitOnce_eq_some] at hsplit
    rw [stripPrefix_eq_some] at hpath
    split_ifs at h with hbad
    cases h
    push Not at hbad
    obtain ⟨rfl, hhost⟩ := hsplit
    subst hpath
    exact ⟨hscheme, hbad.1, hhost, hbad.2.1, hbad.2.2⟩
  · rintro ⟨hscheme, hhost, hslash, hcode, hcodeSlash⟩
    refine ⟨_, hscheme, (host, 'i' :: '/' :: code), splitOnce_append hslash, code,
      stripPrefix_append (a := ['i', '/']), ?_⟩
    rw [if_neg (by simp [hhost, hcode, hcodeSlash])]

/-- An accepted link is read as its host, over TLS, and its code. -/
theorem parseInviteUrl_ok {url : String} {host code : List Char}
    (h : hostAndCode url.toList = some (host, code)) :
    parseInviteUrl url = .ok ("https://" ++ String.ofList host, String.ofList code) := by
  rw [parseInviteUrl, h]

end Client
end Cococoir
