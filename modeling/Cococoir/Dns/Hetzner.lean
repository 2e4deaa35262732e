import Cococoir.Concurrency.Prog
import Cococoir.Net.Address
import Mathlib.Data.List.DropRight
import Mathlib.Logic.Function.Basic

/-!
# The DNS provider

A zone holds rrsets, each with its name and type and with one or more values, and three requests
reach it: a listing, a creation and a deletion.  The listing gives one page of the zone.  There is no
update, so a value that is not the right one is deleted and created again.

* `upsertAaaa`, `removeAaaa`: the two operations, as the requests that they make.
* `ok_upsertAaaa`: what an upsert that succeeds leaves, for any page.
* `unlistedRecord`: a record that is not on the page is not removed.
* `correct_iff`: when both operations do what they say.

## The listing

An upsert has to know whether there is a record, and a removal has to know its identity, and both
ask for the listing of the zone and search it.  The listing is one page.  An upsert survives this:
if the record is on another page it tries to create it, and the provider refuses, since a name and
a type have one rrset; it ends with an error and the zone as it was.  A removal does not: what is
not listed is taken for not there, and it succeeds.  `correct_iff` says that this is all that can
go wrong.

Requests are the commands of a program, as with the store, and each can fail before it was carried
out or after; so a creation that was carried out and reported as failed is met again by a second
upsert, which finds what it wants.
-/

namespace Cococoir
namespace Dns

open Concurrency
open Concurrency.Prog (ofExcept issue)
open Net (Ipv6Addr)

inductive DnsError : Type where
  | config (text : String) : DnsError
  | http (text : String) : DnsError
  | api (text : String) : DnsError
  | resolve (text : String) : DnsError
  deriving DecidableEq

/-- An rrset as it is listed. -/
structure HetznerRrset : Type where
  type : String
  name : String
  records : List String
  deriving DecidableEq

/-- An rrset that is to be created. -/
structure NewRrset : Type where
  type : String
  name : String
  ttl : ℕ
  records : List String
  deriving DecidableEq

/-- What the provider keeps of an rrset, next to its name and type. -/
structure Content : Type where
  ttl : ℕ
  records : List String
  deriving DecidableEq

/-- The rrsets of a zone, by name and type. -/
abbrev Zone : Type := String × String → Option Content

/-- The client's configuration: the zone that it writes into. -/
structure HetznerDns : Type where
  zoneName : String

/-! ## Requests -/

inductive Request : Type where
  | getRrsets : Request
  | create (new : NewRrset) : Request
  | delete (name : String) : Request
  deriving DecidableEq

@[reducible] def Request.Resp : Request → Type
  | .getRrsets => Except DnsError (List HetznerRrset)
  | .create _ => Except DnsError Unit
  | .delete _ => Except DnsError Unit

/-- What the environment decides about one request: whether it fails, whether it was carried out
although it failed, and which rrsets a page has. -/
structure Choice where
  fails : Bool := false
  carriedOut : Bool := false
  text : String := ""
  keys : List (String × String) := []

/-- The rrsets of a page. -/
def page (zone : Zone) (keys : List (String × String)) : List HetznerRrset :=
  keys.filterMap fun key => (zone key).map fun content => ⟨key.2, key.1, content.records⟩

/-- A change, and its answer, which may be lost. -/
def answer (ch : Choice) (zone zone' : Zone) : Except DnsError Unit × Zone :=
  if ch.fails then (.error (.http ch.text), if ch.carriedOut then zone' else zone) else (.ok (), zone')

def Request.exec (ch : Choice) : (c : Request) → Zone → c.Resp × Zone
  | .getRrsets, zone =>
    if ch.fails then (.error (.http ch.text), zone) else (.ok (page zone ch.keys), zone)
  | .create new, zone =>
    -- an rrset that is there already is a conflict
    if (zone (new.name, new.type)).isSome then (.error (.http ch.text), zone)
    else answer ch zone (Function.update zone (new.name, new.type) (some ⟨new.ttl, new.records⟩))
  | .delete name, zone =>
    if (zone (name, "AAAA")).isNone then (.error (.http ch.text), zone)
    else answer ch zone (Function.update zone (name, "AAAA") none)

/-- A program of the client. -/
abbrev Client (α : Type) : Type := Prog Request Request.Resp DnsError α

/-- Make a request; its failure ends the program. -/
def getRrsets : Client (List HetznerRrset) := do
  let resp ← issue .getRrsets
  ofExcept resp

/-! ## Operations -/

def trimEndDots (s : String) : String := String.ofList (s.toList.rdropWhile (· = '.'))

/-- The text before a suffix, if it has it. -/
def stripSuffix (s suffix : String) : Option String :=
  if suffix.toList <:+ s.toList then
    some (String.ofList (s.toList.take (s.toList.length - suffix.toList.length)))
  else none

variable (cfg : HetznerDns)

/-- The name that the provider expects: without the zone's own, and `@` for the zone itself. -/
@[irreducible] def HetznerDns.relativeName (full : String) : Except DnsError String :=
  let zone := trimEndDots cfg.zoneName
  let full := trimEndDots full
  if full = zone then .ok "@"
  else
    match stripSuffix full ("." ++ zone) with
    | some name => .ok name
    | none => .error (.api s!"{full} is not under zone {zone}")

/-- The AAAA rrset of a name, if it is listed. -/
def getRrset (name : String) : Client (Option HetznerRrset) := do
  let rrsets ← getRrsets
  return rrsets.find? fun r => r.type = "AAAA" ∧ r.name = name

def createRrset (name : String) (ipv6 : Ipv6Addr) : Client Unit := do
  let resp ← issue (.create ⟨"AAAA", name, 300, [ipv6.display]⟩)
  ofExcept resp

def deleteRrset (name : String) : Client Unit := do
  let resp ← issue (.delete name)
  ofExcept resp

/-- Create or update the AAAA record of a name. -/
def upsertAaaa (name : String) (ipv6 : Ipv6Addr) : Client Unit := do
  let relative ← ofExcept (cfg.relativeName name)
  let target := ipv6.display
  match ← getRrset relative with
  | some rrset =>
    if rrset.records = [target] then return ()
    else do
      deleteRrset relative
      createRrset relative ipv6
  | none => createRrset relative ipv6

/-- Remove the AAAA record of a name; a missing record is no error. -/
def removeAaaa (name : String) : Client Unit := do
  let relative ← ofExcept (cfg.relativeName name)
  match ← getRrset relative with
  | some _ => deleteRrset relative
  | none => return ()

/-! ## Runs of the requests -/

variable {cfg} {good : Request → Choice → Prop} {zone zone' : Zone} {name : String} {ipv6 : Ipv6Addr}

/-- A page has the rrset of a name if the name is on it. -/
theorem find?_page {keys : List (String × String)} :
    (page zone keys).find? (fun r => r.type = "AAAA" ∧ r.name = name) =
      if (name, "AAAA") ∈ keys then
        (zone (name, "AAAA")).map fun content => ⟨"AAAA", name, content.records⟩
      else none := by
  induction keys with
  | nil => rfl
  | cons key keys ih =>
    obtain ⟨name', type'⟩ := key
    unfold page at ih ⊢
    rw [List.filterMap_cons]
    by_cases hkey : (name, "AAAA") = (name', type')
    · cases hkey
      rw [if_pos List.mem_cons_self]
      cases hzone : zone (name, "AAAA") with
      | none =>
        rw [hzone, Option.map_none, ite_self] at ih
        exact ih
      | some content => exact List.find?_cons_of_pos (by simp)
    · have hmem : (name, "AAAA") ∈ (name', type') :: keys ↔ (name, "AAAA") ∈ keys := by
        rw [List.mem_cons, or_iff_right hkey]
      rw [if_congr hmem rfl rfl, ← ih]
      cases hzone : zone (name', type') with
      | none => rfl
      | some content =>
        refine List.find?_cons_of_neg fun h => hkey ?_
        obtain ⟨rfl, rfl⟩ := of_decide_eq_true h
        rfl

theorem answer_cases (ch : Choice) (zone zone' : Zone) :
    (∃ e zone'', (zone'' = zone ∨ zone'' = zone') ∧ answer ch zone zone' = (.error e, zone'')) ∨
      answer ch zone zone' = (.ok (), zone') := by
  unfold answer
  split_ifs
  · exact .inl ⟨_, _, .inr rfl, rfl⟩
  · exact .inl ⟨_, _, .inl rfl, rfl⟩
  · exact .inr rfl

/-- A creation fails, or found no rrset. -/
theorem exec_create_cases (ch : Choice) (new : NewRrset) (zone : Zone) :
    (∃ e zone', Request.exec ch (.create new) zone = (.error e, zone') ∧
        ((zone (new.name, new.type)).isSome → zone' = zone)) ∨
      (zone (new.name, new.type) = none ∧ Request.exec ch (.create new) zone =
        (.ok (), Function.update zone (new.name, new.type) (some ⟨new.ttl, new.records⟩))) := by
  by_cases hthere : (zone (new.name, new.type)).isSome
  · exact .inl ⟨_, _, if_pos hthere, fun _ => rfl⟩
  · have hexec : Request.exec ch (.create new) zone = _ := if_neg hthere
    rcases answer_cases ch zone
        (Function.update zone (new.name, new.type) (some ⟨new.ttl, new.records⟩)) with
      ⟨e, zone', -, h⟩ | h
    · exact .inl ⟨e, zone', hexec.trans h, fun h => absurd h hthere⟩
    · exact .inr ⟨Option.not_isSome_iff_eq_none.mp hthere, hexec.trans h⟩

/-- A deletion fails, or there is no rrset afterwards. -/
theorem exec_delete_cases (ch : Choice) (name : String) (zone : Zone) :
    (∃ e zone', Request.exec ch (.delete name) zone = (.error e, zone')) ∨
      Request.exec ch (.delete name) zone = (.ok (), Function.update zone (name, "AAAA") none) := by
  by_cases hthere : (zone (name, "AAAA")).isNone
  · exact .inl ⟨_, _, if_pos hthere⟩
  · have hexec : Request.exec ch (.delete name) zone = _ := if_neg hthere
    rcases answer_cases ch zone (Function.update zone (name, "AAAA") none) with ⟨e, zone', -, h⟩ | h
    · exact .inl ⟨e, zone', hexec.trans h⟩
    · exact .inr (hexec.trans h)

/-- A creation that succeeds found no rrset. -/
theorem ok_createRrset (h : (createRrset name ipv6).Runs Request.exec good zone (.ok ()) zone') :
    zone (name, "AAAA") = none ∧
      zone' = Function.update zone (name, "AAAA") (some ⟨300, [ipv6.display]⟩) := by
  obtain ⟨ch, -, h⟩ := h
  rcases exec_create_cases ch ⟨"AAAA", name, 300, [ipv6.display]⟩ zone with
    ⟨e, zone₁, he, -⟩ | ⟨hnone, he⟩ <;> rw [he] at h
  · cases h.1
  · exact ⟨hnone, h.2⟩

/-- Where there is an rrset a creation leaves it. -/
theorem runs_createRrset_conflict {o : Outcome DnsError Unit} (hthere : (zone (name, "AAAA")).isSome)
    (h : (createRrset name ipv6).Runs Request.exec good zone o zone') : zone' = zone := by
  obtain ⟨ch, -, h⟩ := h
  rcases exec_create_cases ch ⟨"AAAA", name, 300, [ipv6.display]⟩ zone with
    ⟨e, zone₁, he, hsame⟩ | ⟨hnone, -⟩
  · rw [he] at h
    exact h.2.trans (hsame hthere)
  · rw [show zone (name, "AAAA") = none from hnone] at hthere
    cases hthere

/-- A deletion that succeeds leaves no rrset. -/
theorem ok_deleteRrset {α : Type} {f : Unit → Client α} {a : α}
    (h : (deleteRrset name >>= f).Runs Request.exec good zone (.ok a) zone') :
    (f ()).Runs Request.exec good (Function.update zone (name, "AAAA") none) (.ok a) zone' := by
  obtain ⟨ch, -, h⟩ := h
  rcases exec_delete_cases ch name zone with ⟨e, zone₁, he⟩ | he <;> rw [he] at h
  · cases h.1
  · exact h

/-- A listing leaves the zone; it fails, or gives a page. -/
theorem runs_getRrset {α : Type} {f : Option HetznerRrset → Client α} {o : Outcome DnsError α} :
    (getRrset name >>= f).Runs Request.exec good zone o zone' ↔
      (∃ ch, good .getRrsets ch ∧ ch.fails = true ∧ o = .err (.http ch.text) ∧ zone' = zone) ∨
      ∃ ch, good .getRrsets ch ∧ ch.fails = false ∧
        (f ((page zone ch.keys).find? fun r => r.type = "AAAA" ∧ r.name = name)).Runs Request.exec good
          zone o zone' := by
  constructor
  · rintro ⟨ch, hch, h⟩
    cases hfails : ch.fails with
    | true =>
      have hexec : Request.exec ch .getRrsets zone = _ := if_pos hfails
      rw [hexec] at h
      exact .inl ⟨ch, hch, hfails, h⟩
    | false =>
      have hexec : Request.exec ch .getRrsets zone = _ := if_neg (by rw [hfails]; nofun)
      rw [hexec] at h
      exact .inr ⟨ch, hch, hfails, h⟩
  · rintro (⟨ch, hch, hfails, h⟩ | ⟨ch, hch, hfails, h⟩)
    · refine ⟨ch, hch, ?_⟩
      have hexec : Request.exec ch .getRrsets zone = _ := if_pos hfails
      rw [hexec]
      exact h
    · refine ⟨ch, hch, ?_⟩
      have hexec : Request.exec ch .getRrsets zone = _ := if_neg (by rw [hfails]; nofun)
      rw [hexec]
      exact h

/-! ## What the operations leave -/

variable {relative : String}

/-- **An upsert that succeeds**, whatever is on its page: the rrset of the name has the address and
nothing else, and no other rrset has changed. -/
theorem ok_upsertAaaa (hname : cfg.relativeName name = .ok relative)
    (h : (upsertAaaa cfg name ipv6).Runs Request.exec good zone (.ok ()) zone') :
    (∃ ttl, zone' (relative, "AAAA") = some ⟨ttl, [ipv6.display]⟩) ∧
      ∀ key, key ≠ (relative, "AAAA") → zone' key = zone key := by
  rw [upsertAaaa, hname, Prog.ofExcept_ok, Prog.pure_bind, runs_getRrset] at h
  obtain ⟨_, -, -, h, -⟩ | ⟨ch, -, -, h⟩ := h
  · cases h
  rw [find?_page] at h
  have hcreate : ∀ {zone₁}, (createRrset relative ipv6).Runs Request.exec good zone₁ (.ok ()) zone' →
      (∀ key, key ≠ (relative, "AAAA") → zone₁ key = zone key) →
      (∃ ttl, zone' (relative, "AAAA") = some ⟨ttl, [ipv6.display]⟩) ∧
        ∀ key, key ≠ (relative, "AAAA") → zone' key = zone key := by
    intro zone₁ hrun hsame
    obtain ⟨-, rfl⟩ := ok_createRrset hrun
    exact ⟨⟨300, Function.update_self ..⟩, fun key hkey =>
      (Function.update_of_ne hkey _ _).trans (hsame key hkey)⟩
  split_ifs at h with hlisted
  · cases hzone : zone (relative, "AAAA") with
    | none =>
      rw [hzone] at h
      exact hcreate h fun _ _ => rfl
    | some content =>
      rw [hzone, Option.map_some] at h
      dsimp only at h
      split_ifs at h with hrecords
      · obtain ⟨-, rfl⟩ := h
        refine ⟨⟨content.ttl, hzone.trans ?_⟩, fun _ _ => rfl⟩
        rw [← hrecords]
      · exact hcreate (ok_deleteRrset h) fun key hkey => Function.update_of_ne hkey _ _
  · exact hcreate h fun _ _ => rfl

/-- An upsert of the address that is there changes nothing, even where it fails. -/
theorem runs_upsertAaaa_again (hname : cfg.relativeName name = .ok relative) {ttl : ℕ}
    (hzone : zone (relative, "AAAA") = some ⟨ttl, [ipv6.display]⟩) {o : Outcome DnsError Unit}
    (h : (upsertAaaa cfg name ipv6).Runs Request.exec good zone o zone') : zone' = zone := by
  rw [upsertAaaa, hname, Prog.ofExcept_ok, Prog.pure_bind, runs_getRrset] at h
  obtain ⟨_, -, -, -, h⟩ | ⟨ch, -, -, h⟩ := h
  · exact h
  rw [find?_page, hzone, Option.map_some] at h
  split_ifs at h with hlisted
  · dsimp only at h
    rw [if_pos rfl] at h
    exact h.2
  · exact runs_createRrset_conflict (by rw [hzone]; rfl) h

/-- A removal that succeeds changes no other rrset, and removes the one on its page. -/
theorem ok_removeAaaa (hname : cfg.relativeName name = .ok relative)
    {keys : List (String × String)}
    (h : (removeAaaa cfg name).Runs Request.exec (fun c ch => c = .getRrsets → ch.keys = keys) zone
      (.ok ()) zone') :
    (zone' = if (relative, "AAAA") ∈ keys then Function.update zone (relative, "AAAA") none
      else zone) := by
  rw [removeAaaa, hname, Prog.ofExcept_ok, Prog.pure_bind, runs_getRrset] at h
  obtain ⟨_, -, -, h, -⟩ | ⟨ch, hkeys, -, h⟩ := h
  · cases h
  rw [find?_page, hkeys rfl] at h
  split_ifs at h ⊢ with hlisted
  · cases hzone : zone (relative, "AAAA") with
    | none =>
      rw [hzone] at h
      rw [← hzone, Function.update_eq_self]
      exact h.2
    | some content =>
      rw [hzone, Option.map_some] at h
      rw [← Prog.bind_pure (deleteRrset relative)] at h
      exact (ok_deleteRrset h).2
  · exact h.2

/-- A removal without the rrset on its page succeeds, and removes nothing. -/
theorem exists_removeAaaa_unlisted (hname : cfg.relativeName name = .ok relative)
    {keys : List (String × String)} (hkeys : (relative, "AAAA") ∉ keys) :
    (removeAaaa cfg name).Runs Request.exec (fun c ch => c = .getRrsets → ch.keys = keys) zone
      (.ok ()) zone := by
  rw [removeAaaa, hname, Prog.ofExcept_ok, Prog.pure_bind, runs_getRrset]
  refine .inr ⟨{ keys := keys }, fun _ => rfl, rfl, ?_⟩
  rw [find?_page, if_neg hkeys]
  exact ⟨rfl, rfl⟩

/-! ## Correctness -/

/-- Both operations do what they say, when the listing gives the page. -/
structure Correct (cfg : HetznerDns) (zone : Zone) (keys : List (String × String)) (name : String) :
    Prop where
  upserted : ∀ relative ipv6 zone', cfg.relativeName name = .ok relative →
    (upsertAaaa cfg name ipv6).Runs Request.exec (fun c ch => c = .getRrsets → ch.keys = keys) zone
      (.ok ()) zone' →
    (∃ ttl, zone' (relative, "AAAA") = some ⟨ttl, [ipv6.display]⟩) ∧
      ∀ key, key ≠ (relative, "AAAA") → zone' key = zone key
  /-- A second upsert changes nothing, whatever its page and its outcome. -/
  again : ∀ ipv6 zone' o zone'', (upsertAaaa cfg name ipv6).Runs Request.exec
      (fun c ch => c = .getRrsets → ch.keys = keys) zone (.ok ()) zone' →
    (upsertAaaa cfg name ipv6).Runs Request.exec (fun _ _ => True) zone' o zone'' → zone'' = zone'
  removed : ∀ relative zone', cfg.relativeName name = .ok relative →
    (removeAaaa cfg name).Runs Request.exec (fun c ch => c = .getRrsets → ch.keys = keys) zone
      (.ok ()) zone' →
    zone' (relative, "AAAA") = none ∧ ∀ key, key ≠ (relative, "AAAA") → zone' key = zone key

/-- A name that is not under the zone ends an upsert. -/
theorem exists_relative_of_ok (h : (upsertAaaa cfg name ipv6).Runs Request.exec good zone (.ok ()) zone') :
    ∃ relative, cfg.relativeName name = .ok relative := by
  rw [upsertAaaa] at h
  cases hname : cfg.relativeName name with
  | error e =>
    rw [hname] at h
    cases h.1
  | ok relative => exact ⟨relative, rfl⟩

/-- An rrset that is not on the page is there after a removal. -/
theorem not_correct_of_unlisted {keys : List (String × String)}
    (hname : cfg.relativeName name = .ok relative) (hthere : (zone (relative, "AAAA")).isSome)
    (hkeys : (relative, "AAAA") ∉ keys) : ¬Correct cfg zone keys name := by
  intro h
  have hnone := (h.removed _ _ hname (exists_removeAaaa_unlisted hname hkeys)).1
  rw [hnone] at hthere
  cases hthere

/-- The zone `example.net`, with the record of `bobby`. -/
def sampleDns : HetznerDns := ⟨"example.net"⟩

def sampleZone : Zone := fun key => if key = ("bobby", "AAAA") then some ⟨300, ["2001:db8::1"]⟩ else none

theorem relativeName_sample : sampleDns.relativeName "bobby.example.net" = .ok "bobby" := by
  decide +kernel

/-- A record that is on another page than the one that is listed is not removed. -/
theorem unlistedRecord : ¬Correct sampleDns sampleZone [] "bobby.example.net" :=
  not_correct_of_unlisted relativeName_sample rfl List.not_mem_nil

/-- **When both operations do what they say**: if and only if the rrset of the name, where there is
one, is on the page. -/
theorem correct_iff {keys : List (String × String)} : Correct cfg zone keys name ↔
    ∀ relative, cfg.relativeName name = .ok relative →
      (zone (relative, "AAAA")).isSome → (relative, "AAAA") ∈ keys := by
  constructor
  · intro h relative hname hthere
    by_contra hunlisted
    exact not_correct_of_unlisted hname hthere hunlisted h
  · intro hlisted
    refine ⟨fun _ _ _ hname hrun => ok_upsertAaaa hname hrun, fun ipv6 zone' o zone'' hrun hrun' => ?_,
      fun relative zone' hname hrun => ?_⟩
    · obtain ⟨relative, hname⟩ := exists_relative_of_ok hrun
      obtain ⟨⟨ttl, hzone⟩, -⟩ := ok_upsertAaaa hname hrun
      exact runs_upsertAaaa_again hname hzone hrun'
    · have hzone' := ok_removeAaaa hname hrun
      split_ifs at hzone' with hmem
      · rw [hzone']
        exact ⟨Function.update_self .., fun key hkey => Function.update_of_ne hkey _ _⟩
      · rw [hzone']
        exact ⟨Option.not_isSome_iff_eq_none.mp fun h => hmem (hlisted relative hname h), fun _ _ => rfl⟩

end Dns
end Cococoir
