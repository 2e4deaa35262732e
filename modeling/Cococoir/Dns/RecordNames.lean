import Cococoir.Concurrency.Pool
import Cococoir.ControlPlane.Reconcile
import Cococoir.Dns.Hetzner

/-!
# The records of a machine in the zone

A machine's two records, its hostname and the wildcard, under the names that the provider knows
them by: relative to the zone.  `tokio::join!` upserts or removes both at once, so their requests
interleave, with those of other machines too.

* `relativeName_eq_ok`: what a relative name is.
* `HostName`: the names of a machine are a label and the root domain.
* `record_names`: the records of different machines stay apart, and apart from the zone's own.

## The argument

A relative name is what stands before the zone, without the dot between, and the zone itself is
written `@`.  Dots at the end do not count.  Two names of machines are a label, perhaps with a
star before it, and the root domain; the root domain lies under the zone.  So their relative names
are equal only if the labels are, since what follows is the same, and none is the apex, since a
label is not empty.

A call of the provider's client reads and writes the rrset of one relative name.  What any
schedule of such calls leaves of another rrset is therefore everything: `run_of_not_target`.  This
covers the calls of one machine, which are made at once, and those of others, in any interleaving.
-/

namespace Cococoir
namespace Dns

open Concurrency
open Concurrency.Prog (issue)
open ControlPlane (machineHostname ValidName)
open Net (Ipv6Addr)

/-! ## Trailing dots -/

theorem toList_trimEndDots (s : String) : (trimEndDots s).toList = s.toList.rdropWhile (· = '.') :=
  String.toList_ofList

theorem rdropWhile_append_of_forall {α : Type} {p : α → Bool} {u v : List α} (h : ∀ x ∈ v, p x) :
    (u ++ v).rdropWhile p = u.rdropWhile p := by
  induction v using List.reverseRecOn with
  | nil => rw [List.append_nil]
  | append_singleton v x ih =>
    rw [List.forall_mem_append, List.forall_mem_singleton] at h
    rw [← List.append_assoc, List.rdropWhile_concat_pos _ _ _ h.2, ih h.1]

theorem rdropWhile_append_of_ne_nil {α : Type} {p : α → Bool} {u v : List α}
    (h : v.rdropWhile p ≠ []) : (u ++ v).rdropWhile p = u ++ v.rdropWhile p := by
  induction v using List.reverseRecOn with
  | nil => exact absurd (List.rdropWhile_nil p) h
  | append_singleton v x ih =>
    rw [← List.append_assoc]
    by_cases hx : p x
    · rw [List.rdropWhile_concat_pos _ _ _ hx] at h ⊢
      rw [List.rdropWhile_concat_pos _ _ _ hx, ih h]
    · rw [List.rdropWhile_concat_neg _ _ _ hx, List.rdropWhile_concat_neg _ _ _ hx,
        List.append_assoc]

/-! ## Names under a zone -/

variable {cfg : HetznerDns} {cp : ControlPlane} {domain full x m n : String}

/-- The zone itself or a domain below it, with or without trailing dots. -/
def Under (zone domain : String) : Prop :=
  trimEndDots domain = trimEndDots zone ∨
    ∃ sub : List Char, (trimEndDots domain).toList = sub ++ '.' :: (trimEndDots zone).toList

theorem stripSuffix_eq_some {s suffix : String} :
    stripSuffix s suffix = some x ↔ s.toList = x.toList ++ suffix.toList := by
  unfold stripSuffix
  constructor
  · intro h
    split_ifs at h with hsuffix
    obtain ⟨u, hu⟩ := hsuffix
    cases h
    rw [String.toList_ofList, ← hu, List.length_append, Nat.add_sub_cancel, List.take_left]
  · intro h
    rw [if_pos ⟨_, h.symm⟩, h, List.length_append, Nat.add_sub_cancel, List.take_left,
      String.ofList_toList]

/-- The relative name is `@` for the zone, and else what stands before the zone. -/
theorem relativeName_eq_ok : cfg.relativeName full = .ok x ↔
    trimEndDots full = trimEndDots cfg.zoneName ∧ x = "@" ∨
      trimEndDots full ≠ trimEndDots cfg.zoneName ∧
        (trimEndDots full).toList = x.toList ++ '.' :: (trimEndDots cfg.zoneName).toList := by
  have hsuffix : ("." ++ trimEndDots cfg.zoneName).toList =
      '.' :: (trimEndDots cfg.zoneName).toList := by
    rw [String.toList_append]
    rfl
  unfold HetznerDns.relativeName
  dsimp only
  split_ifs with hzone
  · simp [hzone, eq_comm]
  · cases hstrip : stripSuffix (trimEndDots full) ("." ++ trimEndDots cfg.zoneName) with
    | some y =>
      have hy := stripSuffix_eq_some.mp hstrip
      rw [hsuffix] at hy
      constructor
      · rintro h
        cases h
        exact .inr ⟨hzone, hy⟩
      · rintro (⟨h, -⟩ | ⟨-, h⟩)
        · exact absurd h hzone
        · rw [hy] at h
          rw [String.toList_injective (List.append_cancel_right h)]
    | none =>
      constructor
      · intro h
        cases h
      · rintro (⟨h, -⟩ | ⟨-, h⟩)
        · exact absurd h hzone
        · rw [← hsuffix] at h
          rw [stripSuffix_eq_some.mpr h] at hstrip
          cases hstrip

/-! ## The names of a machine -/

/-- What a machine's names have in common: a label that is the machine's own, and the domain. -/
structure HostName (domain label : List Char) (full : String) : Prop where
  toList : full.toList = label ++ '.' :: domain
  ne_nil : label ≠ []
  last : ∀ h : label ≠ [], label.getLast h ≠ '.'
  head : label.head? ≠ some '@'

theorem ValidName.chars (h : ValidName m) :
    m.toList ≠ [] ∧ ∀ c ∈ m.toList, c ≠ '.' ∧ c ≠ '@' := by
  unfold ValidName ControlPlane.validateMachineName at h
  dsimp only at h
  split_ifs at h with hvalid
  refine ⟨fun hnil => ?_, fun c hc => ?_⟩
  · obtain rfl : m = "" := String.toList_injective hnil
    exact absurd hvalid.1 (by decide)
  · have hchar := List.all_eq_true.mp hvalid.2.2.2.2.2.2 c hc
    constructor
    · rintro rfl
      exact absurd hchar (by decide)
    · rintro rfl
      exact absurd hchar (by decide)

/-- The names of a machine are host names. -/
theorem exists_hostName (hm : ValidName m) (h : full ∈ cp.recordNames m) :
    ∃ label, HostName cp.rootDomain.toList label full := by
  obtain ⟨hne, hchars⟩ := ValidName.chars hm
  have hlast : ∀ h : m.toList ≠ [], m.toList.getLast h ≠ '.' :=
    fun h => (hchars _ (List.getLast_mem h)).1
  simp only [ControlPlane.recordNames, List.mem_cons, List.not_mem_nil, or_false] at h
  rcases h with rfl | rfl
  · refine ⟨m.toList, ControlPlane.machineHostname_toList m _, hne, hlast, fun hhead => ?_⟩
    exact (hchars '@' (List.mem_of_head? hhead)).2 rfl
  · refine ⟨'*' :: '.' :: m.toList, ?_, List.cons_ne_nil _ _, fun _ => ?_, ?_⟩
    · rw [ControlPlane.wildcard_toList, ControlPlane.machineHostname_toList]
      rfl
    · rw [List.getLast_cons (List.cons_ne_nil _ _), List.getLast_cons hne]
      exact hlast hne
    · rw [List.head?_cons]
      decide

namespace HostName

variable {label label' : List Char} {full' : String}

/-- Without trailing dots, a host name is its label and the domain without trailing dots. -/
theorem trim (h : HostName domain.toList label full) :
    (trimEndDots full).toList =
      if trimEndDots domain = "" then label else label ++ '.' :: (trimEndDots domain).toList := by
  have hself : label.rdropWhile (· = '.') = label :=
    List.rdropWhile_eq_self_iff.mpr fun hne => by simpa using h.last hne
  have hnil : trimEndDots domain = "" ↔ domain.toList.rdropWhile (· = '.') = [] := by
    rw [← toList_trimEndDots, String.toList_eq_nil_iff]
  rw [toList_trimEndDots, toList_trimEndDots, h.toList]
  split_ifs with hdomain
  · have hdots := List.rdropWhile_eq_nil_iff.mp (hnil.mp hdomain)
    rw [rdropWhile_append_of_forall (List.forall_mem_cons.mpr ⟨by simp, hdots⟩), hself]
  · have hsplit : label ++ '.' :: domain.toList = (label ++ ['.']) ++ domain.toList := by simp
    rw [hsplit, rdropWhile_append_of_ne_nil (mt hnil.mpr hdomain)]
    simp

/-- Host names that differ only in trailing dots are equal. -/
theorem eq_of_trim (h : HostName domain.toList label full) (h' : HostName domain.toList label' full')
    (htrim : trimEndDots full = trimEndDots full') : full = full' := by
  have heq := h.trim.symm.trans ((congrArg String.toList htrim).trans h'.trim)
  have hlabel : label = label' := by
    split_ifs at heq
    · exact heq
    · exact List.append_cancel_right heq
  exact String.toList_injective (by rw [h.toList, h'.toList, hlabel])

/-- A host name of a domain under the zone is not the zone. -/
theorem ne_zone (h : HostName domain.toList label full) (hunder : Under cfg.zoneName domain) :
    trimEndDots full ≠ trimEndDots cfg.zoneName := by
  intro hzone
  have hlen : (trimEndDots full).toList.length = (trimEndDots cfg.zoneName).toList.length := by
    rw [hzone]
  have hpos := List.length_pos_of_ne_nil h.ne_nil
  rw [h.trim] at hlen
  rcases hunder with heq | ⟨sub, hsub⟩
  · rw [← heq] at hlen
    split_ifs at hlen with hdomain
    · rw [hdomain, String.toList_empty, List.length_nil] at hlen
      omega
    · rw [List.length_append, List.length_cons] at hlen
      omega
  · rw [if_neg fun hdomain => by rw [hdomain] at hsub; simp at hsub, hsub] at hlen
    simp only [List.length_append, List.length_cons] at hlen
    omega

theorem relativeName_eq_ok (h : HostName domain.toList label full)
    (hunder : Under cfg.zoneName domain) : cfg.relativeName full = .ok x ↔
      (trimEndDots full).toList = x.toList ++ '.' :: (trimEndDots cfg.zoneName).toList := by
  rw [Dns.relativeName_eq_ok, and_iff_right (h.ne_zone hunder), or_iff_right]
  exact fun hzone => h.ne_zone hunder hzone.1

/-- A host name is never the zone's own record. -/
theorem ne_apex (h : HostName domain.toList label full) (hunder : Under cfg.zoneName domain) :
    cfg.relativeName full ≠ .ok "@" := by
  intro hapex
  have htrim := (h.relativeName_eq_ok hunder).mp hapex
  have hhead : (trimEndDots full).toList.head? = label.head? := by
    rw [h.trim]
    split_ifs
    · rfl
    · exact List.head?_append_of_ne_nil _ h.ne_nil
  rw [htrim] at hhead
  exact h.head hhead.symm

/-- A host name has a relative name, unless the zone is empty. -/
theorem exists_relativeName (h : HostName domain.toList label full)
    (hunder : Under cfg.zoneName domain) (hzone : trimEndDots cfg.zoneName ≠ "") :
    ∃ x, cfg.relativeName full = .ok x := by
  have hne : trimEndDots domain ≠ "" := by
    intro hempty
    rcases hunder with heq | ⟨sub, hsub⟩
    · exact hzone (heq.symm.trans hempty)
    · rw [hempty] at hsub
      simp at hsub
  have htrim := h.trim
  rw [if_neg hne] at htrim
  rcases hunder with heq | ⟨sub, hsub⟩
  · refine ⟨String.ofList label, (h.relativeName_eq_ok (.inl heq)).mpr ?_⟩
    rw [htrim, heq, String.toList_ofList]
  · refine ⟨String.ofList (label ++ '.' :: sub), (h.relativeName_eq_ok (.inr ⟨sub, hsub⟩)).mpr ?_⟩
    rw [htrim, hsub, String.toList_ofList, List.append_assoc]
    rfl

end HostName

/-! ## Concurrent upserts and removals -/

/-- A call of the provider's client. -/
inductive DnsCall : Type where
  | upsertAaaa (name : String) (ipv6 : Ipv6Addr) : DnsCall
  | removeAaaa (name : String) : DnsCall

def DnsCall.name : DnsCall → String
  | .upsertAaaa name _ => name
  | .removeAaaa name => name

def DnsCall.body (cfg : HetznerDns) : DnsCall → Client Unit
  | .upsertAaaa name ipv6 => Dns.upsertAaaa cfg name ipv6
  | .removeAaaa name => Dns.removeAaaa cfg name

/-- The two calls that create the records of a machine, made at once. -/
def upsertMachine (name : String) (ipv6 : Ipv6Addr) (domain : String) : List DnsCall :=
  let host := machineHostname name domain
  let wildcard := s!"*.{host}"
  [.upsertAaaa host ipv6, .upsertAaaa wildcard ipv6]

/-- The two calls that remove the records of a machine, made at once. -/
def removeMachine (name domain : String) : List DnsCall :=
  let host := machineHostname name domain
  let wildcard := s!"*.{host}"
  [.removeAaaa host, .removeAaaa wildcard]

/-- A call of an upsert or a removal of the machine. -/
def DnsCall.Of (cp : ControlPlane) (name : String) (call : DnsCall) : Prop :=
  (∃ ipv6, call ∈ upsertMachine name ipv6 cp.rootDomain) ∨ call ∈ removeMachine name cp.rootDomain

theorem DnsCall.Of.name_mem {call : DnsCall} (h : call.Of cp m) :
    call.name ∈ cp.recordNames m := by
  simp only [ControlPlane.recordNames, List.mem_cons, List.not_mem_nil, or_false]
  rcases h with ⟨ipv6, h⟩ | h
  · simp only [upsertMachine, List.mem_cons, List.not_mem_nil, or_false] at h
    rcases h with rfl | rfl
    · exact .inl rfl
    · exact .inr rfl
  · simp only [removeMachine, List.mem_cons, List.not_mem_nil, or_false] at h
    rcases h with rfl | rfl
    · exact .inl rfl
    · exact .inr rfl

/-- The name of the rrset that a request changes. -/
def Request.target : Request → Option String
  | .getRrsets => none
  | .create new => some new.name
  | .delete name => some name

/-- A request changes no rrset of another name. -/
theorem exec_of_target_ne {c : Request} {key : String × String} (h : c.target ≠ some key.1)
    (ch : Choice) (zone : Zone) : (Request.exec ch c zone).2 key = zone key := by
  have hanswer : ∀ {zone'}, zone' key = zone key → (answer ch zone zone').2 key = zone key := by
    intro zone' hkey
    unfold answer
    split_ifs
    · exact hkey
    · rfl
    · exact hkey
  cases c with
  | getRrsets =>
    rw [Request.exec]
    split_ifs <;> rfl
  | create new =>
    rw [Request.exec]
    split_ifs
    · rfl
    · exact hanswer (Function.update_of_ne (fun hkey => h (by rw [hkey]; rfl)) _ _)
  | delete name =>
    rw [Request.exec]
    split_ifs
    · rfl
    · exact hanswer (Function.update_of_ne (fun hkey => h (by rw [hkey]; rfl)) _ _)

/-- A call changes the rrsets of its relative name only. -/
theorem body_targets (call : DnsCall) : (call.body cfg).All fun c =>
    ∀ name, c.target = some name → cfg.relativeName call.name = .ok name := by
  have hget : ∀ {relative : String}, (getRrset relative).All fun c =>
      ∀ name, c.target = some name → cfg.relativeName call.name = .ok name := by
    intro relative
    refine Prog.all_issue.mpr ⟨(fun name h => by cases h), fun r => ?_⟩
    cases r <;> exact trivial
  have hissue : ∀ {relative : String} {c : Request} {f : c.Resp → Client Unit},
      cfg.relativeName call.name = .ok relative → c.target = some relative →
      (∀ r, (f r).All fun c => ∀ name, c.target = some name →
        cfg.relativeName call.name = .ok name) →
      (issue c >>= f).All fun c => ∀ name, c.target = some name →
        cfg.relativeName call.name = .ok name := by
    intro relative c f hname htarget hf
    refine Prog.all_issue.mpr ⟨fun name h => ?_, hf⟩
    rw [hname, Option.some.inj (htarget.symm.trans h)]
  cases call with
  | upsertAaaa name ipv6 =>
    rw [DnsCall.body, upsertAaaa]
    cases hname : cfg.relativeName name with
    | error e => exact trivial
    | ok relative =>
      have hcreate : (createRrset relative ipv6).All fun c =>
          ∀ x, c.target = some x → cfg.relativeName name = .ok x :=
        hissue hname rfl fun r => Prog.all_ofExcept r
      rw [Prog.ofExcept_ok, Prog.pure_bind]
      refine Prog.All.bind hget fun rrset => ?_
      cases rrset with
      | none => exact hcreate
      | some rrset =>
        dsimp only
        split_ifs
        · exact trivial
        · exact Prog.All.bind (hissue hname rfl fun r => Prog.all_ofExcept r) fun _ => hcreate
  | removeAaaa name =>
    rw [DnsCall.body, removeAaaa]
    cases hname : cfg.relativeName name with
    | error e => exact trivial
    | ok relative =>
      rw [Prog.ofExcept_ok, Prog.pure_bind]
      refine Prog.All.bind hget fun rrset => ?_
      cases rrset with
      | none => exact trivial
      | some rrset => exact hissue hname rfl fun r => Prog.all_ofExcept r

/-- Any schedule of upserts and removals leaves the rrsets of every other name. -/
theorem run_of_not_target {P : String → Prop} {key : String × String}
    (hkey : ∀ name, P name → cfg.relativeName name ≠ .ok key.1) (zone : Zone)
    {evs : List (Event DnsCall Choice)} (hevs : ∀ call, .start call ∈ evs → P call.name) :
    (Conf.run Request.exec (DnsCall.body cfg) ⟨zone, []⟩ evs).world key = zone key := by
  refine Conf.run_frame (fun zone' : Zone => zone' key = zone key)
    (Q := fun call : DnsCall => P call.name) (S := fun c => c.target ≠ some key.1)
    (fun call hcall => ?_) (fun ch c zone' hc hzone => ?_) hevs nofun rfl
  · refine (body_targets call).mono fun c hc htarget => ?_
    exact hkey _ hcall (hc _ htarget)
  · exact (exec_of_target_ne hc ch zone').trans hzone

/-! ## Machines stay apart -/

/-- What the zone guarantees two machines. -/
structure Apart (cfg : HetznerDns) (cp : ControlPlane) (m n : String) : Prop where
  /-- Different machines have different records. -/
  disjoint : m ≠ n → ∀ r ∈ cp.recordNames m, r ∉ cp.recordNames n
  /-- The zone is stripped from different records to different names. -/
  distinct : ∀ r ∈ cp.recordNames m, ∀ r' ∈ cp.recordNames n, ∀ x, cfg.relativeName r = .ok x →
    cfg.relativeName r' = .ok x → r = r'
  not_apex : ∀ r ∈ cp.recordNames m, cfg.relativeName r ≠ .ok "@"
  /-- Appending the zone gives the name back, without trailing dots. -/
  inverse : ∀ r ∈ cp.recordNames m, ∀ x, cfg.relativeName r = .ok x →
    x ++ "." ++ trimEndDots cfg.zoneName = trimEndDots r
  /-- Every record has a relative name, in a zone that has a name. -/
  defined : trimEndDots cfg.zoneName ≠ "" → ∀ r ∈ cp.recordNames m, ∃ x, cfg.relativeName r = .ok x
  /-- Whatever is upserted and removed of the one machine, in any order of the requests and with any
  failures, the rrsets of the other and those of the zone itself stay as they are. -/
  untouched : m ≠ n → ∀ (zone : Zone) (evs : List (Event DnsCall Choice)),
    (∀ call, .start call ∈ evs → call.Of cp m) →
    ∀ key : String × String, key.1 = "@" ∨ (∃ r ∈ cp.recordNames n, cfg.relativeName r = .ok key.1) →
      (Conf.run Request.exec (DnsCall.body cfg) ⟨zone, []⟩ evs).world key = zone key

/-- **The records of different machines stay apart**, and apart from the zone's own. -/
theorem record_names (hunder : Under cfg.zoneName cp.rootDomain) (hm : ValidName m)
    (hn : ValidName n) : Apart cfg cp m n := by
  have hdisjoint : m ≠ n → ∀ r ∈ cp.recordNames m, r ∉ cp.recordNames n :=
    fun hne r hr hr' => hne (ControlPlane.recordNames_inj hm hn hr hr')
  have hdistinct : ∀ r ∈ cp.recordNames m, ∀ r' ∈ cp.recordNames n, ∀ x,
      cfg.relativeName r = .ok x → cfg.relativeName r' = .ok x → r = r' := by
    intro r hr r' hr' x hx hx'
    obtain ⟨label, h⟩ := exists_hostName hm hr
    obtain ⟨label', h'⟩ := exists_hostName hn hr'
    refine h.eq_of_trim h' (String.toList_injective ?_)
    exact ((h.relativeName_eq_ok hunder).mp hx).trans ((h'.relativeName_eq_ok hunder).mp hx').symm
  have hapex : ∀ r ∈ cp.recordNames m, cfg.relativeName r ≠ .ok "@" := by
    intro r hr
    obtain ⟨label, h⟩ := exists_hostName hm hr
    exact h.ne_apex hunder
  refine ⟨hdisjoint, hdistinct, hapex, fun r hr x hx => ?_, fun hzone r hr => ?_,
    fun hne zone evs hevs key hkey => ?_⟩
  · obtain ⟨label, h⟩ := exists_hostName hm hr
    have htrim := (h.relativeName_eq_ok hunder).mp hx
    refine String.toList_injective (Eq.trans ?_ htrim.symm)
    rw [String.toList_append, String.toList_append, List.append_assoc]
    rfl
  · obtain ⟨label, h⟩ := exists_hostName hm hr
    exact h.exists_relativeName hunder hzone
  · refine run_of_not_target (P := fun r => r ∈ cp.recordNames m) (fun r hr hx => ?_) zone
      fun call hcall => (hevs call hcall).name_mem
    rcases hkey with hkey | ⟨r', hr', hx'⟩
    · exact hapex r hr (by rw [hx, hkey])
    · exact hdisjoint hne r hr (hdistinct r hr r' hr' _ hx hx' ▸ hr')

/-- Two machines of a root domain below the zone. -/
theorem apart_kitchen_bedroom : Apart ⟨"net."⟩ ControlPlane.sample "kitchen" "bedroom" :=
  record_names (.inr ⟨"example".toList, by decide⟩) (by decide) (by decide)

end Dns
end Cococoir
