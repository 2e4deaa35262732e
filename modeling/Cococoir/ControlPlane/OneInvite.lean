import Cococoir.ControlPlane.Panics

/-!
# One invite, its machine and its owner

What the edge keeps of one invite while one machine begins and polls it with one key, and the
owner approves, denies and revokes it, one operation after the other.  Neither Redis nor `wg`
fails; a listener may fail to bind.

* `OneInvite`: the invite is undecided or closed, and no machine has the key; or one machine is
  approved.
* `OneInvite.begin`, `OneInvite.poll`, `OneInvite.approve`, `OneInvite.deny`,
  `OneInvite.revoke`: each operation keeps this, and what it returns.
* `Approved.rotates`: what the token of the approved machine is good for.

## The invariant

It has three cases, which are the three things that the owner may have decided.  As long as
nothing is decided no stored machine has the box's key.  A denial or a revocation closes the
invite with that still true, and nothing opens it again.  An approval creates one machine with the
key; from then on `Approved` holds of that machine and of one token, the one whose hash is in its
record.  A begin of an approved invite replaces the token, a poll takes the payload out of the
store, and neither changes which machine it is.

The approvals that have returned are an argument of the invariant: their list is empty, or it has
the one machine.  This is how *at most one machine for one invite* is said without a history.

An approval that fails after its allocation leaves a machine with the key and an invite that still
waits; it is excluded here, because neither Redis nor `wg` fails and an allocation that fails
otherwise is rolled back.
-/

namespace Cococoir
namespace ControlPlane

open Concurrency

variable {cp : ControlPlane} {code c key email name : String} {w w' : World} {m : Machine} {r : InviteRecord}

/-! ## The invariant -/

/-- No stored machine has the key. -/
def KeyUnused (key : String) (w : World) : Prop :=
  ∀ n m, w.machines n = some (.json m) → m.wgPublicKey ≠ key

/-- The owner has decided against the invite. -/
def Closed (c : String) (w : World) : Prop :=
  w.invites c = none ∨ ∃ r, w.invites c = some (.json r) ∧ r.status = .denied

variable (cp c key w) in
/-- A machine is approved, and its current device token is this one. -/
structure Approved (m : Machine) (token : String) : Prop where
  stores : NamedDecoded w
  invite : ∃ r, w.invites c = some (.json r) ∧ r.status = .approved ∧ r.devicePubkey = some key
  enrolled : w.machines m.name = some (.json (enrolledWith cp m token))
  inIndex : m.name ∈ w.index
  key_eq : m.wgPublicKey = key
  alone : ∀ n m', w.machines n = some (.json m') → n ≠ m.name → m'.wgPublicKey ≠ key
  gate : ∃ edge, allocationGate cp m.name key = .ok edge
  hostname : m.hostname ≠ ""
  isToken : IsToken token
  /-- The payload was collected, or it is the current one. -/
  payload : ∀ x, w.deliveries c = some x → x = .json ⟨enrolledWith cp m token, token⟩

variable (cp c key w) in
/-- What one invite has come to, with the machines that its approvals have returned. -/
inductive OneInvite : List Machine → Prop
  | undecided (stores : NamedDecoded w) (free : KeyUnused key w)
    (invite : ∀ r, w.invites c = some (.json r) →
      r.status ≠ .approved ∧ (r.status = .waiting → ∀ k ∈ r.devicePubkey, k = key)) : OneInvite []
  | approved {m : Machine} {token : String} (h : Approved cp c key w m token) : OneInvite [m]

theorem OneInvite.stores {approvals : List Machine} (h : OneInvite cp c key w approvals) :
    NamedDecoded w := by
  cases h with
  | undecided stores _ _ => exact stores
  | approved h => exact h.stores

/-- What an operation that writes no machine keeps of the machines. -/
theorem NamedDecoded.of_machines (h : NamedDecoded w) (hmachines : w'.machines = w.machines) :
    NamedDecoded w' :=
  ⟨fun n m hm => h.1 n m (hmachines ▸ hm), fun n x hx => h.2 n x (hmachines ▸ hx)⟩

theorem KeyUnused.of_machines (h : KeyUnused key w) (hmachines : w'.machines = w.machines) : KeyUnused key w' :=
  fun n m hm => h n m (hmachines ▸ hm)

/-- The record of an undecided invite is written anew. -/
theorem OneInvite.withInvite (h : OneInvite cp c key w [])
    (hr : r.status ≠ .approved ∧ (r.status = .waiting → ∀ k ∈ r.devicePubkey, k = key)) :
    OneInvite cp c key (withInvite c r w) [] := by
  cases h with
  | undecided stores free invite =>
    refine .undecided (stores.of_machines rfl) (free.of_machines rfl) fun r' hr' => ?_
    have : (ControlPlane.withInvite c r w).invites c = some (.json r) := Function.update_self _ _ _
    rw [this] at hr'
    cases hr'
    exact hr

theorem Approved.mem_listed {token : String} (h : Approved cp c key w m token) :
    enrolledWith cp m token ∈ listed w :=
  List.mem_filterMap.mpr ⟨m.name, h.inIndex, machineAt_eq_some.mpr h.enrolled⟩

/-- The approved machine is the one that has the key. -/
theorem Approved.eq_of_key {token : String} (h : Approved cp c key w m token) {m' : Machine}
    (hmem : m' ∈ listed w) (hkey : m'.wgPublicKey = key) : m' = enrolledWith cp m token := by
  obtain ⟨n, -, hm'⟩ := List.mem_filterMap.mp hmem
  have hm' := machineAt_eq_some.mp hm'
  by_cases hn : n = m.name
  · rw [hn, h.enrolled] at hm'
    cases hm'
    rfl
  · exact absurd hkey (h.alone n m' hm' hn)

/-- The token is issued anew. -/
theorem Approved.reissue {token token' : String} (h : Approved cp c key w m token) (htoken : IsToken token') :
    Approved cp c key (issued cp c (enrolledWith cp m token) token' w) m token' where
  stores := by
    refine ⟨named_update h.stores.1 rfl fun x hx => ?_, h.stores.2.update (fun y hy => ?_) rfl⟩
    · cases hx
      rfl
    · cases hy
      exact ⟨_, rfl⟩
  invite := h.invite
  enrolled := Function.update_self _ _ _
  inIndex := h.inIndex
  key_eq := h.key_eq
  alone n m' hm' hn := h.alone n m' ((Function.update_of_ne hn _ _).symm.trans hm') hn
  gate := h.gate
  hostname := h.hostname
  isToken := htoken
  payload x hx := by
    have : (issued cp c (enrolledWith cp m token) token' w).deliveries c =
        some (.json ⟨enrolledWith cp m token', token'⟩) := Function.update_self _ _ _
    rw [this] at hx
    exact (Option.some.inj hx).symm

/-! ## The machine -/

/-- **A begin with the key**: an undecided invite waits for the machine, or the begin is refused; an
approved one gets a new payload. -/
theorem OneInvite.begin {approvals : List Machine} (hcode : cp.canonicalInviteCode code = some c)
    (h : OneInvite cp c key w approvals) {o : Outcome InviteError PollOutcome}
    (hrun : (cp.inviteBegin code key).Runs Cmd.exec Reliable w o w') :
    (approvals = [] ∧ OneInvite cp c key w' [] ∧ (Closed c w → Closed c w' ∧ ∃ e, o = .err e) ∧
        ((∃ e, o = .err e) ∨ o = .ok (.bare "waiting") ∧
          ∃ r, w'.invites c = some (.json r) ∧ r.status = .waiting)) ∨
      ∃ m token, approvals = [m] ∧ o = .ok (.bare "approved") ∧ Approved cp c key w' m token ∧
        (w'.deliveries c).isSome := by
  cases h with
  | undecided stores free invite =>
    refine .inl ?_
    cases runs_inviteBegin stores.decodes hrun with
    | stopped _ => exact ⟨rfl, .undecided stores free invite, fun hc => ⟨hc, _, rfl⟩, .inl ⟨_, rfl⟩⟩
    | @begun c' r hcode' _ hr hlive =>
      cases hcode.symm.trans hcode'
      have hself : (ControlPlane.withInvite c { r with devicePubkey := some key, status := .waiting } w).invites
          c = some (.json { r with devicePubkey := some key, status := .waiting }) :=
        Function.update_self _ _ _
      refine ⟨rfl, (OneInvite.undecided stores free invite).withInvite ⟨by simp, fun _ k hk => ?_⟩, ?_,
        .inr ⟨rfl, _, hself, rfl⟩⟩
      · exact (Option.some.inj hk).symm
      · rintro (hnone | ⟨r', hr', hdenied⟩)
        · cases hnone.symm.trans hr
        · rw [hr] at hr'
          cases hr'
          rw [hdenied] at hlive
          rcases hlive with h | h <;> cases h
    | lost hcode' hr happroved _ _ =>
      cases hcode.symm.trans hcode'
      exact absurd happroved (invite _ hr).1
    | rearmed hcode' _ hr happroved _ _ _ =>
      cases hcode.symm.trans hcode'
      exact absurd happroved (invite _ hr).1
  | @approved m token h =>
    refine .inr ?_
    obtain ⟨r, hr, hstatus, hpub⟩ := h.invite
    obtain ⟨edge, hgate⟩ := h.gate
    cases runs_inviteBegin h.stores.decodes hrun with
    | stopped hwhy =>
      rcases hwhy c r hcode (passes_of_allocationGate hgate).2.1 hr with hdenied | ⟨-, hne⟩
      · rw [hstatus] at hdenied
        cases hdenied
      · exact absurd hpub hne
    | begun hcode' _ hr' hlive =>
      cases hcode.symm.trans hcode'
      rw [hr] at hr'
      cases hr'
      rw [hstatus] at hlive
      rcases hlive with h | h <;> cases h
    | lost _ _ _ _ hnone =>
      have := List.find?_eq_none.mp hnone _ h.mem_listed
      simp [enrolledWith, h.key_eq] at this
    | @rearmed c' token' r' m' hcode' _ _ _ _ hfind htoken =>
      cases hcode.symm.trans hcode'
      obtain rfl := h.eq_of_key (List.mem_of_find?_eq_some hfind) (by simpa using List.find?_some hfind)
      have hself : (issued cp c (enrolledWith cp m token) token' w).deliveries c =
          some (.json ⟨enrolledWith cp m token', token'⟩) := Function.update_self _ _ _
      exact ⟨m, token', rfl, rfl, h.reissue htoken, by rw [hself]; rfl⟩

/-- **A poll** says where the invite is; the payload, if it is there, is that of the approved machine. -/
theorem OneInvite.poll {approvals : List Machine} (hcode : cp.canonicalInviteCode code = some c)
    (h : OneInvite cp c key w approvals) {o : Outcome InviteError PollOutcome}
    (hrun : (cp.invitePoll code).Runs Cmd.exec Reliable w o w') :
    (approvals = [] ∧ w' = w ∧ ((∃ e, o = .err e) ∨ ∃ r, w.invites c = some (.json r) ∧
        r.status ≠ .approved ∧ o = .ok (.bare r.status.text))) ∨
      ∃ m token, approvals = [m] ∧ Approved cp c key w m token ∧ Approved cp c key w' m token ∧
        ((w.deliveries c = none ∧ o = .ok (.bare "approved")) ∨
          (w.deliveries c).isSome ∧ o = .ok ⟨"approved", some (enrolledWith cp m token), some token⟩) := by
  cases h with
  | undecided stores free invite =>
    refine .inl ⟨rfl, ?_⟩
    cases runs_invitePoll hrun with
    | stopped _ => exact ⟨rfl, .inl ⟨_, rfl⟩⟩
    | told hcode' hr _ =>
      cases hcode.symm.trans hcode'
      exact ⟨rfl, .inr ⟨_, hr, (invite _ hr).1, rfl⟩⟩
    | spoiled hcode' hr happroved _ =>
      cases hcode.symm.trans hcode'
      exact absurd happroved (invite _ hr).1
    | delivered hcode' hr happroved _ =>
      cases hcode.symm.trans hcode'
      exact absurd happroved (invite _ hr).1
  | @approved m token h =>
    refine .inr ⟨m, token, rfl, h, ?_⟩
    have hcollected : Approved cp c key (collectedFrom c w) m token :=
      ⟨h.stores.of_machines rfl, h.invite, h.enrolled, h.inIndex, h.key_eq, h.alone, h.gate, h.hostname, h.isToken,
        fun x hx => by
          have : (collectedFrom c w).deliveries c = none := Function.update_self _ _ _
          cases this.symm.trans hx⟩
    obtain ⟨r, hr, hstatus, -⟩ := h.invite
    cases runs_invitePoll hrun with
    | stopped hwhy => exact absurd hr (hwhy c r hcode)
    | told hcode' hr' hempty =>
      cases hcode.symm.trans hcode'
      rw [hr] at hr'
      cases hr'
      refine ⟨h, .inl ⟨hempty hstatus, ?_⟩⟩
      rw [hstatus, InviteStatus.text]
    | spoiled hcode' _ _ hd =>
      cases hcode.symm.trans hcode'
      cases h.payload _ hd
    | delivered hcode' _ _ hd =>
      cases hcode.symm.trans hcode'
      cases h.payload _ hd
      exact ⟨hcollected, .inr ⟨by rw [hd]; rfl, rfl⟩⟩

/-! ## The owner -/

/-- What an allocation of a free name does to the machines. -/
theorem FreshRun.frame {owner : Option String} {o : Outcome ControlPlaneError Machine}
    (hfree : w.machines name = none) (h : FreshRun cp owner name key w o w') :
    w'.invites = w.invites ∧ w'.deliveries = w.deliveries ∧
      ((∃ ips : String × String, o = .ok (cp.freshMachine owner name key ips.1 ips.2) ∧
        w'.machines = Function.update w.machines name
          (some (.json (cp.freshMachine owner name key ips.1 ips.2))) ∧ w'.index = w.index ++ [name]) ∨
        (∀ m, o ≠ .ok m) ∧ w'.machines = w.machines) := by
  cases h with
  | exhausted _ => exact ⟨rfl, rfl, .inr ⟨nofun, rfl⟩⟩
  | beyond _ _ => exact ⟨rfl, rfl, .inr ⟨nofun, rfl⟩⟩
  | @created ips dns _ _ => exact ⟨rfl, rfl, .inl ⟨ips, rfl, rfl, rfl⟩⟩
  | @undone ips why _ _ _ => exact ⟨rfl, rfl, .inr ⟨nofun, machines_undo_enlisted rfl hfree⟩⟩

theorem machineHostname_ne_empty {domain : String} : machineHostname name domain ≠ "" := by
  intro hempty
  have hchars : ((toString name).toList ++ (toString ".").toList) ++ (toString domain).toList = [] := by
    simpa [machineHostname] using congrArg String.toList hempty
  have hnone := (List.append_eq_nil_iff.mp (List.append_eq_nil_iff.mp hchars).1).2
  cases hnone

/-- A new machine has the key, and is approved. -/
theorem approved_of_created {owner : Option String} {ips : String × String} {token edge : String} {w₁ : World}
    (stores : NamedDecoded w) (free : KeyUnused key w)
    (hpub : r.devicePubkey = some key) (hgate : allocationGate cp name key = .ok edge)
    (hmachines : w₁.machines = Function.update w.machines name
      (some (.json (cp.freshMachine owner name key ips.1 ips.2)))) (hindex : w₁.index = w.index ++ [name])
    (htoken : IsToken token) :
    Approved cp c key
      (approvedWith c r (issued cp c (cp.freshMachine owner name key ips.1 ips.2) token w₁))
      (cp.freshMachine owner name key ips.1 ips.2) token := by
  set m := cp.freshMachine owner name key ips.1 ips.2 with hm
  have hname : m.name = name := rfl
  have hall : (approvedWith c r (issued cp c m token w₁)).machines =
      Function.update w.machines name (some (.json (enrolledWith cp m token))) := by
    show Function.update w₁.machines name _ = _
    rw [hmachines, Function.update_idem]
  refine ⟨⟨named_update stores.1 hall fun x hx => ?_, stores.2.update (fun y hy => ?_) hall⟩, ?_, ?_, ?_, rfl,
    fun n m' hm' hn => ?_, ⟨edge, hgate⟩, ?_, htoken, fun x hx => ?_⟩
  · cases hx
    rfl
  · cases hy
    exact ⟨_, rfl⟩
  · exact ⟨_, Function.update_self _ _ _, rfl, hpub⟩
  · rw [hall, hname, Function.update_self]
  · show name ∈ w₁.index
    rw [hindex]
    exact List.mem_append_right _ (List.mem_singleton_self name)
  · rw [hall, Function.update_of_ne (hname ▸ hn)] at hm'
    exact free n m' hm'
  · exact machineHostname_ne_empty
  · have hself : (approvedWith c r (issued cp c m token w₁)).deliveries c =
        some (.json ⟨enrolledWith cp m token, token⟩) := Function.update_self _ _ _
    exact (Option.some.inj (hself.symm.trans hx)).symm

/-- **An approval** of a free name: one machine is new, with its payload, or nothing is decided. -/
theorem OneInvite.approve {approvals : List Machine} (hcode : cp.canonicalInviteCode code = some c)
    (h : OneInvite cp c key w approvals) (hfree : w.machines name = none ∨ approvals ≠ [])
    {o : Outcome InviteError Machine} (hrun : (cp.inviteApprove email code name).Runs Cmd.exec Reliable w o w') :
    (∃ m token, o = .ok m ∧ approvals = [] ∧ ¬Closed c w ∧ Approved cp c key w' m token ∧
        (w'.deliveries c).isSome) ∨
      (∀ m, o ≠ .ok m) ∧ OneInvite cp c key w' approvals ∧ w'.invites = w.invites ∧
        w'.deliveries = w.deliveries ∧ (approvals ≠ [] → w' = w) := by
  -- what every attempt that gets as far as the allocation finds
  have hopen : ∀ {c' key' r a}, Approvable cp w email code c' r key' a →
      c' = c ∧ key' = key ∧ approvals = [] ∧ w.machines name = none ∧ KeyUnused key w ∧ ¬Closed c w ∧
        ∀ r, w.invites c = some (.json r) →
          r.status ≠ .approved ∧ (r.status = .waiting → ∀ k ∈ r.devicePubkey, k = key) := by
    intro c' key' r a hmay
    cases hcode.symm.trans hmay.canonical
    cases h with
    | undecided stores free invite =>
      refine ⟨rfl, (invite r hmay.stored).2 hmay.waiting key' hmay.begun, rfl,
        hfree.resolve_right fun hne => hne rfl, free, ?_, invite⟩
      rintro (hnone | ⟨r', hr', hdenied⟩)
      · cases hnone.symm.trans hmay.stored
      · rw [hmay.stored] at hr'
        cases hr'
        cases hdenied.symm.trans hmay.waiting
    | approved h =>
      obtain ⟨r', hr', hstatus, -⟩ := h.invite
      rw [hmay.stored] at hr'
      cases hr'
      cases hstatus.symm.trans hmay.waiting
  -- an allocation that is not one of a machine
  have hrefused : ∀ {c' key' : String} {r : InviteRecord} {a : AccountRecord}
      {o' : Outcome ControlPlaneError SignupOutcome}, Approvable cp w email code c' r key' a →
      AllocationRun cp (some a.uuid) name key' w o' w' → (∀ resp, o' ≠ .ok (.created resp)) →
      OneInvite cp c key w' approvals ∧ w'.invites = w.invites ∧ w'.deliveries = w.deliveries ∧
        (approvals ≠ [] → w' = w) := by
    intro c' key' r a o' hmay halloc hnot
    obtain ⟨rfl, rfl, rfl, hname, free, -, invite⟩ := hopen hmay
    cases halloc with
    | refused _ => exact ⟨h, rfl, rfl, fun _ => rfl⟩
    | crashed _ => exact ⟨h, rfl, rfl, fun _ => rfl⟩
    | corrupt _ hx => cases hname.symm.trans hx
    | existing _ hx => cases hname.symm.trans hx
    | @fresh edge o' w' _ _ hfresh =>
      obtain ⟨hinvites, hdeliveries, ⟨ips, rfl, -⟩ | ⟨-, hmachines⟩⟩ :=
        (runs_allocateFresh hname hfresh).frame hname
      · exact absurd rfl (hnot _)
      · refine ⟨.undecided (h.stores.of_machines hmachines) (free.of_machines hmachines) ?_, hinvites,
          hdeliveries, fun hne => absurd rfl hne⟩
        rwa [hinvites]
  cases runs_inviteApprove hrun with
  | stopped hnot => exact .inr ⟨hnot, h, rfl, rfl, fun _ => rfl⟩
  | refused hmay halloc => exact .inr ⟨nofun, hrefused hmay halloc nofun⟩
  | crashed hmay halloc => exact .inr ⟨nofun, hrefused hmay halloc nofun⟩
  | taken hmay halloc => exact .inr ⟨nofun, hrefused hmay halloc nofun⟩
  | @approved c' key' token r a resp w₁ hmay halloc htoken =>
    obtain ⟨rfl, rfl, rfl, hname, free, hclosed, -⟩ := hopen hmay
    refine .inl ⟨resp.machine, token, rfl, rfl, hclosed, ?_, ?_⟩
    · generalize hallocated : Outcome.ok (SignupOutcome.created resp) = oa at halloc
      cases halloc with
      | refused _ => cases hallocated
      | crashed _ => cases hallocated
      | corrupt _ hx => cases hname.symm.trans hx
      | existing _ hx => cases hname.symm.trans hx
      | @fresh edge o' w₁ hgate _ hfresh =>
        obtain ⟨-, -, ⟨ips, rfl, hmachines, hindex⟩ | ⟨hnot, -⟩⟩ :=
          (runs_allocateFresh hname hfresh).frame hname
        · cases hallocated
          exact approved_of_created h.stores free hmay.begun hgate hmachines hindex htoken
        · cases o' with
          | ok m => exact absurd rfl (hnot m)
          | err e => cases hallocated
          | panic msg => cases hallocated
    · have hself : (approvedWith c' r (issued cp c' resp.machine token w₁)).deliveries c' =
          some (.json ⟨enrolledWith cp resp.machine token, token⟩) := Function.update_self _ _ _
      rw [hself]
      rfl

/-- What the owner's other decisions come to. -/
theorem OneInvite.close {approvals : List Machine} (h : OneInvite cp c key w approvals)
    (hr : w.invites c = some (.json r)) (hlive : r.status = .dormant ∨ r.status = .waiting) :
    approvals = [] ∧ OneInvite cp c key (ControlPlane.withInvite c { r with status := .denied } w) [] ∧
      OneInvite cp c key (withoutInvite c w) [] := by
  cases h with
  | undecided stores free invite =>
    refine ⟨rfl, (OneInvite.undecided stores free invite).withInvite ⟨nofun, nofun⟩,
      .undecided (stores.of_machines rfl) (free.of_machines rfl) fun r' hr' => ?_⟩
    have : (withoutInvite c w).invites c = none := Function.update_self _ _ _
    cases this.symm.trans hr'
  | approved h =>
    obtain ⟨r', hr', hstatus, -⟩ := h.invite
    rw [hr] at hr'
    cases hr'
    rw [hstatus] at hlive
    rcases hlive with h | h <;> cases h

/-- **A denial** that succeeds closes the invite, and no machine was approved. -/
theorem OneInvite.deny {approvals : List Machine} (hcode : cp.canonicalInviteCode code = some c)
    (h : OneInvite cp c key w approvals) {o : Outcome InviteError Unit}
    (hrun : (cp.inviteDeny email code).Runs Cmd.exec Reliable w o w') :
    ((∃ e, o = .err e) ∧ w' = w) ∨
      o = .ok () ∧ approvals = [] ∧ OneInvite cp c key w' [] ∧ Closed c w' := by
  cases runs_inviteDeny hrun with
  | stopped => exact .inl ⟨⟨_, rfl⟩, rfl⟩
  | @denied c' r hcode' hr _ hwaiting =>
    cases hcode.symm.trans hcode'
    obtain ⟨happrovals, hdenied, -⟩ := h.close hr (.inr hwaiting)
    exact .inr ⟨rfl, happrovals, hdenied, .inr ⟨_, Function.update_self _ _ _, rfl⟩⟩

/-- **A revocation** that succeeds does the same. -/
theorem OneInvite.revoke {approvals : List Machine} (hcode : cp.canonicalInviteCode code = some c)
    (h : OneInvite cp c key w approvals) {o : Outcome InviteError Unit}
    (hrun : (cp.inviteRevoke email code).Runs Cmd.exec Reliable w o w') :
    ((∃ e, o = .err e) ∧ w' = w) ∨
      o = .ok () ∧ approvals = [] ∧ OneInvite cp c key w' [] ∧ Closed c w' := by
  cases runs_inviteRevoke hrun with
  | stopped => exact .inl ⟨⟨_, rfl⟩, rfl⟩
  | @revoked c' r hcode' hr _ hlive =>
    cases hcode.symm.trans hcode'
    obtain ⟨happrovals, -, hrevoked⟩ := h.close hr hlive
    exact .inr ⟨rfl, happrovals, hrevoked, .inl (Function.update_self _ _ _)⟩

/-! ## The device token -/

variable (cp) in
/-- Whoever registers a key with the token rotates this machine, and no other. -/
def RotatesOnly (token : String) (m : Machine) (w : World) : Prop :=
  ∀ k, cp.validateWgPubkey k = .ok () → ∀ o w', (cp.deviceRegister token k).Runs Cmd.exec Reliable w o w' →
    o = .ok (m.withKey k) ∧ w'.machines = Function.update w.machines m.name (some (.json (m.withKey k)))

/-- The machine's token hash is that of no other listed machine. -/
def HashApart (m : Machine) (w : World) : Prop :=
  ∀ m' ∈ listed w, m'.deviceTokenHash = m.deviceTokenHash → m'.name = m.name

theorem machines_rekeyed (hm : w.machines m.name = some (.json m)) {k : String} :
    (rekeyed m.name m k w).machines = Function.update w.machines m.name (some (.json (m.withKey k))) := by
  unfold rekeyed
  split_ifs with hk
  · have hsame : m.withKey k = m := by rw [← hk]
    rw [hsame, ← hm, Function.update_eq_self]
  · rfl

theorem hexEncode_ne_empty {bytes : List UInt8} (h : bytes.length = 32) : hexEncode bytes ≠ "" := by
  intro hempty
  match bytes, h with
  | b :: bytes, _ =>
    have := congrArg String.toList hempty
    simp [hexEncode] at this

theorem IsToken.ne_empty {token : String} (h : IsToken token) : token ≠ "" := by
  obtain ⟨bytes, hlen, rfl⟩ := h
  exact hexEncode_ne_empty hlen

/-- **The token of the approved machine** rotates it. -/
theorem Approved.rotates {token : String} (h : Approved cp c key w m token)
    (hapart : HashApart (enrolledWith cp m token) w) : RotatesOnly cp token (enrolledWith cp m token) w := by
  intro k hk o w' hrun
  obtain ⟨edge, hgate⟩ := h.gate
  obtain ⟨hvalid, -, hedge⟩ := passes_of_allocationGate hgate
  have hpass : allocationGate cp m.name k = .ok edge := by
    unfold allocationGate
    rw [hvalid, hk, hedge]
    rfl
  cases runs_deviceRegister h.stores.decodes hrun with
  | blank hempty => exact absurd hempty h.isToken.ne_empty
  | refused hkey => cases hk.symm.trans hkey
  | unknown hnone =>
    have := List.find?_eq_none.mp hnone _ h.mem_listed
    simp [enrolledWith] at this
  | @found target o' w' hfind halloc =>
    have hmem := List.mem_of_find?_eq_some hfind
    have hhash : target.deviceTokenHash = some (cp.tokenHash token) := by simpa using List.find?_some hfind
    obtain ⟨n, -, hn⟩ := List.mem_filterMap.mp hmem
    have hn := machineAt_eq_some.mp hn
    have hname : target.name = m.name := hapart target hmem hhash
    obtain rfl : target = enrolledWith cp m token := by
      rw [← h.stores.1 n target hn, hname, h.enrolled] at hn
      cases hn
      rfl
    cases halloc with
    | refused hgate' => cases hpass.symm.trans hgate'
    | crashed hgate' => cases hpass.symm.trans hgate'
    | corrupt _ hx => cases h.enrolled.symm.trans hx
    | fresh _ hx _ => cases h.enrolled.symm.trans hx
    | @existing edge' m' _ hx =>
      cases h.enrolled.symm.trans hx
      exact ⟨rfl, machines_rekeyed h.enrolled⟩

end ControlPlane
end Cococoir
