import Cococoir.ControlPlane.MachineRuns

/-!
# Invite operations without failures of Redis and of the interface

What a begin, a poll, an approval, a denial, a revocation and a device registration do to the
world when they run alone and neither Redis nor `wg` fails, each as the list of the ways it can
go.

## Why a list of ways

An invite operation can end in a dozen places: the code is none, the invite is not there or not
the caller's, its status is not the one that is needed, the allocation inside refuses.  A proof
that needs to know what an approval does would take the program apart each time.  Here this is
done once.  For each operation there is an inductive predicate, `BeginRun`, `PollRun`,
`ApproveRun` and so on, with one constructor for each way: what has to hold before, what is
returned, and the world afterwards written out as an update.  `runs_inviteBegin` and its siblings
say that the runs of the program are these ways, and no others.  A later proof goes through the
constructors, and the case names are the events of the protocol.

## What stays open

The listeners, the DNS provider and the generator remain free, so an approval still has ways in
which it fails.  Failures of Redis are treated where they matter, in the modules on retried and on
failed operations.
-/

namespace Cococoir
namespace ControlPlane

open Concurrency

variable {cp : ControlPlane} {w w' : World} {ε α : Type}

/-! ## Reading -/

/-- What reading an invite gives. -/
def inviteAt (w : World) (code : String) : Outcome InviteError InviteRecord :=
  match w.invites code with
  | none => .err (.unknown code)
  | some (.corrupt _ err) => .err (.corrupt s!"{code}: {err}")
  | some (.json r) => .ok r

theorem inviteAt_eq_ok {code : String} {r : InviteRecord} :
    inviteAt w code = .ok r ↔ w.invites code = some (.json r) := by
  unfold inviteAt
  split
  · rename_i h
    simp [h]
  · rename_i h
    simp [h]
  · rename_i h
    simp [h]

theorem runs_readInvite {code : String} {o : Outcome InviteError InviteRecord} :
    (readInvite code).Runs Cmd.exec Reliable w o w' ↔ o = inviteAt w code ∧ w' = w := by
  rw [readInvite, runs_redis_reliable, exec_invite_get, inviteAt]
  match w.invites code with
  | none => exact Iff.rfl
  | some (.corrupt text err) => exact Iff.rfl
  | some (.json r) => exact Iff.rfl

/-- A run that begins by reading an invite: it is there, or the run ends. -/
theorem runs_readInvite_bind {code : String} {f : InviteRecord → Edge InviteError α}
    {o : Outcome InviteError α}
    (h : (readInvite code >>= f).Runs Cmd.exec Reliable w o w') :
    (∃ r, w.invites code = some (.json r) ∧ (f r).Runs Cmd.exec Reliable w o w') ∨
      (∃ e, inviteAt w code = .err e ∧ o = .err e) ∧ w' = w := by
  rcases Prog.runs_bind.mp h with ⟨r, w₁, hread, hrun⟩ | ⟨e, hread, rfl⟩ | ⟨msg, hread, -⟩
  · obtain ⟨hr, rfl⟩ := runs_readInvite.mp hread
    exact Or.inl ⟨r, inviteAt_eq_ok.mp hr.symm, hrun⟩
  · obtain ⟨he, rfl⟩ := runs_readInvite.mp hread
    exact Or.inr ⟨⟨e, he.symm, rfl⟩, rfl⟩
  · have hp := (runs_readInvite.mp hread).1
    unfold inviteAt at hp
    split at hp <;> cases hp

/-- The same for an operation of the invite's owner. -/
theorem runs_readOwnInvite_bind {email code : String} {f : InviteRecord → Edge InviteError α}
    {o : Outcome InviteError α}
    (h : (readOwnInvite email code >>= f).Runs Cmd.exec Reliable w o w') :
    (∃ r, w.invites code = some (.json r) ∧ r.ownerEmail = email ∧
        (f r).Runs Cmd.exec Reliable w o w') ∨
      (∃ e, o = .err e) ∧ w' = w := by
  rw [readOwnInvite, Prog.bind_assoc] at h
  rcases runs_readInvite_bind h with ⟨r, hr, h⟩ | ⟨⟨e, -, rfl⟩, rfl⟩
  · split_ifs at h with howner
    · exact Or.inl ⟨r, hr, howner, h⟩
    · obtain ⟨rfl, rfl⟩ := h
      exact Or.inr ⟨⟨_, rfl⟩, rfl⟩
  · exact Or.inr ⟨⟨e, rfl⟩, rfl⟩

/-- The owner of an invite that is there reads it. -/
theorem runs_readOwnInvite_passed {email code : String} {r : InviteRecord}
    (hr : w.invites code = some (.json r)) (howner : r.ownerEmail = email)
    {f : InviteRecord → Edge InviteError α} {o : Outcome InviteError α} :
    (readOwnInvite email code >>= f).Runs Cmd.exec Reliable w o w' ↔
      (f r).Runs Cmd.exec Reliable w o w' := by
  rw [readOwnInvite, Prog.bind_assoc, readInvite, Prog.bind_assoc, runs_redis_reliable,
    exec_invite_get, hr]
  simp only [recordFromJson, Prog.ofExcept_ok, Prog.pure_bind, if_pos howner]

theorem canonical_of_some {code c : String} (h : cp.canonicalInviteCode code = some c) :
    cp.canonical code = .ok c := by
  rw [canonical, h]

/-- What stands at the beginning of every invite operation: the code is one. -/
theorem runs_canonical_bind {code : String} {f : String → Edge InviteError α}
    {o : Outcome InviteError α}
    (h : (Prog.ofExcept (cp.canonical code) >>= f).Runs Cmd.exec Reliable w o w') :
    (∃ c, cp.canonicalInviteCode code = some c ∧ (f c).Runs Cmd.exec Reliable w o w') ∨
      cp.canonicalInviteCode code = none ∧ o = .err (.invalidCode code) ∧ w' = w := by
  unfold canonical at h
  cases hc : cp.canonicalInviteCode code with
  | some c =>
    rw [hc] at h
    exact Or.inl ⟨c, rfl, h⟩
  | none =>
    rw [hc] at h
    obtain ⟨rfl, rfl⟩ := h
    exact Or.inr ⟨rfl, rfl, rfl⟩

/-! ## Issuing a token -/

/-- The record with the hash of a device token. -/
def enrolledWith (cp : ControlPlane) (m : Machine) (token : String) : Machine :=
  { m with deviceTokenHash := some (cp.tokenHash token) }

/-- The world after a token is issued for a machine. -/
def issued (cp : ControlPlane) (code : String) (m : Machine) (token : String) (w : World) : World :=
  { w with
    machines := Function.update w.machines m.name (some (.json (enrolledWith cp m token)))
    deliveries := Function.update w.deliveries code (some (.json ⟨enrolledWith cp m token, token⟩)) }

theorem runs_storeMachine {m : Machine} {f : Unit → Edge InviteError α} {o : Outcome InviteError α} :
    (Prog.mapErr .ofControlPlane (storeMachine m) >>= f).Runs Cmd.exec Reliable w o w' ↔
      (f ()).Runs Cmd.exec Reliable
        { w with machines := Function.update w.machines m.name (some (.json m)) } o w' := by
  rw [Prog.runs_mapErr_bind]
  constructor
  · rintro (⟨_, w₁, hset, hrun⟩ | ⟨e, hset, -⟩ | ⟨msg, hset, -⟩)
    · obtain ⟨-, rfl⟩ := runs_redis_last_reliable.mp hset
      exact hrun
    · cases (runs_redis_last_reliable.mp hset).1
    · cases (runs_redis_last_reliable.mp hset).1
  · exact fun h => Or.inl ⟨(), _, runs_redis_last_reliable.mpr ⟨rfl, rfl⟩, h⟩

theorem runs_issueToken {code : String} {m : Machine} {o : Outcome InviteError Unit}
    (h : (cp.issueToken code m).Runs Cmd.exec Reliable w o w') :
    o = .ok () ∧ ∃ token, IsToken token ∧ w' = issued cp code m token w := by
  obtain ⟨token, htoken, hrun⟩ := runs_randomTokenHex h
  rw [runs_storeMachine, runs_redis_last_reliable] at hrun
  exact ⟨hrun.1, token, htoken, hrun.2⟩

/-! ## Approving -/

/-- What reading the owner's account gives a run: the account, nobody, or an error. -/
theorem runs_accountUuid_bind {email : String} {f : Option String → Edge InviteError α}
    {o : Outcome InviteError α}
    (h : (Prog.mapErr InviteError.account (cp.accountUuid email) >>= f).Runs Cmd.exec Reliable w o
      w') :
    (∃ a, w.accounts (cp.normalizeEmail email) = some (.json a) ∧
        (f (some a.uuid)).Runs Cmd.exec Reliable w o w') ∨
      (w.accounts (cp.normalizeEmail email) = none ∧ (f none).Runs Cmd.exec Reliable w o w') ∨
      (∃ e, o = .err e) ∧ w' = w := by
  have hread : ∀ {o' : Outcome AccountError (Option String)} {w₁},
      (cp.accountUuid email).Runs Cmd.exec Reliable w o' w₁ → w₁ = w ∧
        o' = match w.accounts (cp.normalizeEmail email) with
          | none => .ok none
          | some (.json a) => .ok (some a.uuid)
          | some (.corrupt _ err) => .err (.corrupt err) := by
    intro o' w₁ h
    rw [accountUuid, runs_redis_reliable, exec_account_get] at h
    match hx : w.accounts (cp.normalizeEmail email) with
    | none =>
      rw [hx] at h
      exact h.symm
    | some (.corrupt text err) =>
      rw [hx] at h
      exact h.symm
    | some (.json a) =>
      rw [hx] at h
      exact h.symm
  rcases Prog.runs_mapErr_bind.mp h with ⟨uuid, w₁, hrun, hrest⟩ | ⟨e, hrun, rfl⟩ | ⟨msg, hrun, -⟩
  · obtain ⟨rfl, ho⟩ := hread hrun
    match hx : w₁.accounts (cp.normalizeEmail email) with
    | none =>
      rw [hx] at ho
      cases ho
      exact Or.inr (Or.inl ⟨rfl, hrest⟩)
    | some (.corrupt text err) =>
      rw [hx] at ho
      cases ho
    | some (.json a) =>
      rw [hx] at ho
      cases ho
      exact Or.inl ⟨a, rfl, hrest⟩
  · exact Or.inr (Or.inr ⟨⟨_, rfl⟩, (hread hrun).1⟩)
  · have ho := (hread hrun).2
    split at ho <;> cases ho

/-- The owner may approve: the code is that of an invite of theirs, on which a machine waits
with a key, and their account is there. -/
structure Approvable (cp : ControlPlane) (w : World) (email code c : String) (r : InviteRecord)
    (key : String) (a : AccountRecord) : Prop where
  canonical : cp.canonicalInviteCode code = some c
  stored : w.invites c = some (.json r)
  owner : r.ownerEmail = email
  waiting : r.status = .waiting
  begun : r.devicePubkey = some key
  account : w.accounts (cp.normalizeEmail email) = some (.json a)

/-- What an approval does once it may: it allocates, and a new machine is enrolled. -/
def approveAllocated (cp : ControlPlane) (c name key : String) (r : InviteRecord)
    (a : AccountRecord) : Edge InviteError Machine := do
  match ← Prog.mapErr InviteError.ofControlPlane (cp.allocateMachine (some a.uuid) name key) with
  | .existing _ => .throw (.nameTaken name)
  | .created resp => do
    cp.issueToken c resp.machine
    redis (.invite c (.setEx (.json { r with status := .approved }) INVITE_TTL_SECS))
    return resp.machine

theorem runs_inviteApprove_passed {email code name c key : String} {r : InviteRecord}
    {a : AccountRecord} (hmay : Approvable cp w email code c r key a)
    {o : Outcome InviteError Machine} :
    (cp.inviteApprove email code name).Runs Cmd.exec Reliable w o w' ↔
      (approveAllocated cp c name key r a).Runs Cmd.exec Reliable w o w' := by
  have haccount : ∀ {f : Option String → Edge InviteError Machine},
      (Prog.mapErr InviteError.account (cp.accountUuid email) >>= f).Runs Cmd.exec Reliable w o w' ↔
        (f (some a.uuid)).Runs Cmd.exec Reliable w o w' := by
    intro f
    rw [Prog.runs_mapErr_bind]
    have hread : ∀ {o' w₁}, (cp.accountUuid email).Runs Cmd.exec Reliable w o' w₁ ↔
        o' = .ok (some a.uuid) ∧ w₁ = w := by
      intro o' w₁
      rw [accountUuid, runs_redis_reliable, exec_account_get, hmay.account]
      exact Iff.rfl
    simp only [hread]
    constructor
    · rintro (⟨_, _, ⟨h, rfl⟩, hf⟩ | ⟨_, ⟨h, -⟩, -⟩ | ⟨_, ⟨h, -⟩, -⟩)
      · cases h
        exact hf
      · cases h
      · cases h
    · exact fun h => Or.inl ⟨_, _, ⟨rfl, rfl⟩, h⟩
  have hwaiting : requireWaiting c r.status = .ok () := by rw [hmay.waiting, requireWaiting]
  rw [inviteApprove, canonical_of_some hmay.canonical, Prog.ofExcept_ok, Prog.pure_bind,
    runs_readOwnInvite_passed hmay.stored hmay.owner, hwaiting, Prog.ofExcept_ok, Prog.pure_bind]
  obtain ⟨ownerEmail, status, devicePubkey⟩ := r
  obtain rfl : devicePubkey = some key := hmay.begun
  exact haccount

/-- The world after an approval is recorded. -/
def approvedWith (code : String) (r : InviteRecord) (w : World) : World :=
  { w with invites := Function.update w.invites code (some (.json { r with status := .approved })) }

/-- The ways an approval can go. -/
inductive ApproveRun (cp : ControlPlane) (email code name : String) (w : World) :
    Outcome InviteError Machine → World → Prop
  | stopped {o : Outcome InviteError Machine} (hnot : ∀ m, o ≠ .ok m) :
    ApproveRun cp email code name w o w
  | refused {c key : String} {r : InviteRecord} {a : AccountRecord} {e : ControlPlaneError}
      {w' : World} (hmay : Approvable cp w email code c r key a)
      (halloc : AllocationRun cp (some a.uuid) name key w (.err e) w') :
    ApproveRun cp email code name w (.err (.ofControlPlane e)) w'
  | crashed {c key msg : String} {r : InviteRecord} {a : AccountRecord} {w' : World}
      (hmay : Approvable cp w email code c r key a)
      (halloc : AllocationRun cp (some a.uuid) name key w (.panic msg) w') :
    ApproveRun cp email code name w (.panic msg) w'
  | taken {c key : String} {r : InviteRecord} {a : AccountRecord} {resp : SignupResponse}
      {w' : World} (hmay : Approvable cp w email code c r key a)
      (halloc : AllocationRun cp (some a.uuid) name key w (.ok (.existing resp)) w') :
    ApproveRun cp email code name w (.err (.nameTaken name)) w'
  | approved {c key token : String} {r : InviteRecord} {a : AccountRecord} {resp : SignupResponse}
      {w₁ : World} (hmay : Approvable cp w email code c r key a)
      (halloc : AllocationRun cp (some a.uuid) name key w (.ok (.created resp)) w₁)
      (htoken : IsToken token) :
    ApproveRun cp email code name w (.ok resp.machine)
      (approvedWith c r (issued cp c resp.machine token w₁))

/-- **An approval.** -/
theorem runs_inviteApprove {email code name : String} {o : Outcome InviteError Machine}
    (h : (cp.inviteApprove email code name).Runs Cmd.exec Reliable w o w') :
    ApproveRun cp email code name w o w' := by
  rw [inviteApprove] at h
  rcases runs_canonical_bind h with ⟨c, hc, h⟩ | ⟨-, rfl, rfl⟩
  swap
  · exact .stopped nofun
  rcases runs_readOwnInvite_bind h with ⟨r, hr, howner, h⟩ | ⟨⟨e, rfl⟩, rfl⟩
  swap
  · exact .stopped nofun
  rcases runs_ofExcept.mp h with ⟨_, hw, h⟩ | ⟨e, -, rfl, rfl⟩
  swap
  · exact .stopped nofun
  have hwaiting : r.status = .waiting := by
    cases hs : r.status with
    | waiting => rfl
    | _ =>
      rw [hs] at hw
      cases hw
  cases hkey : r.devicePubkey with
  | none =>
    rw [hkey] at h
    obtain ⟨rfl, rfl⟩ := h
    exact .stopped nofun
  | some key =>
    rw [hkey] at h
    rcases runs_accountUuid_bind h with ⟨a, ha, h⟩ | ⟨-, h⟩ | ⟨⟨e, rfl⟩, rfl⟩
    · have hmay : Approvable cp w email code c r key a := ⟨hc, hr, howner, hwaiting, hkey, ha⟩
      rw [Prog.expect_some, Prog.pure_bind] at h
      rcases Prog.runs_mapErr_bind.mp h with ⟨outcome, w₁, halloc, hrest⟩ | ⟨e, halloc, rfl⟩ |
        ⟨msg, halloc, rfl⟩
      · have hrun := runs_allocateMachine halloc
        cases outcome with
        | existing resp =>
          obtain ⟨rfl, rfl⟩ := hrest
          exact .taken hmay hrun
        | created resp =>
          rcases Prog.runs_bind.mp hrest with ⟨_, w₂, hissue, hset⟩ | ⟨e, hissue, -⟩ |
            ⟨msg, hissue, -⟩
          · obtain ⟨-, token, htoken, rfl⟩ := runs_issueToken hissue
            rw [runs_redis_reliable] at hset
            obtain ⟨rfl, rfl⟩ := hset
            rw [← hkey]
            exact .approved hmay hrun htoken
          · cases (runs_issueToken hissue).1
          · cases (runs_issueToken hissue).1
      · exact .refused hmay (runs_allocateMachine halloc)
      · exact .crashed hmay (runs_allocateMachine halloc)
    · obtain ⟨rfl, rfl⟩ := h
      exact .stopped nofun
    · exact .stopped nofun

/-! ## Begins, polls and the owner's other decisions -/

/-- An operation of the invite's owner that needs the invite to be there. -/
theorem runs_ownInvite {email code : String} {f : String → InviteRecord → Edge InviteError α}
    {o : Outcome InviteError α}
    (h : (Prog.ofExcept (cp.canonical code) >>= fun c =>
      readOwnInvite email c >>= f c).Runs Cmd.exec Reliable w o w') :
    (∃ c r, cp.canonicalInviteCode code = some c ∧ w.invites c = some (.json r) ∧
        r.ownerEmail = email ∧ (f c r).Runs Cmd.exec Reliable w o w') ∨
      (∃ e, o = .err e) ∧ w' = w := by
  rcases runs_canonical_bind h with ⟨c, hc, h⟩ | ⟨-, rfl, rfl⟩
  · rcases runs_readOwnInvite_bind h with ⟨r, hr, howner, h⟩ | hstopped
    · exact Or.inl ⟨c, r, hc, hr, howner, h⟩
    · exact Or.inr hstopped
  · exact Or.inr ⟨⟨_, rfl⟩, rfl⟩

/-- The world with another record for an invite. -/
def withInvite (code : String) (r : InviteRecord) (w : World) : World :=
  { w with invites := Function.update w.invites code (some (.json r)) }

/-- The world after an invite is revoked. -/
def withoutInvite (code : String) (w : World) : World :=
  { w with invites := Function.update w.invites code none }

/-- The world after a payload is collected. -/
def collectedFrom (code : String) (w : World) : World :=
  { w with deliveries := Function.update w.deliveries code none }

/-- The ways a begin can go. -/
inductive BeginRun (cp : ControlPlane) (code key : String) (w : World) :
    Outcome InviteError PollOutcome → World → Prop
  | stopped {e : InviteError} (hwhy : ∀ c r, cp.canonicalInviteCode code = some c →
      cp.validateWgPubkey key = .ok () → w.invites c = some (.json r) →
        r.status = .denied ∨ r.status = .approved ∧ r.devicePubkey ≠ some key) :
    BeginRun cp code key w (.err e) w
  | begun {c : String} {r : InviteRecord} (hcode : cp.canonicalInviteCode code = some c)
      (hkey : cp.validateWgPubkey key = .ok ()) (hr : w.invites c = some (.json r))
      (hlive : r.status = .dormant ∨ r.status = .waiting) :
    BeginRun cp code key w (.ok (.bare "waiting"))
      (withInvite c { r with devicePubkey := some key, status := .waiting } w)
  | lost {c : String} {r : InviteRecord} {msg : String}
      (hcode : cp.canonicalInviteCode code = some c)
      (hr : w.invites c = some (.json r)) (happroved : r.status = .approved)
      (hbegun : r.devicePubkey = some key)
      (hnone : (listed w).find? (·.wgPublicKey = key) = none) :
    BeginRun cp code key w (.panic msg) w
  | rearmed {c token : String} {r : InviteRecord} {m : Machine}
      (hcode : cp.canonicalInviteCode code = some c)
      (hkey : cp.validateWgPubkey key = .ok ()) (hr : w.invites c = some (.json r))
      (happroved : r.status = .approved) (hbegun : r.devicePubkey = some key)
      (hfind : (listed w).find? (·.wgPublicKey = key) = some m) (htoken : IsToken token) :
    BeginRun cp code key w (.ok (.bare "approved")) (issued cp c m token w)

theorem runs_rearmDelivery (hdec : Decodes w) {code key : String} {r : InviteRecord}
    (hbegun : r.devicePubkey = some key) {o : Outcome InviteError Unit}
    (h : (cp.rearmDelivery code r).Runs Cmd.exec Reliable w o w') :
    ((listed w).find? (·.wgPublicKey = key) = none ∧ (∃ msg, o = .panic msg) ∧ w' = w) ∨
      ∃ m token, (listed w).find? (·.wgPublicKey = key) = some m ∧ IsToken token ∧ o = .ok () ∧
        w' = issued cp code m token w := by
  rw [rearmDelivery, hbegun, Prog.expect_some, Prog.pure_bind] at h
  rcases Prog.runs_mapErr_bind.mp h with ⟨ms, w₁, hlist, h⟩ | ⟨e, hlist, -⟩ | ⟨msg, hlist, -⟩
  · obtain ⟨hms, rfl⟩ := (runs_list hdec).mp hlist
    cases hms
    rcases runs_expect.mp h with ⟨m, hm, h⟩ | ⟨hnone, rfl, rfl⟩
    · obtain ⟨rfl, token, htoken, rfl⟩ := runs_issueToken h
      exact Or.inr ⟨m, token, hm, htoken, rfl, rfl⟩
    · exact Or.inl ⟨hnone, ⟨_, rfl⟩, rfl⟩
  · cases ((runs_list hdec).mp hlist).1
  · cases ((runs_list hdec).mp hlist).1

/-- **A begin.** -/
theorem runs_inviteBegin (hdec : Decodes w) {code key : String} {o : Outcome InviteError PollOutcome}
    (h : (cp.inviteBegin code key).Runs Cmd.exec Reliable w o w') :
    BeginRun cp code key w o w' := by
  rw [inviteBegin] at h
  rcases runs_canonical_bind h with ⟨c, hc, h⟩ | ⟨hnone, rfl, rfl⟩
  swap
  · refine .stopped fun c r hc => ?_
    rw [hnone] at hc
    cases hc
  cases hkey : cp.validateWgPubkey key with
  | error e =>
    rw [hkey] at h
    obtain ⟨rfl, rfl⟩ := h
    refine .stopped fun c r _ hok => ?_
    rw [hkey] at hok
    cases hok
  | ok u =>
    rw [hkey] at h
    rcases runs_readInvite_bind h with ⟨r, hr, h⟩ | ⟨⟨e, he, rfl⟩, rfl⟩
    swap
    · refine .stopped fun c' r' hc' _ hr' => ?_
      rw [hc] at hc'
      cases hc'
      rw [inviteAt_eq_ok.mpr hr'] at he
      cases he
    have hstop : ∀ {e}, (r.status = .denied ∨ r.status = .approved ∧ r.devicePubkey ≠ some key) →
        BeginRun cp code key w (.err e) w := by
      intro e hwhy
      refine .stopped fun c' r' hc' _ hr' => ?_
      rw [hc] at hc'
      cases hc'
      rw [hr] at hr'
      cases hr'
      exact hwhy
    have hbegun : (r.status = .dormant ∨ r.status = .waiting) →
        (do redis (.invite c (.setEx (.json { r with devicePubkey := some key, status := .waiting })
              INVITE_TTL_SECS))
            return PollOutcome.bare "waiting" : Edge InviteError PollOutcome).Runs Cmd.exec Reliable
          w o w' → BeginRun cp code key w o w' := by
      intro hlive h
      rw [runs_redis_reliable] at h
      obtain ⟨rfl, rfl⟩ := h
      exact .begun hc hkey hr hlive
    cases hs : r.status with
    | dormant =>
      rw [hs] at h
      exact hbegun (Or.inl hs) h
    | waiting =>
      rw [hs] at h
      exact hbegun (Or.inr hs) h
    | denied =>
      rw [hs] at h
      obtain ⟨rfl, rfl⟩ := h
      exact hstop (Or.inl hs)
    | approved =>
      rw [hs] at h
      dsimp only at h
      split_ifs at h with hpub
      · rcases Prog.runs_bind.mp h with ⟨_, w₁, hrearm, h⟩ | ⟨e, hrearm, -⟩ | ⟨msg, hrearm, rfl⟩
        · obtain ⟨rfl, rfl⟩ := h
          rcases runs_rearmDelivery hdec hpub hrearm with ⟨-, ⟨_, h⟩, -⟩ |
            ⟨m, token, hm, htoken, -, rfl⟩
          · cases h
          · exact .rearmed hc hkey hr hs hpub hm htoken
        · rcases runs_rearmDelivery hdec hpub hrearm with ⟨-, ⟨_, h⟩, -⟩ | ⟨_, _, -, -, h, -⟩
          · cases h
          · cases h
        · rcases runs_rearmDelivery hdec hpub hrearm with ⟨hnone, -, rfl⟩ | ⟨_, _, -, -, h, -⟩
          · exact .lost hc hr hs hpub hnone
          · cases h
      · obtain ⟨rfl, rfl⟩ := h
        exact hstop (Or.inr ⟨hs, hpub⟩)

/-- What a poll says of an invite that has no payload to give. -/
def InviteStatus.text : InviteStatus → String
  | .dormant => "dormant"
  | .waiting => "waiting"
  | .approved => "approved"
  | .denied => "denied"

/-- The ways a poll can go. -/
inductive PollRun (cp : ControlPlane) (code : String) (w : World) :
    Outcome InviteError PollOutcome → World → Prop
  | stopped {e : InviteError}
      (hwhy : ∀ c r, cp.canonicalInviteCode code = some c → w.invites c ≠ some (.json r)) :
    PollRun cp code w (.err e) w
  | told {c : String} {r : InviteRecord} (hcode : cp.canonicalInviteCode code = some c)
      (hr : w.invites c = some (.json r))
      (hempty : r.status = .approved → w.deliveries c = none) :
    PollRun cp code w (.ok (.bare r.status.text)) w
  | spoiled {c text err : String} {r : InviteRecord} {e : InviteError}
      (hcode : cp.canonicalInviteCode code = some c)
      (hr : w.invites c = some (.json r)) (happroved : r.status = .approved)
      (hd : w.deliveries c = some (.corrupt text err)) :
    PollRun cp code w (.err e) (collectedFrom c w)
  | delivered {c : String} {r : InviteRecord} {d : EnrollmentDelivery}
      (hcode : cp.canonicalInviteCode code = some c)
      (hr : w.invites c = some (.json r)) (happroved : r.status = .approved)
      (hd : w.deliveries c = some (.json d)) :
    PollRun cp code w (.ok ⟨"approved", some d.machine, some d.deviceToken⟩) (collectedFrom c w)

/-- **A poll.** -/
theorem runs_invitePoll {code : String} {o : Outcome InviteError PollOutcome}
    (h : (cp.invitePoll code).Runs Cmd.exec Reliable w o w') : PollRun cp code w o w' := by
  rw [invitePoll] at h
  rcases runs_canonical_bind h with ⟨c, hc, h⟩ | ⟨hnone, rfl, rfl⟩
  swap
  · refine .stopped fun c r hc => ?_
    rw [hnone] at hc
    cases hc
  rcases runs_readInvite_bind h with ⟨r, hr, h⟩ | ⟨⟨e, he, rfl⟩, rfl⟩
  swap
  · refine .stopped fun c' r' hc' hr' => ?_
    rw [hc] at hc'
    cases hc'
    rw [inviteAt_eq_ok.mpr hr'] at he
    cases he
  have htold : r.status ≠ .approved → o = .ok (.bare r.status.text) → w' = w →
      PollRun cp code w o w' := by
    rintro hs rfl rfl
    exact .told hc hr fun h => absurd h hs
  cases hs : r.status with
  | dormant =>
    rw [hs] at h
    exact htold (by simp [hs]) (hs ▸ h.1) h.2
  | waiting =>
    rw [hs] at h
    exact htold (by simp [hs]) (hs ▸ h.1) h.2
  | denied =>
    rw [hs] at h
    exact htold (by simp [hs]) (hs ▸ h.1) h.2
  | approved =>
    rw [hs] at h
    dsimp only at h
    rw [runs_redis_reliable] at h
    have hexec : (RedisOp.delivery c .getDel).exec w = (w.deliveries c, collectedFrom c w) := by
      simp [RedisOp.exec, collectedFrom]
    rw [hexec] at h
    dsimp only at h
    rcases hd : w.deliveries c with _ | d | ⟨text, err⟩
    · rw [hd] at h
      obtain ⟨rfl, rfl⟩ := h
      have hsame : collectedFrom c w = w := by
        rw [collectedFrom, ← hd, Function.update_eq_self]
      rw [hsame]
      have := PollRun.told hc hr fun _ => hd
      rwa [hs] at this
    · rw [hd] at h
      obtain ⟨rfl, rfl⟩ := h
      exact .delivered hc hr hs hd
    · rw [hd] at h
      obtain ⟨rfl, rfl⟩ := h
      exact .spoiled hc hr hs hd

/-- The ways a denial can go. -/
inductive DenyRun (cp : ControlPlane) (email code : String) (w : World) :
    Outcome InviteError Unit → World → Prop
  | stopped {e : InviteError} : DenyRun cp email code w (.err e) w
  | denied {c : String} {r : InviteRecord} (hcode : cp.canonicalInviteCode code = some c)
      (hr : w.invites c = some (.json r)) (howner : r.ownerEmail = email)
      (hwaiting : r.status = .waiting) :
    DenyRun cp email code w (.ok ()) (withInvite c { r with status := .denied } w)

/-- **A denial.** -/
theorem runs_inviteDeny {email code : String} {o : Outcome InviteError Unit}
    (h : (cp.inviteDeny email code).Runs Cmd.exec Reliable w o w') : DenyRun cp email code w o w' := by
  rcases runs_ownInvite h with ⟨c, r, hc, hr, howner, h⟩ | ⟨⟨e, rfl⟩, rfl⟩
  swap
  · exact .stopped
  cases hs : r.status with
  | waiting =>
    rw [hs, requireWaiting, Prog.ofExcept_ok, Prog.pure_bind, runs_redis_last_reliable] at h
    obtain ⟨rfl, rfl⟩ := h
    exact .denied hc hr howner hs
  | dormant =>
    rw [hs] at h
    obtain ⟨rfl, rfl⟩ := h
    exact .stopped
  | approved =>
    rw [hs] at h
    obtain ⟨rfl, rfl⟩ := h
    exact .stopped
  | denied =>
    rw [hs] at h
    obtain ⟨rfl, rfl⟩ := h
    exact .stopped

/-- The ways a revocation can go. -/
inductive RevokeRun (cp : ControlPlane) (email code : String) (w : World) :
    Outcome InviteError Unit → World → Prop
  | stopped {e : InviteError} : RevokeRun cp email code w (.err e) w
  | revoked {c : String} {r : InviteRecord} (hcode : cp.canonicalInviteCode code = some c)
      (hr : w.invites c = some (.json r)) (howner : r.ownerEmail = email)
      (hlive : r.status = .dormant ∨ r.status = .waiting) :
    RevokeRun cp email code w (.ok ()) (withoutInvite c w)

/-- **A revocation.** -/
theorem runs_inviteRevoke {email code : String} {o : Outcome InviteError Unit}
    (h : (cp.inviteRevoke email code).Runs Cmd.exec Reliable w o w') :
    RevokeRun cp email code w o w' := by
  rcases runs_ownInvite h with ⟨c, r, hc, hr, howner, h⟩ | ⟨⟨e, rfl⟩, rfl⟩
  swap
  · exact .stopped
  have hrevoked : (r.status = .dormant ∨ r.status = .waiting) →
      (do let _ ← redis (.invite c .del)
          return () : Edge InviteError Unit).Runs Cmd.exec Reliable w o w' →
      RevokeRun cp email code w o w' := by
    intro hlive h
    rw [runs_redis_reliable] at h
    obtain ⟨rfl, rfl⟩ := h
    have hexec : ((RedisOp.invite c .del).exec w).2 = withoutInvite c w := by
      simp [RedisOp.exec, withoutInvite]
    rw [hexec]
    exact .revoked hc hr howner hlive
  cases hs : r.status with
  | dormant =>
    rw [hs] at h
    exact hrevoked (Or.inl hs) h
  | waiting =>
    rw [hs] at h
    exact hrevoked (Or.inr hs) h
  | approved =>
    rw [hs] at h
    obtain ⟨rfl, rfl⟩ := h
    exact .stopped
  | denied =>
    rw [hs] at h
    obtain ⟨rfl, rfl⟩ := h
    exact .stopped

/-! ## Registering a device -/

/-- What a device registration returns after its allocation. -/
def registered : Outcome ControlPlaneError SignupOutcome → Outcome ControlPlaneError Machine
  | .ok (.existing resp) => .ok resp.machine
  | .ok (.created _) => .panic "re-registering an enrolled machine is always Existing"
  | .err e => .err e
  | .panic msg => .panic msg

/-- The ways a device registration can go. -/
inductive RegisterRun (cp : ControlPlane) (token key : String) (w : World) :
    Outcome ControlPlaneError Machine → World → Prop
  | blank (h : token = "") : RegisterRun cp token key w (.panic "device token is required") w
  | refused {e : ControlPlaneError} (h : cp.validateWgPubkey key = .error e) :
    RegisterRun cp token key w (.err e) w
  | unknown (h : (listed w).find? (·.deviceTokenHash = some (cp.tokenHash token)) = none) :
    RegisterRun cp token key w (.err (.notFound "no machine for this device token")) w
  | found {target : Machine} {o : Outcome ControlPlaneError SignupOutcome} {w' : World}
      (h : (listed w).find? (·.deviceTokenHash = some (cp.tokenHash token)) = some target)
      (halloc : AllocationRun cp target.owner target.name key w o w') :
    RegisterRun cp token key w (registered o) w'

/-- **A device registration.** -/
theorem runs_deviceRegister (hdec : Decodes w) {token key : String}
    {o : Outcome ControlPlaneError Machine}
    (h : (cp.deviceRegister token key).Runs Cmd.exec Reliable w o w') :
    RegisterRun cp token key w o w' := by
  unfold deviceRegister at h
  split_ifs at h with htoken
  · obtain ⟨rfl, rfl⟩ := h
    exact .blank htoken
  rcases runs_ofExcept.mp h with ⟨_, hkey, h⟩ | ⟨e, he, rfl, rfl⟩
  swap
  · exact .refused he
  rcases Prog.runs_bind.mp h with ⟨ms, w₁, hlist, hrest⟩ | ⟨e, hlist, -⟩ | ⟨msg, hlist, -⟩
  · obtain ⟨hms, rfl⟩ := (runs_list hdec).mp hlist
    cases hms
    split at hrest
    · rename_i hfind
      obtain ⟨rfl, rfl⟩ := hrest
      exact .unknown hfind
    · rename_i target hfind
      rcases Prog.runs_bind.mp hrest with ⟨outcome, w₂, halloc, hend⟩ | ⟨e, halloc, rfl⟩ |
        ⟨msg, halloc, rfl⟩
      · have hrun : RegisterRun cp token key w₁ _ w₂ := .found hfind (runs_allocateMachine halloc)
        cases outcome with
        | created resp =>
          obtain ⟨rfl, rfl⟩ := hend
          exact hrun
        | existing resp =>
          obtain ⟨rfl, rfl⟩ := hend
          exact hrun
      · exact .found hfind (runs_allocateMachine halloc)
      · exact .found hfind (runs_allocateMachine halloc)
  · cases ((runs_list hdec).mp hlist).1
  · cases ((runs_list hdec).mp hlist).1

theorem allocationGate_ne_notFound {name key text : String} :
    allocationGate cp name key ≠ .err (.notFound text) := by
  intro h
  unfold allocationGate at h
  split at h
  · rename_i hname
    unfold validateMachineName at hname
    dsimp only at hname
    split_ifs at hname
    cases hname
    cases h
  · rename_i hkey
    unfold validateWgPubkey at hkey
    split_ifs at hkey
    cases hkey
    cases h
  · unfold edgePublicKey at h
    split at h
    · rename_i hdone
      subst h
      split at hdone
      · cases hdone
      · split_ifs at hdone <;> cases hdone
    · cases h

end ControlPlane
end Cococoir
