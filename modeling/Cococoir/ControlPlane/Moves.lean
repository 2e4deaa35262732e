import Cococoir.ControlPlane.Calls

/-!
# What a call may do next

The arguments about concurrent enrollment operations use the programs only through this module.
`View` is what a call has learnt and done so far, as far as any of them needs; `Move` lists the
commands a call may issue with that view; `body_conforms` checks the programs of the eight
operations against the list, once.

## Why a view

An invariant of all interleavings has to be preserved by every command of every operation, and
whether a command is harmless often depends on what its call read before: a `SET` of a record is
so only if the record that was read is still there.  The view keeps that.  It grows by one rule
for each command and response, `View.next`, and it forgets what can no longer matter, such as a
name that was claimed and then rolled back.

## Why a list of moves

The programs are long, and they share their pieces.  `Move` has one constructor for each kind of
command that matters, with what the call knows when it issues it; everything that touches nothing
shared is one constructor, too.  An invariant is then proved by going through these constructors,
some twenty cases, and not through eight programs.  The price is that the list has to say all that
an invariant may want: what it says of a command is what the programs guarantee of it, no more.

`Settled` is the other half: what the outcome of a call that has ended says about its view.

The proofs at the end follow the programs piece by piece, and each piece has a postcondition: what
holds after a wiring, after an allocation, after a list.
-/

namespace Cococoir
namespace ControlPlane

open Concurrency

/-- How far an allocation is with its host index. -/
inductive HostPhase : Type where
  | idle : HostPhase
  /-- The counter exists. -/
  | seeded : HostPhase
  /-- The index is taken and not used yet. -/
  | pending (i : ℤ) : HostPhase
  /-- The name was claimed by another call; the index is to be given back. -/
  | lost (i : ℤ) : HostPhase
  deriving DecidableEq

/-- What a call has learnt and done. -/
structure View where
  call : Call
  /-- The invite record it read. -/
  invite : Option InviteRecord
  /-- The machine records it read or wrote, the latest first. -/
  seen : List Machine
  host : HostPhase
  /-- The machine it created and did not take back. -/
  claimed : Option Machine
  /-- The name it created a record for and has not listed yet. -/
  unlisted : Option String
  /-- The name whose record it deleted and that it has not taken off the list yet, and
  whether there was a record. -/
  removed : Option (String × Bool)
  /-- The random token it drew. -/
  token : Option String
  /-- The payload it stored. -/
  minted : Option EnrollmentDelivery
  /-- The payload it collected. -/
  got : Option EnrollmentDelivery
  /-- The invite status it wrote. -/
  recorded : Option InviteStatus
  /-- Whether it deleted the invite. -/
  revoked : Bool

namespace View

def init (call : Call) : View :=
  ⟨call, none, [], .idle, none, none, none, none, none, none, none, false⟩

/-- The latest version of a record that the call knows. -/
def known (v : View) (n : String) : Option Machine := v.seen.find? (·.name = n)

/-- The view after a command's response. -/
def next (v : View) : (c : Cmd) → c.Resp → View
  | .redis (.machine _ .get), .ok (some (.json m)) => { v with seen := m :: v.seen }
  | .redis (.machine n (.setNx (.json m))), .ok true =>
    { v with seen := m :: v.seen, host := .idle, claimed := some m, unlisted := some n }
  | .redis (.machine _ (.setNx _)), .ok false =>
    { v with host := match v.host with | .pending i => .lost i | other => other }
  | .redis (.machine _ (.set (.json m))), .ok _ => { v with seen := m :: v.seen }
  | .redis (.machine n .del), .ok hits =>
    { v with claimed := none, removed := some (n, hits != 0) }
  | .redis (.index (.rpush _)), .ok _ => { v with unlisted := none }
  | .redis (.index (.lrem _)), .ok _ => { v with removed := none }
  | .redis (.alloc (.setNx _)), .ok _ => { v with host := .seeded }
  | .redis (.alloc .incr), .ok i => { v with host := .pending i }
  | .redis (.alloc .decr), .ok _ => { v with host := .idle }
  | .redis (.invite _ .get), .ok (some (.json r)) => { v with invite := some r }
  | .redis (.invite _ (.setEx (.json r) _)), .ok _ => { v with recorded := some r.status }
  | .redis (.invite _ .del), .ok _ => { v with revoked := true }
  | .redis (.delivery _ (.setEx (.json d) _)), .ok _ => { v with minted := some d }
  | .redis (.delivery _ .getDel), .ok (some (.json d)) => { v with got := some d }
  | .fillBytes _, bytes => { v with token := some (hexEncode bytes.1) }
  | _, _ => v

end View

variable (cp : ControlPlane)

/-- The canonical code an invite operation is about. -/
def codeOf : Call → Option String
  | .inviteRevoke _ code => cp.canonicalInviteCode code
  | .inviteBegin code _ => cp.canonicalInviteCode code
  | .invitePoll code => cp.canonicalInviteCode code
  | .inviteApprove _ code _ => cp.canonicalInviteCode code
  | .inviteDeny _ code => cp.canonicalInviteCode code
  | _ => none

/-- A status that an invite can still leave. -/
def InviteStatus.live : InviteStatus → Bool
  | .dormant | .waiting => true
  | .approved | .denied => false

/-- Whether the call is a re-arm: a begin that read the invite approved, with its own key. -/
def View.rearms (v : View) : Prop :=
  ∃ code key r, v.call = .inviteBegin code key ∧ v.invite = some r ∧ r.status = .approved ∧
    r.devicePubkey = some key

/-- Whether the call is a machine's dial. -/
def Call.begins : Call → Bool
  | .inviteBegin _ _ => true
  | _ => false

/-- The commands a call may issue, given what it has learnt and done. -/
inductive Move : View → Cmd → Prop
  | outside {v c} (h : ∀ op, c ≠ .redis op) : Move v c
  | readMachine {v n} : Move v (.redis (.machine n .get))
  | readIndex {v} : Move v (.redis (.index .lrange))
  | readAccount {v email} : Move v (.redis (.account email .get))
  | readInvite {v code} (hcode : cp.codeOf v.call = some code) (hfresh : v.invite = none) :
      Move v (.redis (.invite code .get))
  | seed {v} : Move v (.redis (.alloc (.setNx 1)))
  | takeIndex {v} (h : v.host = .seeded) : Move v (.redis (.alloc .incr))
  /-- Claim a name for a fresh machine on the index taken. -/
  | claim {v} {i : ℤ} {m : Machine} (hhost : v.host = .pending i) (htwo : 2 ≤ i)
      (hips : cp.hostStrings i.toNat = some (m.ipv6, m.wgIp)) (hhash : m.deviceTokenHash = none)
      (hlisted : v.unlisted = none) : Move v (.redis (.machine m.name (.setNx (.json m))))
  | giveBack {v i} (h : v.host = .lost i) : Move v (.redis (.alloc .decr))
  | enlist {v n} (h : v.unlisted = some n) : Move v (.redis (.index (.rpush n)))
  /-- Write the latest known version of a record back with another key. -/
  | rotate {v} {m : Machine} {key : String} (h : v.known m.name = some m)
      (hcall : v.call.begins = false) :
      Move v (.redis (.machine m.name (.set (.json { m with wgPublicKey := key }))))
  /-- Attach the token's hash: an approval to the machine it created, a re-arm to one it
  found. -/
  | attach {v} {m : Machine} {token : String}
      (hsource : v.claimed = some m ∧ v.known m.name = some m ∧ m.deviceTokenHash = none ∨
        v.rearms ∧ m ∈ v.seen)
      (htoken : v.token = some token) (hminted : v.minted = none) :
      Move v (.redis (.machine m.name
        (.set (.json { m with deviceTokenHash := some (cp.tokenHash token) }))))
  | drop {v n} (h : v.removed = none) : Move v (.redis (.machine n .del))
  | unlist {v n hit} (h : v.removed = some (n, hit)) : Move v (.redis (.index (.lrem n)))
  /-- Store the payload: the record just written and the token behind its hash. -/
  | deliver {v code ttl} {d : EnrollmentDelivery} (hcode : cp.codeOf v.call = some code)
      (hseen : v.seen.head? = some d.machine) (hminted : v.minted = none)
      (hhash : d.machine.deviceTokenHash = some (cp.tokenHash d.deviceToken)) :
      Move v (.redis (.delivery code (.setEx (.json d) ttl)))
  | collect {v code r} (hcode : cp.codeOf v.call = some code) (hread : v.invite = some r)
      (happroved : r.status = .approved) (hgot : v.got = none) :
      Move v (.redis (.delivery code .getDel))
  | begun {v code ttl key r} (hcode : cp.codeOf v.call = some code) (hread : v.invite = some r)
      (hlive : r.status.live) :
      Move v (.redis (.invite code
        (.setEx (.json { r with devicePubkey := some key, status := .waiting }) ttl)))
  /-- Write the owner's decision over a waiting invite. -/
  | decide {v code ttl r status} (hcode : cp.codeOf v.call = some code) (hread : v.invite = some r)
      (hwaiting : r.status = .waiting)
      (hstatus : status = .denied ∨ status = .approved ∧ v.claimed.isSome) :
      Move v (.redis (.invite code (.setEx (.json { r with status := status }) ttl)))
  | revoke {v code r} (hcode : cp.codeOf v.call = some code) (hread : v.invite = some r)
      (hlive : r.status.live) : Move v (.redis (.invite code .del))

/-- The protocol of the machine and invite operations.  A record is stored under its own
name. -/
def moves : Protocol Call Cmd Cmd.Resp View where
  init := View.init
  next := View.next
  ok := Move cp
  resp c r :=
    match c, r with
    | .redis (.machine n .get), .ok (some (.json m)) => m.name = n
    | _, _ => True

/-- What the end of a call says about what it did. -/
def Settled (v : View) (o : Outcome EdgeError Reply) : Prop :=
  match v.call, o with
  | .inviteApprove _ _ _, .ok _ => v.recorded = some .approved
  | .inviteDeny _ _, .ok _ => v.recorded = some .denied
  | .inviteRevoke _ _, .ok _ => v.revoked
  | .invitePoll _, .ok (.poll out) =>
    out.machine = v.got.map (·.machine) ∧ out.deviceToken = v.got.map (·.deviceToken)
  | _, _ => True

/-! ## The programs issue these commands only -/

/-- What the machine operations leave as it was: everything about the invite. -/
structure View.Extends (v v' : View) : Prop where
  call : v'.call = v.call
  invite : v'.invite = v.invite
  minted : v'.minted = v.minted
  got : v'.got = v.got
  recorded : v'.recorded = v.recorded
  seen : v.seen <:+ v'.seen

theorem View.Extends.refl (v : View) : v.Extends v := ⟨rfl, rfl, rfl, rfl, rfl, List.suffix_refl _⟩

theorem View.Extends.trans {u v w : View} (h : u.Extends v) (h' : v.Extends w) : u.Extends w :=
  ⟨h'.call.trans h.call, h'.invite.trans h.invite, h'.minted.trans h.minted, h'.got.trans h.got,
    h'.recorded.trans h.recorded, h.seen.trans h'.seen⟩

variable {cp} {v : View} {ε α : Type}

/-- A program that only unwires keeps the view. -/
theorem conforms_outside {p : Edge ε α}
    (hp : p.All fun c => (∀ op, c ≠ .redis op) ∧ ∀ n, c ≠ .fillBytes n) :
    (moves cp).Conforms (fun v' _ => v' = v) p v := by
  refine Protocol.Conforms.of_all (hp.mono fun c hc => ⟨.outside hc.1, fun r => ?_⟩)
  cases c with
  | redis op => exact absurd rfl (hc.1 op)
  | fillBytes n => exact absurd rfl (hc.2 n)
  | _ => rfl

theorem removeForwards_outside {m : Machine} {ports : List (ℕ × ℕ)} :
    (removeForwards m ports : Edge ε Unit).All
      fun c => (∀ op, c ≠ .redis op) ∧ ∀ n, c ≠ .fillBytes n := by
  induction ports with
  | nil => trivial
  | cons p ports ih => exact ⟨⟨by simp, by simp⟩, fun _ => ih⟩

theorem upsertMachine_outside {name ipv6 domain : String} :
    (upsertMachine name ipv6 domain : Edge ε _).All
      fun c => (∀ op, c ≠ .redis op) ∧ ∀ n, c ≠ .fillBytes n :=
  ⟨⟨by simp, by simp⟩, fun _ => ⟨⟨by simp, by simp⟩, fun _ => trivial⟩⟩

theorem removeMachine_outside {name domain : String} :
    (removeMachine name domain : Edge ε _).All
      fun c => (∀ op, c ≠ .redis op) ∧ ∀ n, c ≠ .fillBytes n :=
  ⟨⟨by simp, by simp⟩, fun _ => ⟨⟨by simp, by simp⟩, fun _ => trivial⟩⟩

theorem conforms_rollback {name : String} {m : Machine} (h : v.removed = none) :
    (moves cp).Conforms (fun v' _ => v.Extends v') (rollbackAllocation name m : Edge ε Unit) v := by
  refine ⟨.drop h, fun r _ => ?_⟩
  cases r with
  | error e => exact .refl v
  | ok hits =>
    refine ⟨@Move.unlist _ _ name (hits != 0) rfl, fun r _ => ?_⟩
    cases r with
    | error e => exact ⟨rfl, rfl, rfl, rfl, rfl, List.suffix_refl _⟩
    | ok n =>
      refine ⟨.outside (by simp), fun r _ => ?_⟩
      refine (conforms_outside removeForwards_outside).mono fun v' _ hv' => ?_
      rw [hv']
      exact ⟨rfl, rfl, rfl, rfl, rfl, List.suffix_refl _⟩

/-- What holds after wiring: nothing has changed, unless it failed and was rolled back. -/
def AfterWiring (v v' : View) (o : Outcome ControlPlaneError Unit) : Prop :=
  v.Extends v' ∧ (o = .ok () → v' = v)

theorem conforms_addForwards {name : String} {m : Machine} {ports : List (ℕ × ℕ)}
    (h : v.removed = none) :
    (moves cp).Conforms (AfterWiring v) (addForwards name m ports) v := by
  induction ports with
  | nil => exact ⟨.refl v, fun _ => rfl⟩
  | cons p ports ih =>
    refine ⟨.outside (by simp), fun r _ => ?_⟩
    cases r with
    | ok u => exact ih
    | error e =>
      refine (conforms_rollback h).bind (fun v' _ hv' => ?_) (fun v' e hv' => ?_)
        (fun v' m hv' => ?_)
      · exact ⟨hv', fun h => nomatch h⟩
      · exact ⟨hv', fun h => nomatch h⟩
      · exact ⟨hv', fun h => nomatch h⟩

theorem conforms_wire {m : Machine} (h : v.removed = none) :
    (moves cp).Conforms (AfterWiring v) (cp.wire m) v := by
  refine ⟨.outside (by simp), fun r _ => ?_⟩
  cases r with
  | error e =>
    refine (conforms_rollback h).bind (fun v' _ hv' => ?_) (fun v' e hv' => ?_)
      (fun v' m hv' => ?_)
    · exact ⟨hv', fun h => nomatch h⟩
    · exact ⟨hv', fun h => nomatch h⟩
    · exact ⟨hv', fun h => nomatch h⟩
  | ok u =>
    refine (conforms_addForwards h).bind (fun v' _ hv' => ?_) (fun v' e hv' => hv')
      (fun v' m hv' => hv')
    obtain rfl := hv'.2 rfl
    refine (conforms_outside upsertMachine_outside).bind (fun v'' _ hv'' => ?_)
      (fun v'' e hv'' => ?_) (fun v'' m hv'' => ?_)
    · rw [hv'']
      exact ⟨.refl _, fun _ => rfl⟩
    · rw [hv'']
      exact ⟨.refl _, fun h => nomatch h⟩
    · rw [hv'']
      exact ⟨.refl _, fun h => nomatch h⟩

/-- A call that has not started to allocate. -/
structure View.Idle (v : View) : Prop where
  unlisted : v.unlisted = none
  removed : v.removed = none

/-- What holds after an allocation: a machine it created is known and claimed. -/
def AfterAllocation (v v' : View) (o : Outcome ControlPlaneError SignupOutcome) : Prop :=
  v.Extends v' ∧ ∀ resp, o = .ok (.created resp) →
    v'.claimed = some resp.machine ∧ v'.known resp.machine.name = some resp.machine ∧
      resp.machine.deviceTokenHash = none

theorem View.known_cons {n : String} {m : Machine} (h : m.name = n) :
    View.known { v with seen := m :: v.seen } n = some m := by
  simp [known, h]

theorem conforms_ensureKey {name key : String} {m : Machine} (hm : v.known m.name = some m)
    (hname : m.name = name) (hcall : v.call.begins = false) :
    (moves cp).Conforms (fun v' _ => v.Extends v') (ensureKey name key m) v := by
  unfold ensureKey
  split_ifs with hkey
  · exact ⟨.outside (by simp), fun r _ => .refl v⟩
  · refine ⟨.outside (by simp), fun r _ => ⟨.outside (by simp), fun r _ => ?_⟩⟩
    cases r with
    | error e => exact .refl v
    | ok u =>
      refine conforms_redis.mpr ⟨hname ▸ .rotate hm hcall, fun _ _ => ?_, fun e _ => .refl v⟩
      exact ⟨rfl, rfl, rfl, rfl, rfl, List.suffix_cons _ _⟩

theorem conforms_allocateFresh {owner : Option String} {name key : String} (hv : v.Idle) :
    (moves cp).Conforms (fun v' o => v.Extends v' ∧ ∀ m, o = .ok m → v'.claimed = some m ∧
      v'.known m.name = some m ∧ m.deviceTokenHash = none)
      (cp.allocateFresh owner name key) v := by
  unfold allocateFresh
  have hext : ∀ h : HostPhase, v.Extends { v with host := h } :=
    fun h => ⟨rfl, rfl, rfl, rfl, rfl, List.suffix_refl _⟩
  refine conforms_redis.mpr ⟨.seed, fun _ _ => ?_, fun e _ => ⟨.refl v, fun _ h => nomatch h⟩⟩
  refine conforms_redis.mpr ⟨.takeIndex rfl, fun i _ => ?_,
    fun e _ => ⟨hext _, fun _ h => nomatch h⟩⟩
  split_ifs with htwo
  · exact ⟨hext _, fun _ h => nomatch h⟩
  refine conforms_expect.mpr ⟨fun ips hips => ?_, fun _ => ⟨hext _, fun _ h => nomatch h⟩⟩
  refine conforms_redis.mpr ⟨?_, fun set _ => ?_, fun e _ => ⟨hext _, fun _ h => nomatch h⟩⟩
  · exact .claim (m := cp.freshMachine owner name key ips.1 ips.2) rfl (not_lt.mp htwo) hips
      rfl hv.unlisted
  cases set with
  | false =>
    refine conforms_redis.mpr ⟨.giveBack (i := i) rfl, fun _ _ => ⟨hext _, fun _ h => nomatch h⟩,
      fun e _ => ⟨hext _, fun _ h => nomatch h⟩⟩
  | true =>
    refine conforms_redis.mpr ⟨.enlist (n := name) rfl, fun _ _ => ?_, fun e _ =>
      ⟨⟨rfl, rfl, rfl, rfl, rfl, List.suffix_cons _ _⟩, fun _ h => nomatch h⟩⟩
    refine Protocol.Conforms.bind (conforms_wire ?_) (fun v' _ hv' => ?_)
      (fun v' e hv' => ?_) (fun v' m hv' => ?_)
    · exact hv.removed
    · obtain rfl := hv'.2 rfl
      refine ⟨⟨rfl, rfl, rfl, rfl, rfl, List.suffix_cons _ _⟩, fun m hm => ?_⟩
      cases hm
      exact ⟨rfl, View.known_cons rfl, rfl⟩
    all_goals
      refine ⟨View.Extends.trans ?_ hv'.1, fun _ h => nomatch h⟩
      exact ⟨rfl, rfl, rfl, rfl, rfl, List.suffix_cons _ _⟩

theorem conforms_edgePublicKey :
    (moves cp).Conforms (fun v' _ => v' = v) cp.edgePublicKey v := by
  unfold edgePublicKey
  split
  · exact rfl
  · split_ifs <;> exact rfl

theorem conforms_allocateMachine {owner : Option String} {name key : String} (hv : v.Idle)
    (hcall : v.call.begins = false) :
    (moves cp).Conforms (AfterAllocation v) (cp.allocateMachine owner name key) v := by
  unfold allocateMachine
  refine conforms_ofExcept.mpr ⟨fun _ _ => ?_, fun e _ => ⟨.refl v, fun _ h => nomatch h⟩⟩
  refine conforms_ofExcept.mpr ⟨fun _ _ => ?_, fun e _ => ⟨.refl v, fun _ h => nomatch h⟩⟩
  refine conforms_redis.mpr ⟨.readMachine, fun existing hresp => ?_,
    fun e _ => ⟨.refl v, fun _ h => nomatch h⟩⟩
  refine conforms_edgePublicKey.bind (fun v' k hv' => ?_) (fun v' e hv' => ?_)
    (fun v' m hv' => ?_)
  · subst hv'
    match existing with
    | none =>
      refine (conforms_allocateFresh hv).bind (fun v' m hv' => ?_)
        (fun v' e hv' => ⟨hv'.1, fun _ h => nomatch h⟩)
        (fun v' m hv' => ⟨hv'.1, fun _ h => nomatch h⟩)
      refine ⟨hv'.1, fun resp hr => ?_⟩
      cases hr
      exact hv'.2 m rfl
    | some (.corrupt text err) => exact ⟨.refl v, fun _ h => nomatch h⟩
    | some (.json m) =>
      have hext : v.Extends { v with seen := m :: v.seen } :=
        ⟨rfl, rfl, rfl, rfl, rfl, List.suffix_cons _ _⟩
      refine (conforms_ensureKey (v := { v with seen := m :: v.seen }) (View.known_cons rfl)
        hresp hcall).bind (fun v' m hv' => ?_) (fun v' e hv' => ⟨hext.trans hv', fun _ h => nomatch h⟩)
        (fun v' m hv' => ⟨hext.trans hv', fun _ h => nomatch h⟩)
      exact ⟨hext.trans hv', fun resp h => nomatch h⟩
  all_goals
    rw [hv']
    refine ⟨?_, fun _ h => nomatch h⟩
    match existing with
    | none => exact .refl v
    | some (.corrupt text err) => exact .refl v
    | some (.json m) => exact ⟨rfl, rfl, rfl, rfl, rfl, List.suffix_cons _ _⟩

/-- What holds after listing: records have been seen, and nothing else has happened. -/
def AfterList (v v' : View) (o : Outcome ControlPlaneError (List Machine)) : Prop :=
  v' = { v with seen := v'.seen } ∧ v.seen <:+ v'.seen ∧
    ∀ ms, o = .ok ms → ∀ m ∈ ms, m ∈ v'.seen

theorem conforms_listFrom {names : List String} :
    (moves cp).Conforms (AfterList v) (listFrom names) v := by
  induction names generalizing v with
  | nil => exact ⟨rfl, List.suffix_refl _, fun ms h m hm => by cases h; cases hm⟩
  | cons n names ih =>
    refine conforms_redis.mpr ⟨.readMachine, fun json _ => ?_,
      fun e _ => ⟨rfl, List.suffix_refl _, fun _ h => nomatch h⟩⟩
    match json with
    | none => exact ih
    | some (.corrupt text err) => exact ⟨rfl, List.suffix_refl _, fun _ h => nomatch h⟩
    | some (.json m) =>
      refine (ih (v := { v with seen := m :: v.seen })).bind (fun v' ms hv' => ?_)
        (fun v' _ hv' => ?_) (fun v' _ hv' => ?_)
      · obtain ⟨heq, hsuf, hmem⟩ := hv'
        refine ⟨heq, (List.suffix_cons _ _).trans hsuf, fun ms' h x hx => ?_⟩
        cases h
        rcases List.mem_cons.mp hx with rfl | hx
        · exact hsuf.subset List.mem_cons_self
        · exact hmem ms rfl x hx
      all_goals exact ⟨hv'.1, (List.suffix_cons _ _).trans hv'.2.1, fun _ h => nomatch h⟩

theorem conforms_list : (moves cp).Conforms (AfterList v) list v :=
  conforms_redis.mpr ⟨.readIndex, fun _ _ => conforms_listFrom,
    fun _ _ => ⟨rfl, List.suffix_refl _, fun _ h => nomatch h⟩⟩

theorem conforms_removeEntry {name : String} (h : v.removed = none) :
    (moves cp).Conforms (fun _ _ => True) (removeEntry name) v :=
  conforms_redis.mpr ⟨.drop h, fun hits _ =>
    conforms_redis.mpr ⟨@Move.unlist _ _ name (hits != 0) rfl, fun _ _ => trivial, fun _ _ => trivial⟩,
    fun _ _ => trivial⟩

theorem conforms_delete {name : String} (h : v.removed = none) :
    (moves cp).Conforms (fun _ _ => True) (cp.delete name) v := by
  refine conforms_redis.mpr ⟨.readMachine, fun json _ => ?_, fun _ _ => trivial⟩
  match json with
  | none => trivial
  | some (.corrupt text err) => exact conforms_removeEntry h
  | some (.json m) =>
    refine ⟨.outside (by simp), fun _ _ => ?_⟩
    refine (conforms_outside removeForwards_outside).bind (fun v' _ hv' => ?_)
      (fun _ _ _ => trivial) (fun _ _ _ => trivial)
    subst hv'
    refine (conforms_outside removeMachine_outside).bind (fun v' _ hv' => ?_)
      (fun _ _ _ => trivial) (fun _ _ _ => trivial)
    subst hv'
    exact conforms_removeEntry h

/-- Reading the invite keeps everything else. -/
theorem conforms_readInvite {code : String} (hcode : cp.codeOf v.call = some code)
    (hfresh : v.invite = none) :
    (moves cp).Conforms (fun v' o => ∀ r, o = .ok r → v' = { v with invite := some r })
      (readInvite code) v := by
  refine conforms_redis.mpr ⟨.readInvite hcode hfresh, fun json _ => ?_,
    fun e _ => fun _ h => nomatch h⟩
  match json with
  | none => exact fun _ h => nomatch h
  | some (.corrupt text err) => exact fun _ h => nomatch h
  | some (.json r) =>
    intro r' h
    cases h
    rfl

theorem conforms_readOwnInvite {email code : String} (hcode : cp.codeOf v.call = some code)
    (hfresh : v.invite = none) :
    (moves cp).Conforms (fun v' o => ∀ r, o = .ok r → v' = { v with invite := some r })
      (readOwnInvite email code) v := by
  refine (conforms_readInvite hcode hfresh).bind (fun v' r hv' => ?_)
    (fun _ _ _ => fun _ h => nomatch h) (fun _ _ _ => fun _ h => nomatch h)
  obtain rfl := hv' r rfl
  split_ifs
  · intro r' h
    cases h
    rfl
  · exact fun _ h => nomatch h

theorem conforms_accountUuid {email : String} :
    (moves cp).Conforms (fun v' _ => v' = v) (cp.accountUuid email) v := by
  refine conforms_redis.mpr ⟨.readAccount, fun json _ => ?_, fun e _ => rfl⟩
  match json with
  | none => rfl
  | some (.corrupt text err) => rfl
  | some (.json a) => rfl

theorem conforms_issueToken {code : String} {m : Machine} (hcode : cp.codeOf v.call = some code)
    (hsource : v.claimed = some m ∧ v.known m.name = some m ∧ m.deviceTokenHash = none ∨
      v.rearms ∧ m ∈ v.seen) (hminted : v.minted = none) :
    (moves cp).Conforms (fun v' o => o = .ok () → v'.call = v.call ∧ v'.invite = v.invite ∧
      v'.claimed = v.claimed) (cp.issueToken code m) v := by
  refine ⟨.outside (by simp), fun bytes _ => ?_⟩
  refine ⟨@Move.attach _ _ m (hexEncode bytes.1) hsource rfl hminted, fun r _ => ?_⟩
  cases r with
  | error e => exact fun h => nomatch h
  | ok u =>
    refine conforms_redis_last.mpr ⟨.deliver hcode rfl hminted rfl, fun _ _ _ => ⟨rfl, rfl, rfl⟩,
      fun e _ h => nomatch h⟩

theorem conforms_rearmDelivery {code : String} {r : InviteRecord}
    (hcode : cp.codeOf v.call = some code) (hrearms : v.rearms) (hminted : v.minted = none) :
    (moves cp).Conforms (fun _ _ => True) (cp.rearmDelivery code r) v := by
  refine conforms_expect.mpr ⟨fun pubkey _ => ?_, fun _ => trivial⟩
  refine conforms_list.mapErr_bind (fun v' ms hv' => ?_) (fun _ _ _ => trivial)
    (fun _ _ _ => trivial)
  obtain ⟨heq, -, hmem⟩ := hv'
  refine conforms_expect.mpr ⟨fun m hm => ?_, fun _ => trivial⟩
  have hcall : v'.call = v.call := by rw [heq]
  have hinvite : v'.invite = v.invite := by rw [heq]
  have hmint : v'.minted = v.minted := by rw [heq]
  refine (conforms_issueToken (hcall ▸ hcode) (Or.inr ⟨?_, ?_⟩) (hmint.trans hminted)).mono
    fun _ _ _ => trivial
  · unfold View.rearms
    rw [hcall, hinvite]
    exact hrearms
  · exact hmem ms rfl m (List.mem_of_find?_eq_some hm)

/-! ## The calls -/

theorem canonical_eq_ok {code c : String} (h : cp.canonical code = .ok c) :
    cp.canonicalInviteCode code = some c := by
  unfold canonical at h
  cases hc : cp.canonicalInviteCode code with
  | none => simp [hc] at h
  | some c' => simpa [hc] using h

theorem conforms_inviteRevoke {email code : String} :
    (moves cp).Conforms (fun v' o => o = .ok () → v'.revoked)
      (cp.inviteRevoke email code) (View.init (.inviteRevoke email code)) := by
  unfold inviteRevoke
  refine conforms_ofExcept.mpr ⟨fun c hc => ?_, fun _ _ h => nomatch h⟩
  have hcode : cp.codeOf (View.init (.inviteRevoke email code)).call = some c := canonical_eq_ok hc
  refine (conforms_readOwnInvite hcode rfl).bind (fun v' r hv' => ?_)
    (fun _ _ _ h => nomatch h) (fun _ _ _ h => nomatch h)
  obtain rfl := hv' r rfl
  cases hs : r.status with
  | dormant | waiting =>
    exact conforms_redis.mpr ⟨.revoke hcode rfl (by rw [hs]; rfl),
      fun _ _ _ => rfl, fun _ _ h => nomatch h⟩
  | approved | denied => exact fun h => nomatch h

theorem conforms_inviteBegin {code key : String} :
    (moves cp).Conforms (fun _ _ => True) (cp.inviteBegin code key)
      (View.init (.inviteBegin code key)) := by
  unfold inviteBegin
  refine conforms_ofExcept.mpr ⟨fun c hc => ?_, fun _ _ => trivial⟩
  split
  · trivial
  have hcode : cp.codeOf (View.init (.inviteBegin code key)).call = some c := canonical_eq_ok hc
  refine (conforms_readInvite hcode rfl).bind (fun v' r hv' => ?_)
    (fun _ _ _ => trivial) (fun _ _ _ => trivial)
  obtain rfl := hv' r rfl
  cases hs : r.status with
  | approved =>
    dsimp only
    split_ifs with hkey
    · have hrearms : View.rearms { View.init (.inviteBegin code key) with invite := some r } :=
        ⟨code, key, r, rfl, rfl, hs, hkey⟩
      exact Protocol.Conforms.bind (conforms_rearmDelivery hcode hrearms rfl)
        (fun _ _ _ => trivial) (fun _ _ _ => trivial) (fun _ _ _ => trivial)
    · trivial
  | denied => trivial
  | dormant | waiting =>
    exact conforms_redis.mpr ⟨.begun hcode rfl (by rw [hs]; rfl),
      fun _ _ => trivial, fun _ _ => trivial⟩

theorem conforms_invitePoll {code : String} :
    (moves cp).Conforms (fun v' o => ∀ out, o = .ok out →
        out.machine = v'.got.map (·.machine) ∧ out.deviceToken = v'.got.map (·.deviceToken))
      (cp.invitePoll code) (View.init (.invitePoll code)) := by
  unfold invitePoll
  refine conforms_ofExcept.mpr ⟨fun c hc => ?_, fun _ _ _ h => nomatch h⟩
  have hcode : cp.codeOf (View.init (.invitePoll code)).call = some c := canonical_eq_ok hc
  refine (conforms_readInvite hcode rfl).bind (fun v' r hv' => ?_)
    (fun _ _ _ _ h => nomatch h) (fun _ _ _ _ h => nomatch h)
  obtain rfl := hv' r rfl
  cases hs : r.status with
  | dormant | waiting | denied =>
    intro out h
    cases h
    exact ⟨rfl, rfl⟩
  | approved =>
    refine conforms_redis.mpr ⟨.collect hcode rfl hs rfl, fun payload _ => ?_,
      fun _ _ _ h => nomatch h⟩
    match payload with
    | none =>
      intro out h
      cases h
      exact ⟨rfl, rfl⟩
    | some (.corrupt text err) => exact fun _ h => nomatch h
    | some (.json d) =>
      intro out h
      cases h
      exact ⟨rfl, rfl⟩

theorem requireWaiting_eq_ok {code : String} {s : InviteStatus} {u : Unit}
    (h : requireWaiting code s = .ok u) : s = .waiting := by
  cases s <;> first | rfl | cases h

theorem conforms_inviteDeny {email code : String} :
    (moves cp).Conforms (fun v' o => o = .ok () → v'.recorded = some .denied)
      (cp.inviteDeny email code) (View.init (.inviteDeny email code)) := by
  unfold inviteDeny
  refine conforms_ofExcept.mpr ⟨fun c hc => ?_, fun _ _ h => nomatch h⟩
  have hcode : cp.codeOf (View.init (.inviteDeny email code)).call = some c := canonical_eq_ok hc
  refine (conforms_readOwnInvite hcode rfl).bind (fun v' r hv' => ?_)
    (fun _ _ _ h => nomatch h) (fun _ _ _ h => nomatch h)
  obtain rfl := hv' r rfl
  refine conforms_ofExcept.mpr ⟨fun _ hw => ?_, fun _ _ h => nomatch h⟩
  exact conforms_redis_last.mpr ⟨.decide hcode rfl (requireWaiting_eq_ok hw)
    (Or.inl rfl), fun _ _ _ => rfl, fun _ _ h => nomatch h⟩

theorem conforms_inviteApprove {email code name : String} :
    (moves cp).Conforms (fun v' o => ∀ m, o = .ok m → v'.recorded = some .approved)
      (cp.inviteApprove email code name) (View.init (.inviteApprove email code name)) := by
  unfold inviteApprove
  refine conforms_ofExcept.mpr ⟨fun c hc => ?_, fun _ _ _ h => nomatch h⟩
  have hcode : cp.codeOf (View.init (.inviteApprove email code name)).call = some c :=
    canonical_eq_ok hc
  refine (conforms_readOwnInvite hcode rfl).bind (fun v' r hv' => ?_)
    (fun _ _ _ _ h => nomatch h) (fun _ _ _ _ h => nomatch h)
  obtain rfl := hv' r rfl
  refine conforms_ofExcept.mpr ⟨fun _ hw => ?_, fun _ _ _ h => nomatch h⟩
  cases hkey : r.devicePubkey with
  | none => exact fun _ h => nomatch h
  | some key =>
    refine conforms_accountUuid.mapErr_bind (fun v' uuid hv' => ?_)
      (fun _ _ _ _ h => nomatch h) (fun _ _ _ _ h => nomatch h)
    subst hv'
    refine conforms_expect.mpr ⟨fun uuid _ => ?_, fun _ _ h => nomatch h⟩
    refine (conforms_allocateMachine ⟨rfl, rfl⟩ rfl).mapErr_bind (fun v' outcome hv' => ?_)
      (fun _ _ _ _ h => nomatch h) (fun _ _ _ _ h => nomatch h)
    obtain ⟨hext, hcreated⟩ := hv'
    cases outcome with
    | existing resp => exact fun _ h => nomatch h
    | created resp =>
      obtain ⟨hclaimed, hknown, hhash⟩ := hcreated resp rfl
      have hcode' : cp.codeOf v'.call = some c := by rw [hext.call]; exact hcode
      refine (conforms_issueToken hcode' (Or.inl ⟨hclaimed, hknown, hhash⟩)
        hext.minted).bind (fun v'' _ hv'' => ?_) (fun _ _ _ _ h => nomatch h)
        (fun _ _ _ _ h => nomatch h)
      obtain ⟨hcall, hinvite, hclaim⟩ := hv'' rfl
      rw [← hkey]
      refine conforms_redis.mpr ⟨.decide (r := r) ?_ ?_ (requireWaiting_eq_ok hw)
        (Or.inr ⟨rfl, ?_⟩), fun _ _ m _ => rfl, fun _ _ _ h => nomatch h⟩
      · rw [hcall]
        exact hcode'
      · rw [hinvite, hext.invite]
      · rw [hclaim, hclaimed]
        rfl

theorem conforms_deviceRegister {token key : String} :
    (moves cp).Conforms (fun _ _ => True) (cp.deviceRegister token key)
      (View.init (.deviceRegister token key)) := by
  unfold deviceRegister
  split_ifs
  · trivial
  refine conforms_ofExcept.mpr ⟨fun _ _ => ?_, fun _ _ => trivial⟩
  refine conforms_list.bind (fun v' ms hv' => ?_) (fun _ _ _ => trivial) (fun _ _ _ => trivial)
  split
  · trivial
  refine (conforms_allocateMachine ?_ ?_).bind (fun v'' outcome _ => ?_) (fun _ _ _ => trivial)
    (fun _ _ _ => trivial)
  · rw [hv'.1]
    exact ⟨rfl, rfl⟩
  · rw [hv'.1]
    rfl
  · cases outcome <;> trivial

/-- The operations on machines and on invites that exist. -/
def Call.enrolls : Call → Bool
  | .allocate _ _ _ | .delete _ | .inviteRevoke _ _ | .inviteBegin _ _ | .invitePoll _
  | .inviteApprove _ _ _ | .inviteDeny _ _ | .deviceRegister _ _ => true
  | _ => false

/-- **The programs make these moves only**, and what a call returns tells what it did. -/
theorem body_conforms {call : Call} (h : call.enrolls) :
    (moves cp).Conforms (fun v o => v.call = call → Settled v o) (cp.body call)
      (View.init call) := by
  cases call with
  | allocate owner name key =>
    refine (conforms_allocateMachine ⟨rfl, rfl⟩ rfl).bimap fun v o _ hcall => ?_
    simp only [Settled, hcall]
  | delete name =>
    refine (conforms_delete rfl).bimap fun v o _ hcall => ?_
    simp only [Settled, hcall]
  | inviteRevoke email code =>
    refine conforms_inviteRevoke.bimap fun v o hv hcall => ?_
    cases o with
    | ok u =>
      simp only [Settled, hcall]
      exact hv rfl
    | _ => simp only [Settled, hcall, Outcome.bimap]
  | inviteBegin code key =>
    refine conforms_inviteBegin.bimap fun v o _ hcall => ?_
    simp only [Settled, hcall]
  | invitePoll code =>
    refine conforms_invitePoll.bimap fun v o hv hcall => ?_
    cases o with
    | ok out =>
      simp only [Settled, hcall]
      exact hv out rfl
    | _ => simp only [Settled, hcall, Outcome.bimap]
  | inviteApprove email code name =>
    refine conforms_inviteApprove.bimap fun v o hv hcall => ?_
    cases o with
    | ok m =>
      simp only [Settled, hcall]
      exact hv m rfl
    | _ => simp only [Settled, hcall, Outcome.bimap]
  | inviteDeny email code =>
    refine conforms_inviteDeny.bimap fun v o hv hcall => ?_
    cases o with
    | ok u =>
      simp only [Settled, hcall]
      exact hv rfl
    | _ => simp only [Settled, hcall, Outcome.bimap]
  | deviceRegister token key =>
    refine Protocol.Conforms.bimap conforms_deviceRegister fun v o _ hcall => ?_
    simp only [Settled, hcall]
  | _ => cases h

end ControlPlane
end Cococoir
