import Cococoir.ControlPlane.Moves
import Cococoir.ControlPlane.Writes

/-!
# What the operations do to invites and payloads

Approving an invite, dialling it and polling it: the three operations that approve an invite or
touch its payload.  `RouteView` is what such a call has done for the invite's machine, and
`RouteMove` says which commands it may issue next; `harmless_body` checks that no other operation
issues anything of the kind, and `body_routeMoves` that all of them make these moves only.

That a re-arm takes the first machine of the list with the enrolled key is `conforms_routeList`.

## What is followed

The delivery of a payload joins three records: the invite, the machine, the payload.  An approval
reads the first, makes the second and stores the third; a begin reads the first, looks for the
machine with its key in the list, and stores the third; a poll takes it.  `RouteView` keeps, for
these calls only, which machine the call is about and by what right: it claimed it, or it is the
first on the list with the enrolled key.

The other operations are many, and all of them are harmless: `harmless_body` goes through them by
their writes.  So the protocol has few moves, and in the proofs about approvals most commands are
`Aside`, neither about the invite nor about its machine, and are passed by one lemma.
-/

namespace Cococoir
namespace ControlPlane

open Concurrency

/-! ## Views -/

/-- What an allocation fixes of a machine: all but the key and the token's hash. -/
def Machine.identity (m : Machine) : Machine :=
  { m with wgPublicKey := "", deviceTokenHash := none }

/-- The calls that approve, dial and poll. -/
def Call.delivers : Call → Bool
  | .inviteApprove _ _ _ | .inviteBegin _ _ | .invitePoll _ => true
  | _ => false

/-- What a call has done for its invite's machine. -/
structure RouteView where
  call : Call
  /-- The invite record it read. -/
  invite : Option InviteRecord
  /-- The first machine record that a begin read with the enrolled key. -/
  found : Option Machine
  /-- The machine an approval allocated. -/
  claimed : Option Machine
  /-- The payload it stored. -/
  armed : Option EnrollmentDelivery
  /-- The payload it collected. -/
  got : Option EnrollmentDelivery
  /-- It recorded the approval. -/
  recorded : Bool

def RouteView.init (call : Call) : RouteView := ⟨call, none, none, none, none, none, false⟩

/-- Whether this record is the first with the enrolled key that a begin reads. -/
def RouteView.finds (v : RouteView) (m : Machine) : Bool :=
  v.call.begins && v.found.isNone && decide (v.invite.bind (·.devicePubkey) = some m.wgPublicKey)

def RouteView.after (v : RouteView) : (c : Cmd) → c.Resp → RouteView
  | .redis (.invite _ .get), .ok (some (.json r)) => { v with invite := some r }
  | .redis (.machine _ .get), .ok (some (.json m)) =>
    if v.finds m then { v with found := some m } else v
  | .redis (.machine _ (.setNx (.json m))), .ok true => { v with claimed := some m }
  | .redis (.machine _ .del), .ok _ => { v with claimed := none }
  | .redis (.delivery _ (.setEx (.json d) _)), .ok _ => { v with armed := some d }
  | .redis (.delivery _ .getDel), .ok (some (.json d)) => { v with got := some d }
  | .redis (.invite _ (.setEx (.json r) _)), .ok _ =>
    if r.status = .approved then { v with recorded := true } else v
  | _, _ => v

/-- Only the calls that deliver are followed. -/
def RouteView.next (v : RouteView) (c : Cmd) (r : c.Resp) : RouteView :=
  if v.call.delivers then v.after c r else v

/-- A write that does not approve an invite. -/
def LeavesUnapproved : Redis.KeyOp (Stored InviteRecord) → Prop
  | .del => True
  | .setEx (.json r) _ => r.status ≠ .approved
  | .setNxEx (.json r) _ => r.status ≠ .approved
  | _ => False

/-- A command that neither approves an invite nor touches a payload. -/
def Harmless (c : Cmd) : Prop :=
  c.writes ≠ some .invite ∧ c.writes ≠ some .delivery ∨
    ∃ code op, c = .redis (.invite code op) ∧ LeavesUnapproved op

variable (cp : ControlPlane)

/-- The commands a call may issue next. -/
inductive RouteMove : RouteView → Cmd → Prop
  /-- Whatever leaves the view and does not approve; a re-arm's record is written elsewhere. -/
  | harmless {v c} (h : Harmless c) (hnext : ∀ r, v.next c r = v)
      (hset : v.call.begins → ∀ n x, c ≠ .redis (.machine n (.set x))) : RouteMove v c
  | readInvite {v code} (hrecorded : v.recorded = false) (hcode : cp.codeOf v.call = some code) :
      RouteMove v (.redis (.invite code .get))
  | readMachine {v n} (hrecorded : v.recorded = false) : RouteMove v (.redis (.machine n .get))
  | claim {v m} (hrecorded : v.recorded = false) :
      RouteMove v (.redis (.machine m.name (.setNx (.json m))))
  | unclaim {v n} (hrecorded : v.recorded = false) : RouteMove v (.redis (.machine n .del))
  /-- A re-arm writes the record it found back, with a new hash. -/
  | attach {v} {m : Machine} {hash : String} (hfound : v.found = some m) :
      RouteMove v (.redis (.machine m.name (.set (.json { m with deviceTokenHash := some hash }))))
  /-- An approval stores the payload of the machine it allocated. -/
  | deliver {v code ttl} {m : Machine} {d : EnrollmentDelivery}
      (hcode : cp.codeOf v.call = some code) (hcall : v.call.begins = false)
      (hclaimed : v.claimed = some m) (hroute : m.identity = d.machine.identity)
      (hrecorded : v.recorded = false) : RouteMove v (.redis (.delivery code (.setEx (.json d) ttl)))
  /-- A re-arm stores the payload of the machine it found. -/
  | deliverAgain {v code ttl} {m : Machine} {d : EnrollmentDelivery}
      (hcode : cp.codeOf v.call = some code) (hcall : v.call.begins = true)
      (hfound : v.found = some m) (hroute : m.identity = d.machine.identity)
      (hrecorded : v.recorded = false) : RouteMove v (.redis (.delivery code (.setEx (.json d) ttl)))
  | collect {v code r} (hcode : cp.codeOf v.call = some code) (hread : v.invite = some r)
      (happroved : r.status = .approved) (hrecorded : v.recorded = false) :
      RouteMove v (.redis (.delivery code .getDel))
  | approve {v code ttl r} {m : Machine} {d : EnrollmentDelivery}
      (hcode : cp.codeOf v.call = some code) (hclaimed : v.claimed = some m)
      (harmed : v.armed = some d) (hroute : m.identity = d.machine.identity)
      (hstatus : r.status = .approved) (hdelivers : v.call.delivers = true) :
      RouteMove v (.redis (.invite code (.setEx (.json r) ttl)))

/-- What a poll returns is what it collected. -/
def RouteView.Returns (v : RouteView) (o : Outcome EdgeError Reply) : Prop :=
  match v.call, o with
  | .invitePoll _, .ok (.poll out) => out.machine = v.got.map (·.machine)
  | _, _ => True

/-- The operations as a protocol about the machine that an invite delivers. -/
def routeMoves : Protocol Call Cmd Cmd.Resp RouteView where
  init := .init
  next := .next
  ok := RouteMove cp
  resp _ _ := True

variable {cp} {v : RouteView} {ε α β : Type}

/-! ## The operations that deliver nothing -/

theorem harmless_of_writes {fs : List Family} (hfs : Family.invite ∉ fs ∧ Family.delivery ∉ fs)
    (c : Cmd) (hc : WritesOnly fs c) : Harmless c :=
  Or.inl ⟨fun h => hfs.1 (hc _ h), fun h => hfs.2 (hc _ h)⟩

theorem harmless_none {c : Cmd} (h : c.writes = none) : Harmless c := by
  refine Or.inl ⟨?_, ?_⟩ <;> rw [h] <;> simp

theorem harmless_revoke {code : String} : Harmless (.redis (.invite code .del)) :=
  Or.inr ⟨code, .del, rfl, trivial⟩

theorem harmless_setEx {code : String} {r : InviteRecord} {ttl : ℕ} (h : r.status ≠ .approved) :
    Harmless (.redis (.invite code (.setEx (.json r) ttl))) := Or.inr ⟨code, _, rfl, h⟩

theorem harmless_setNxEx {code : String} {r : InviteRecord} {ttl : ℕ} (h : r.status ≠ .approved) :
    Harmless (.redis (.invite code (.setNxEx (.json r) ttl))) := Or.inr ⟨code, _, rfl, h⟩

theorem harmless_redis [FromRedis ε] {op : RedisOp} (h : Harmless (.redis op)) :
    (redis op : Edge ε op.Resp).All Harmless :=
  ⟨h, fun r => by cases r <;> trivial⟩

theorem harmless_readOwnInvite {email code : String} :
    (readOwnInvite email code).All Harmless := by
  have hread : (readInvite code).All Harmless := by
    refine (harmless_redis (harmless_none rfl)).bind fun json => ?_
    cases json with
    | none => trivial
    | some json => exact Prog.all_ofExcept _
  refine hread.bind fun r => ?_
  split_ifs <;> trivial

theorem harmless_inviteRevoke {email code : String} :
    (cp.inviteRevoke email code).All Harmless := by
  refine (Prog.all_ofExcept _).bind fun c => harmless_readOwnInvite.bind fun r => ?_
  split
  · exact (harmless_redis harmless_revoke).bind fun _ => trivial
  · exact (harmless_redis harmless_revoke).bind fun _ => trivial
  · trivial
  · trivial

theorem harmless_inviteDeny {email code : String} : (cp.inviteDeny email code).All Harmless := by
  refine (Prog.all_ofExcept _).bind fun c => harmless_readOwnInvite.bind fun r => ?_
  refine (Prog.all_ofExcept _).bind fun _ => ?_
  exact harmless_redis (harmless_setEx (by simp))

theorem harmless_inviteCreateFrom {email : String} {retries : ℕ} :
    (cp.inviteCreateFrom email retries).All Harmless := by
  induction retries with
  | zero => trivial
  | succ retries ih =>
    refine Prog.All.bind ?_ fun code => ?_
    · exact (writes_randomWords.mono (harmless_of_writes (by simp))).bind fun _ => trivial
    refine (harmless_redis (harmless_setNxEx (by simp))).bind fun set => ?_
    split_ifs
    · trivial
    · exact ih

theorem harmless_accountDelete {email : String} {pages : ℕ} :
    (cp.accountDelete email pages).All Harmless := by
  have hnone : ∀ {γ : Type} {p : Edge AccountError γ}, p.All (WritesOnly []) → p.All Harmless :=
    fun h => h.mono (harmless_of_writes (by simp))
  refine (hnone writes_readAccount).bind fun account => ?_
  cases account with
  | none => trivial
  | some account =>
    refine (hnone writes_machinesOf.attempt).bind fun ms => ?_
    refine (writes_deleteMachines.mono (harmless_of_writes (by simp))).bind fun _ => ?_
    refine (hnone writes_invitesOf.attempt).bind fun invites => ?_
    refine Prog.All.bind ?_ fun _ => ?_
    · induction invites.toOption.getD [] with
      | nil => trivial
      | cons x invites ih =>
        exact (harmless_redis harmless_revoke).bind fun _ => ih
    · refine (writes_sessionsScan.mono (harmless_of_writes (by simp))).bind fun _ => ?_
      exact (harmless_redis (Or.inl ⟨by simp [Cmd.writes, RedisOp.writes, reads],
        by simp [Cmd.writes, RedisOp.writes, reads]⟩)).bind fun _ => trivial

/-- **Only approvals, dials and polls approve an invite or touch a payload.** -/
theorem harmless_body {call : Call} (h : call.delivers = false) :
    (cp.body call).All Harmless := by
  cases call with
  | inviteCreate email => exact harmless_inviteCreateFrom.bimap
  | inviteRevoke email code => exact harmless_inviteRevoke.bimap
  | inviteDeny email code => exact harmless_inviteDeny.bimap
  | accountDelete email pages => exact harmless_accountDelete.bimap
  | inviteBegin code key => cases h
  | invitePoll code => cases h
  | inviteApprove email code name => cases h
  -- the others write neither
  | _ => exact (writes_body _).mono (harmless_of_writes (by simp [Call.writes]))

/-- A harmless program of a call that is not followed keeps its view. -/
theorem conforms_harmless {p : Edge ε α} (hp : p.All Harmless) (hcall : v.call.delivers = false) :
    (routeMoves cp).Conforms (fun v' _ => v' = v) p v := by
  have hnext : ∀ c r, v.next c r = v := fun c r => by simp [RouteView.next, hcall]
  refine Protocol.Conforms.of_all (hp.mono fun c hc => ⟨.harmless hc (hnext c) fun hb => ?_, hnext c⟩)
  cases hv : v.call with
  | inviteBegin code key =>
    rw [hv] at hcall
    cases hcall
  | _ =>
    rw [hv] at hb
    cases hb

/-! ## The operations that deliver -/

theorem RouteView.next_eq_after (h : v.call.delivers = true) (c : Cmd) (r : c.Resp) :
    v.next c r = v.after c r := if_pos h

theorem RouteView.next_eq_self {c : Cmd} {r : c.Resp} (h : v.after c r = v) : v.next c r = v := by
  unfold next
  split_ifs
  · exact h
  · rfl

theorem RouteView.next_call (v : RouteView) (c : Cmd) (r : c.Resp) :
    (v.next c r).call = v.call := by
  unfold next after
  split_ifs
  · split <;> first | rfl | (split_ifs <;> rfl)
  · rfl

theorem RouteView.after_error (v : RouteView) (op : RedisOp) (e : RedisError) :
    v.after (.redis op) (.error e) = v := by
  cases op with
  | machine n op =>
    cases op with
    | setNx x => cases x <;> rfl
    | _ => rfl
  | invite code op =>
    cases op with
    | setEx x ttl => cases x <;> rfl
    | _ => rfl
  | delivery code op =>
    cases op with
    | setEx x ttl => cases x <;> rfl
    | _ => rfl
  | _ => rfl

theorem RouteView.next_error (v : RouteView) (op : RedisOp) (e : RedisError) :
    v.next (.redis op) (.error e) = v := next_eq_self (v.after_error op e)

/-- A command that is neither about the invite nor about its machine. -/
def Aside (c : Cmd) : Prop :=
  Harmless c ∧ (∀ (v : RouteView) r, v.after c r = v) ∧ ∀ n x, c ≠ .redis (.machine n (.set x))

theorem Aside.move {c : Cmd} (h : Aside c) : RouteMove cp v c :=
  .harmless h.1 (fun r => RouteView.next_eq_self (h.2.1 v r)) fun _ => h.2.2

theorem conforms_aside {p : Edge ε α} (hp : p.All Aside) :
    (routeMoves cp).Conforms (fun v' _ => v' = v) p v :=
  Protocol.Conforms.of_all
    (hp.mono fun _ hc => ⟨hc.move, fun r => RouteView.next_eq_self (hc.2.1 v r)⟩)

/-- A command aside, and the rest of the program. -/
theorem conforms_aside_issue {c : Cmd} {f : c.Resp → Edge ε α}
    {fin : RouteView → Outcome ε α → Prop} (hc : Aside c)
    (hf : ∀ r, (routeMoves cp).Conforms fin (f r) v) :
    (routeMoves cp).Conforms fin (Prog.issue c >>= f) v := by
  refine Protocol.conforms_issue.mpr ⟨hc.move, fun r _ => ?_⟩
  exact (congrArg _ (RouteView.next_eq_self (hc.2.1 v r))).mpr (hf r)

theorem conforms_aside_redis [FromRedis ε] {op : RedisOp} {f : op.Resp → Edge ε α}
    {fin : RouteView → Outcome ε α → Prop} (hc : Aside (.redis op))
    (hf : ∀ a, (routeMoves cp).Conforms fin (f a) v)
    (herr : ∀ e, fin v (.err (FromRedis.ofRedis e))) :
    (routeMoves cp).Conforms fin (redis op >>= f) v := by
  refine conforms_redis.mpr ⟨hc.move, fun a _ => ?_, fun e _ => ?_⟩
  · exact (congrArg _ (RouteView.next_eq_self (hc.2.1 v (.ok a)))).mpr (hf a)
  · exact (congrArg (fun v => fin v _) (RouteView.next_eq_self (hc.2.1 v (.error e)))).mpr (herr e)

theorem aside_outside {c : Cmd} (h : ∀ op, c ≠ .redis op) : Aside c := by
  cases c with
  | redis op => exact absurd rfl (h op)
  | _ => exact ⟨harmless_none rfl, fun _ _ => rfl, fun _ _ h => by cases h⟩

theorem aside_index {op : Redis.ListOp String} : Aside (.redis (.index op)) := by
  refine ⟨Or.inl ?_, fun _ _ => rfl, fun _ _ h => by cases h⟩
  cases op <;> exact ⟨by simp [Cmd.writes, RedisOp.writes], by simp [Cmd.writes, RedisOp.writes]⟩

theorem aside_alloc {op : Redis.CounterOp} : Aside (.redis (.alloc op)) :=
  ⟨Or.inl ⟨by simp [Cmd.writes, RedisOp.writes], by simp [Cmd.writes, RedisOp.writes]⟩,
    fun _ _ => rfl, fun _ _ h => by cases h⟩

theorem aside_accountGet {email : String} : Aside (.redis (.account email .get)) :=
  ⟨harmless_none rfl, fun _ _ => rfl, fun _ _ h => by cases h⟩

theorem aside_removeForwards {m : Machine} {ports : List (ℕ × ℕ)} :
    (removeForwards m ports : Edge ε Unit).All Aside := by
  induction ports with
  | nil => trivial
  | cons p ports ih => exact ⟨aside_outside (by simp), fun _ => ih⟩

theorem aside_edgePublicKey : (cp.edgePublicKey).All Aside := by
  unfold edgePublicKey
  split
  · trivial
  · split_ifs <;> trivial

theorem aside_accountUuid {email : String} : (cp.accountUuid email).All Aside := by
  refine ⟨aside_accountGet, fun r => ?_⟩
  cases r with
  | error e => trivial
  | ok json =>
    cases json with
    | none => trivial
    | some json => exact (Prog.all_ofExcept _).bind fun _ => trivial

/-! ### Approval -/

/-- An approval that has not recorded its decision. -/
structure RouteView.Approving (v : RouteView) : Prop where
  delivers : v.call.delivers = true
  begins : v.call.begins = false
  recorded : v.recorded = false

/-- Only the allocated machine has changed. -/
def RouteView.Claims (v v' : RouteView) : Prop := v' = { v with claimed := v'.claimed }

theorem RouteView.Claims.refl (v : RouteView) : v.Claims v := rfl

theorem RouteView.Claims.trans {u v w : RouteView} (h : u.Claims v) (h' : v.Claims w) :
    u.Claims w := by
  unfold Claims at h h' ⊢
  rw [h', h]

theorem RouteView.Claims.approving {v v' : RouteView} (h : v.Claims v') (hv : v.Approving) :
    v'.Approving := by
  rw [h]
  exact ⟨hv.delivers, hv.begins, hv.recorded⟩

theorem RouteView.Approving.next_get (h : v.Approving) {n : String}
    {r : Except RedisError (Option (Stored Machine))} :
    v.next (.redis (.machine n .get)) r = v := by
  refine RouteView.next_eq_self ?_
  rcases r with _ | _ | x | _
  · rfl
  · rfl
  · show (if v.finds x then _ else v) = v
    rw [if_neg]
    simp [RouteView.finds, h.begins]
  · rfl

/-- Writing a machine record is nothing to an approval. -/
theorem RouteView.Approving.move_set (h : v.Approving) {n : String} {x : Stored Machine} :
    RouteMove cp v (.redis (.machine n (.set x))) := by
  have hfs : Family.invite ∉ [Family.machine] ∧ Family.delivery ∉ [Family.machine] := by simp
  refine .harmless (harmless_of_writes hfs _ (writesOnly_of_some rfl (by simp)))
    (fun r => RouteView.next_eq_self ?_) fun hb => ?_
  · rcases r with _ | _ <;> rfl
  · rw [h.begins] at hb
    cases hb

theorem conforms_routeRollback {name : String} {m : Machine} (h : v.Approving) :
    (routeMoves cp).Conforms (fun v' _ => v.Claims v')
      (rollbackAllocation name m : Edge ε Unit) v := by
  refine Protocol.conforms_issue.mpr ⟨.unclaim h.recorded, fun r _ => ?_⟩
  cases r with
  | error e => exact (congrArg v.Claims (v.next_error _ e)).mpr (.refl v)
  | ok hits =>
    have hnext : v.Claims (v.next (.redis (.machine name .del)) (.ok hits)) := by
      rw [v.next_eq_after h.delivers]
      rfl
    refine conforms_aside_issue aside_index fun r => ?_
    cases r with
    | error e => exact hnext
    | ok k =>
      refine conforms_aside_issue (aside_outside (by simp)) fun _ => ?_
      refine (conforms_aside aside_removeForwards).mono fun v' _ hv' => ?_
      rw [hv']
      exact hnext

theorem conforms_routeForwards {name : String} {m : Machine} {ports : List (ℕ × ℕ)}
    (h : v.Approving) :
    (routeMoves cp).Conforms (fun v' o => v.Claims v' ∧ (o = .ok () → v' = v))
      (addForwards name m ports) v := by
  induction ports with
  | nil => exact ⟨.refl v, fun _ => rfl⟩
  | cons p ports ih =>
    refine conforms_aside_issue (aside_outside (by simp)) fun r => ?_
    cases r with
    | ok u => exact ih
    | error e =>
      refine Protocol.Conforms.bind (conforms_routeRollback h) (fun v' _ hv' => ?_)
        (fun v' e hv' => ?_) (fun v' msg hv' => ?_)
      · exact ⟨hv', fun he => (by cases he)⟩
      · exact ⟨hv', fun he => (by cases he)⟩
      · exact ⟨hv', fun he => (by cases he)⟩

theorem conforms_routeWire {m : Machine} (h : v.Approving) :
    (routeMoves cp).Conforms (fun v' o => v.Claims v' ∧ (o = .ok () → v' = v)) (cp.wire m) v := by
  refine conforms_aside_issue (aside_outside (by simp)) fun r => ?_
  cases r with
  | error e =>
    refine Protocol.Conforms.bind (conforms_routeRollback h) (fun v' _ hv' => ?_)
      (fun v' e hv' => ?_) (fun v' msg hv' => ?_)
    · exact ⟨hv', fun he => (by cases he)⟩
    · exact ⟨hv', fun he => (by cases he)⟩
    · exact ⟨hv', fun he => (by cases he)⟩
  | ok u =>
    refine (conforms_routeForwards h).bind (fun v' _ hv' => ?_) (fun v' e hv' => hv')
      (fun v' msg hv' => hv')
    obtain rfl := hv'.2 rfl
    refine conforms_aside_issue (aside_outside (by simp)) fun _ => ?_
    exact conforms_aside_issue (aside_outside (by simp)) fun _ => ⟨.refl _, fun _ => rfl⟩

/-- What an allocation leaves: a machine it created is the one claimed. -/
def RouteView.Allocated (v v' : RouteView) (o : Outcome ControlPlaneError SignupOutcome) : Prop :=
  v.Claims v' ∧ ∀ resp, o = .ok (.created resp) → v'.claimed = some resp.machine

theorem conforms_routeFresh {owner : Option String} {name key : String} (h : v.Approving) :
    (routeMoves cp).Conforms (fun v' o => v.Claims v' ∧ ∀ m, o = .ok m → v'.claimed = some m)
      (cp.allocateFresh owner name key) v := by
  have hfail : ∀ {e : ControlPlaneError}, v.Claims v ∧ ∀ m,
      (Outcome.err e : Outcome ControlPlaneError Machine) = .ok m → v.claimed = some m :=
    ⟨.refl v, fun _ he => (by cases he)⟩
  unfold allocateFresh
  refine conforms_aside_redis aside_alloc (fun _ => ?_) fun _ => hfail
  refine conforms_aside_redis aside_alloc (fun i => ?_) fun _ => hfail
  split_ifs
  · exact hfail
  refine conforms_expect.mpr ⟨fun ips _ => ?_, fun _ => ⟨.refl v, fun _ he => (by cases he)⟩⟩
  refine conforms_redis.mpr ⟨.claim (m := cp.freshMachine owner name key ips.1 ips.2) h.recorded,
    fun set _ => ?_, fun e _ => ?_⟩
  · cases set with
    | false =>
      have hnext : ((routeMoves cp).next v (.redis (.machine name
          (.setNx (.json (cp.freshMachine owner name key ips.1 ips.2))))) (.ok false)) = v :=
        RouteView.next_eq_self rfl
      show (routeMoves cp).Conforms _ _ _
      rw [hnext]
      exact conforms_aside_redis aside_alloc (fun _ => hfail) fun _ => hfail
    | true =>
      have hnext : ((routeMoves cp).next v (.redis (.machine name
          (.setNx (.json (cp.freshMachine owner name key ips.1 ips.2))))) (.ok true)) =
          { v with claimed := some (cp.freshMachine owner name key ips.1 ips.2) } :=
        v.next_eq_after h.delivers _ _
      show (routeMoves cp).Conforms _ _ _
      rw [hnext]
      have hclaims : v.Claims { v with
          claimed := some (cp.freshMachine owner name key ips.1 ips.2) } := rfl
      refine conforms_aside_redis aside_index (fun _ => ?_)
        fun _ => ⟨hclaims, fun _ he => (by cases he)⟩
      refine (conforms_routeWire (hclaims.approving h)).bind (fun v' _ hv' => ?_)
        (fun v' e hv' => ⟨hclaims.trans hv'.1, fun _ he => (by cases he)⟩)
        (fun v' msg hv' => ⟨hclaims.trans hv'.1, fun _ he => (by cases he)⟩)
      obtain rfl := hv'.2 rfl
      refine ⟨hclaims, fun m he => ?_⟩
      cases he
      rfl
  · exact (congrArg (fun v' => v.Claims v' ∧ ∀ m, (Outcome.err _ : Outcome _ Machine) = .ok m →
      v'.claimed = some m) (v.next_error _ e)).mpr hfail

theorem conforms_routeEnsure {name key : String} {m : Machine} (h : v.Approving) :
    (routeMoves cp).Conforms (fun v' _ => v' = v) (ensureKey name key m) v := by
  unfold ensureKey
  split_ifs
  · exact conforms_aside_issue (aside_outside (by simp)) fun _ => rfl
  · refine conforms_aside_issue (aside_outside (by simp)) fun _ => ?_
    refine conforms_aside_issue (aside_outside (by simp)) fun r => ?_
    cases r with
    | error e => rfl
    | ok u =>
      refine conforms_redis.mpr ⟨h.move_set, fun _ _ => ?_, fun _ _ => ?_⟩
      · exact RouteView.next_eq_self rfl
      · exact RouteView.next_eq_self rfl

theorem conforms_routeAllocate {owner : Option String} {name key : String} (h : v.Approving) :
    (routeMoves cp).Conforms v.Allocated (cp.allocateMachine owner name key) v := by
  have hfail : ∀ {o : Outcome ControlPlaneError SignupOutcome},
      (∀ resp, o ≠ .ok (.created resp)) → v.Allocated v o :=
    fun ho => ⟨.refl v, fun resp he => absurd he (ho resp)⟩
  refine conforms_ofExcept.mpr ⟨fun _ _ => ?_, fun _ _ => hfail (by simp)⟩
  refine conforms_ofExcept.mpr ⟨fun _ _ => ?_, fun _ _ => hfail (by simp)⟩
  refine conforms_redis.mpr ⟨.readMachine h.recorded, fun existing _ => ?_, fun e _ => ?_⟩
  · show (routeMoves cp).Conforms _ _ (v.next _ _)
    rw [h.next_get]
    refine (conforms_aside aside_edgePublicKey).bind (fun v' edge hv' => ?_)
      (fun v' e hv' => ?_) (fun v' msg hv' => ?_)
    · subst hv'
      cases existing with
      | none =>
        refine (conforms_routeFresh h).bind (fun v'' m hv'' => ?_) (fun v'' e hv'' => ?_)
          (fun v'' msg hv'' => ?_)
        · refine ⟨hv''.1, fun resp he => ?_⟩
          cases he
          exact hv''.2 m rfl
        · exact ⟨hv''.1, fun _ he => (by cases he)⟩
        · exact ⟨hv''.1, fun _ he => (by cases he)⟩
      | some json =>
        refine conforms_ofExcept.mpr ⟨fun m _ => ?_, fun _ _ => hfail (by simp)⟩
        refine (conforms_routeEnsure h).bind (fun v'' m hv'' => ?_) (fun v'' e hv'' => ?_)
          (fun v'' msg hv'' => ?_)
        · subst hv''
          exact hfail (by simp)
        · subst hv''
          exact hfail (by simp)
        · subst hv''
          exact hfail (by simp)
    · subst hv'
      exact hfail (by simp)
    · subst hv'
      exact hfail (by simp)
  · show v.Allocated (v.next _ _) _
    rw [h.next_get]
    exact hfail (by simp)

/-- An approval stores the payload of the machine it allocated. -/
theorem conforms_routeIssue {code : String} {m : Machine} (h : v.Approving)
    (hcode : cp.codeOf v.call = some code) (hclaimed : v.claimed = some m) :
    (routeMoves cp).Conforms (fun v' o => o = .ok () → v'.Approving ∧ v'.call = v.call ∧
      v'.claimed = v.claimed ∧ ∃ d, v'.armed = some d ∧ m.identity = d.machine.identity)
      (cp.issueToken code m) v := by
  refine conforms_aside_issue (aside_outside (by simp)) fun bytes => ?_
  refine Protocol.conforms_issue.mpr ⟨h.move_set, fun r _ => ?_⟩
  cases r with
  | error e => exact fun he => by cases he
  | ok u =>
    show (routeMoves cp).Conforms _ _ (v.next _ _)
    rw [RouteView.next_eq_self (v := v) rfl]
    refine conforms_redis_last.mpr ⟨.deliver hcode h.begins hclaimed rfl h.recorded,
      fun a _ _ => ?_, fun e _ he => (by cases he)⟩
    show (v.next _ _).Approving ∧ (v.next _ _).call = v.call ∧
      (v.next _ _).claimed = v.claimed ∧ ∃ d, (v.next _ _).armed = some d ∧ _
    rw [v.next_eq_after h.delivers]
    exact ⟨⟨h.delivers, h.begins, h.recorded⟩, rfl, rfl, _, rfl, rfl⟩

/-- The record read, and nothing else. -/
theorem conforms_routeRead {code : String} (hdelivers : v.call.delivers = true)
    (hcode : cp.codeOf v.call = some code) (hrecorded : v.recorded = false) :
    (routeMoves cp).Conforms (fun v' o => ∀ r, o = .ok r → v' = { v with invite := some r })
      (readInvite code) v := by
  refine conforms_redis.mpr ⟨.readInvite hrecorded hcode, fun json _ => ?_,
    fun _ _ _ he => (by cases he)⟩
  rcases json with _ | r | ⟨text, err⟩
  · exact fun _ he => by cases he
  · intro r' he
    cases he
    exact v.next_eq_after hdelivers _ _
  · exact fun _ he => by cases he

theorem conforms_routeApprove {email code name : String} :
    (routeMoves cp).Conforms (fun _ _ => True) (cp.inviteApprove email code name)
      (.init (.inviteApprove email code name)) := by
  unfold inviteApprove
  refine conforms_ofExcept.mpr ⟨fun c hc => ?_, fun _ _ => trivial⟩
  have hcode : cp.codeOf (RouteView.init (.inviteApprove email code name)).call = some c :=
    canonical_eq_ok hc
  have hown : (routeMoves cp).Conforms (fun v' o => ∀ r, o = .ok r →
      v' = { RouteView.init (.inviteApprove email code name) with invite := some r })
      (readOwnInvite email c) (.init (.inviteApprove email code name)) := by
    refine (conforms_routeRead rfl hcode rfl).bind (fun v' r hv' => ?_)
      (fun _ _ _ _ he => by cases he) (fun _ _ _ _ he => by cases he)
    obtain rfl := hv' r rfl
    split_ifs
    · intro r' he
      cases he
      rfl
    · exact fun _ he => by cases he
  refine hown.bind (fun v' r hv' => ?_) (fun _ _ _ => trivial) (fun _ _ _ => trivial)
  obtain rfl := hv' r rfl
  refine conforms_ofExcept.mpr ⟨fun _ _ => ?_, fun _ _ => trivial⟩
  cases r.devicePubkey with
  | none => trivial
  | some key =>
    refine (conforms_aside aside_accountUuid).mapErr_bind (fun v' uuid hv' => ?_)
      (fun _ _ _ => trivial) (fun _ _ _ => trivial)
    subst hv'
    refine conforms_expect.mpr ⟨fun uuid _ => ?_, fun _ => trivial⟩
    refine (conforms_routeAllocate ⟨rfl, rfl, rfl⟩).mapErr_bind (fun v' outcome hv' => ?_)
      (fun _ _ _ => trivial) (fun _ _ _ => trivial)
    obtain ⟨hclaims, hcreated⟩ := hv'
    cases outcome with
    | existing resp => trivial
    | created resp =>
      have hclaimed := hcreated resp rfl
      have hv' : v'.Approving := hclaims.approving ⟨rfl, rfl, rfl⟩
      have hcode' : cp.codeOf v'.call = some c := by
        rw [hclaims]
        exact hcode
      refine (conforms_routeIssue hv' hcode' hclaimed).bind (fun v'' _ hv'' => ?_)
        (fun _ _ _ => trivial) (fun _ _ _ => trivial)
      obtain ⟨happroving, hcall, hclaim, d, harmed, hroute⟩ := hv'' rfl
      refine conforms_redis.mpr ⟨.approve (hcall ▸ hcode') (hclaim.trans hclaimed) harmed hroute
        rfl happroving.delivers, fun _ _ => trivial, fun _ _ => trivial⟩

/-! ### Dials and polls -/

/-- A begin that has read the approved invite of its key. -/
structure RouteView.Rearming (v : RouteView) (key : String) : Prop where
  begins : v.call.begins = true
  recorded : v.recorded = false
  key : v.invite.bind (·.devicePubkey) = some key

theorem RouteView.Rearming.delivers {key : String} (h : v.Rearming key) :
    v.call.delivers = true := by
  have hb := h.begins
  cases hc : v.call with
  | inviteBegin code key => rfl
  | _ =>
    rw [hc] at hb
    cases hb

/-- **The machine a begin finds is the first of the list with the key.** -/
theorem conforms_routeList {key : String} {names : List String} (h : v.Rearming key) :
    (routeMoves cp).Conforms (fun v' o => v' = { v with found := v'.found } ∧
      ∀ ms, o = .ok ms → v'.found = v.found.or (ms.find? fun m => m.wgPublicKey = key))
      (listFrom names) v := by
  induction names generalizing v with
  | nil =>
    refine ⟨rfl, fun ms he => ?_⟩
    cases he
    exact (Option.or_none).symm
  | cons n names ih =>
    refine conforms_redis.mpr ⟨.readMachine h.recorded, fun json _ => ?_, fun e _ => ?_⟩
    · rcases json with _ | m | ⟨text, err⟩
      · show (routeMoves cp).Conforms _ _ (v.next _ _)
        rw [RouteView.next_eq_self (v := v) rfl]
        exact ih h
      · show (routeMoves cp).Conforms _ (listFrom names >>= fun ms => pure (m :: ms)) (v.next _ _)
        have hnext : v.next (.redis (.machine n .get)) (.ok (some (.json m))) =
            { v with found := v.found.or (if m.wgPublicKey = key then some m else none) } := by
          rw [v.next_eq_after h.delivers]
          show (if v.finds m then _ else v) = _
          obtain ⟨call, invite, found, claimed, armed, got, recorded⟩ := v
          have hfinds : RouteView.finds ⟨call, invite, found, claimed, armed, got, recorded⟩ m =
              (found.isNone && decide (m.wgPublicKey = key)) := by
            have hb : call.begins = true := h.begins
            have hk : invite.bind (·.devicePubkey) = some key := h.key
            simp only [RouteView.finds, hb, hk, Bool.true_and, Option.some.injEq]
            rw [Bool.decide_congr eq_comm]
          rw [hfinds]
          cases found with
          | none => by_cases hm : m.wgPublicKey = key <;> simp [hm]
          | some x => simp
        rw [hnext]
        have hrest := ih (v := { v with
          found := v.found.or (if m.wgPublicKey = key then some m else none) })
          ⟨h.begins, h.recorded, h.key⟩
        refine Protocol.Conforms.bind hrest (fun v' ms hv' => ?_)
          (fun v' e hv' => ⟨hv'.1, fun _ he => (by cases he)⟩)
          (fun v' msg hv' => ⟨hv'.1, fun _ he => (by cases he)⟩)
        refine ⟨hv'.1, fun ms' he => ?_⟩
        cases he
        rw [hv'.2 ms rfl, List.find?_cons]
        by_cases hm : m.wgPublicKey = key
        · simp [hm]
        · simp [hm]
      · show _ ∧ _
        rw [show (routeMoves cp).next v (.redis (.machine n .get))
          (.ok (some (.corrupt text err))) = v from RouteView.next_eq_self rfl]
        exact ⟨rfl, fun _ he => (by cases he)⟩
    · rw [show (routeMoves cp).next v (.redis (.machine n .get)) (.error e) = v from
        v.next_error _ e]
      exact ⟨rfl, fun _ he => (by cases he)⟩

theorem conforms_routeRearm {code key : String} {r : InviteRecord} (h : v.Rearming key)
    (hr : v.invite = some r) (hfresh : v.found = none) (hcode : cp.codeOf v.call = some code) :
    (routeMoves cp).Conforms (fun _ _ => True) (cp.rearmDelivery code r) v := by
  have hkey : r.devicePubkey = some key := by
    have hk := h.key
    rw [hr] at hk
    exact hk
  refine conforms_expect.mpr ⟨fun pubkey hpubkey => ?_, fun _ => trivial⟩
  obtain rfl : key = pubkey := Option.some.inj (hkey.symm.trans hpubkey)
  have hlist : (routeMoves cp).Conforms (fun v' o => v' = { v with found := v'.found } ∧
      ∀ ms, o = .ok ms → v'.found = ms.find? fun m => m.wgPublicKey = key) list v := by
    refine conforms_aside_redis aside_index (fun names => ?_)
      fun e => ⟨rfl, fun _ he => (by cases he)⟩
    refine (conforms_routeList h).mono fun v' o hv' => ⟨hv'.1, fun ms he => ?_⟩
    rw [hv'.2 ms he, hfresh, Option.none_or]
  refine hlist.mapErr_bind (fun v' ms hv' => ?_) (fun _ _ _ => trivial) (fun _ _ _ => trivial)
  refine conforms_expect.mpr ⟨fun m hm => ?_, fun _ => trivial⟩
  have hfound : v'.found = some m := (hv'.2 ms rfl).trans hm
  have hv'eq := hv'.1
  have hcall : v'.call = v.call := by rw [hv'eq]
  have hrecorded : v'.recorded = false := by
    rw [hv'eq]
    exact h.recorded
  refine conforms_aside_issue (aside_outside (by simp)) fun bytes => ?_
  refine Protocol.conforms_issue.mpr ⟨.attach (m := m) hfound, fun u _ => ?_⟩
  cases u with
  | error e => trivial
  | ok u =>
    show (routeMoves cp).Conforms _ _ (v'.next _ _)
    rw [RouteView.next_eq_self (v := v') rfl]
    exact conforms_redis_last.mpr ⟨.deliverAgain (hcall ▸ hcode) (hcall ▸ h.begins) hfound rfl
      hrecorded, fun _ _ => trivial, fun _ _ => trivial⟩

theorem conforms_routeBegin {code key : String} :
    (routeMoves cp).Conforms (fun _ _ => True) (cp.inviteBegin code key)
      (.init (.inviteBegin code key)) := by
  unfold inviteBegin
  refine conforms_ofExcept.mpr ⟨fun c hc => ?_, fun _ _ => trivial⟩
  split
  · trivial
  have hcode : cp.codeOf (RouteView.init (.inviteBegin code key)).call = some c :=
    canonical_eq_ok hc
  refine (conforms_routeRead rfl hcode rfl).bind (fun v' r hv' => ?_)
    (fun _ _ _ => trivial) (fun _ _ _ => trivial)
  obtain rfl := hv' r rfl
  cases hs : r.status with
  | approved =>
    dsimp only
    split_ifs with hkey
    · exact Protocol.Conforms.bind (conforms_routeRearm ⟨rfl, rfl, hkey⟩ rfl rfl hcode)
        (fun _ _ _ => trivial) (fun _ _ _ => trivial) (fun _ _ _ => trivial)
    · trivial
  | denied => trivial
  | dormant | waiting =>
    refine conforms_redis.mpr ⟨.harmless (harmless_setEx (by simp)) (fun r' => ?_) fun _ _ _ he =>
      (by cases he), fun _ _ => trivial, fun _ _ => trivial⟩
    rcases r' with _ | _ <;> exact RouteView.next_eq_self rfl

theorem conforms_routePoll {code : String} :
    (routeMoves cp).Conforms (fun v' o => v'.Returns (o.bimap .invite .poll)) (cp.invitePoll code)
      (.init (.invitePoll code)) := by
  have herr : ∀ {v' : RouteView} {e : InviteError},
      v'.Returns (.err (.invite e)) := by
    intro v' e
    unfold RouteView.Returns
    split <;> trivial
  unfold invitePoll
  refine conforms_ofExcept.mpr ⟨fun c hc => ?_, fun _ _ => herr⟩
  have hcode : cp.codeOf (RouteView.init (.invitePoll code)).call = some c := canonical_eq_ok hc
  refine (conforms_routeRead rfl hcode rfl).bind (fun v' r hv' => ?_) (fun _ _ _ => herr)
    (fun v' m _ => by unfold RouteView.Returns; split <;> trivial)
  obtain rfl := hv' r rfl
  cases hs : r.status with
  | dormant | waiting | denied => exact rfl
  | approved =>
    refine conforms_redis.mpr ⟨.collect hcode rfl hs rfl, fun payload _ => ?_, fun _ _ => herr⟩
    rcases payload with _ | d | ⟨text, err⟩
    · exact rfl
    · exact rfl
    · exact conforms_ofExcept.mpr ⟨fun d hd => (by cases hd), fun _ _ => herr⟩

/-- **The operations conform.** -/
theorem body_routeMoves (call : Call) :
    (routeMoves cp).Conforms RouteView.Returns (cp.body call) (.init call) := by
  have hreturns : ∀ {v : RouteView} {o : Outcome EdgeError Reply},
      (∀ code, v.call ≠ .invitePoll code) → v.Returns o := by
    intro v o h
    unfold RouteView.Returns
    split
    · exact absurd ‹_› (h _)
    · trivial
  have hstable : ∀ {call' : Call} (v : RouteView) (c : Cmd) (r : c.Resp), v.call = call' →
      (v.next c r).call = call' := fun v c r h => (v.next_call c r).trans h
  cases call with
  | inviteApprove email code name =>
    refine (conforms_routeApprove.stable
      (Q := fun v => v.call = .inviteApprove email code name) hstable rfl).bimap fun v o hv => ?_
    exact hreturns fun code' h => by rw [hv.2] at h; cases h
  | inviteBegin code key =>
    refine (conforms_routeBegin.stable
      (Q := fun v => v.call = .inviteBegin code key) hstable rfl).bimap fun v o hv => ?_
    exact hreturns fun code' h => by rw [hv.2] at h; cases h
  | invitePoll code => exact conforms_routePoll.bimap fun _ _ h => h
  | _ =>
    refine (conforms_harmless (harmless_body rfl) rfl).mono fun v' o hv' => ?_
    subst hv'
    exact hreturns fun code h => by cases h

end ControlPlane
end Cococoir
