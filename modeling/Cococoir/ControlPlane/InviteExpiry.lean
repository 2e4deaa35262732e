import Cococoir.ControlPlane.Clock
import Cococoir.ControlPlane.Panics

/-!
# How long an invite can be used

An invite is created with a time to live of thirty days, and every begin, approval and denial
stores its record again with thirty more.  So it is not thirty days after its creation but thirty
days after the last of these writes that nothing can be done with the code any more.

* `lasting_body`: no operation stores an invite without that time to live.
* `Bounded.step`: the record is gone thirty days after the last write.
* `renewedInvite`: a begin on the thirty-first day.
* `late_calls_fail`: what comes thirty days after every write fails.

## The argument

Every command of every operation that stores an invite gives it thirty days: `lasting_body`.  So
as long as no one stores it again the record is gone thirty days after it was last stored,
whatever else happens, and `Bounded` carries this along a run.  Afterwards a call on the code
finds nothing.

That the late call itself does not store the record needs another argument, because a begin, an
approval and a denial are the operations that do.  They read it first.  `missing` is the protocol
of a program that is never answered with a record, and in which such a program has no store to
issue and no success to return; it holds of the late call from its first command on, since there
is no record to be answered with.  The condition of the theorem is therefore about the other calls
only.
-/

namespace Cococoir
namespace ControlPlane

open Concurrency

variable {cp : ControlPlane} {w w' : World} {ε ε' α β : Type}

/-! ## Every write of an invite has its time to live -/

/-- The command on an invite's key sets its time to live when it stores. -/
def Lasts : Redis.KeyOp (Stored InviteRecord) → Prop
  | .setEx _ ttl | .setNxEx _ ttl => ttl = INVITE_TTL_SECS
  | .set _ | .setNx _ => False
  | _ => True

def Lasting (c : Cmd) : Prop := ∀ code op, c = .redis (.invite code op) → Lasts op

theorem lasting_of_writes {fs : List Family} (hfs : Family.invite ∉ fs) (c : Cmd)
    (hc : WritesOnly fs c) : Lasting c := by
  rintro code op rfl
  cases op with
  | set _ | setNx _ | setEx _ _ | setNxEx _ _ => exact absurd (hc .invite rfl) hfs
  | _ => trivial

theorem lasting_invite [FromRedis ε] {code : String} {op : Redis.KeyOp (Stored InviteRecord)}
    (h : Lasts op) : (redis (.invite code op) : Edge ε op.Resp).All Lasting := by
  refine ⟨?_, fun r => by cases r <;> trivial⟩
  rintro _ _ ⟨⟩
  exact h

theorem lasting_get [FromRedis ε] {code : String} :
    (redis (.invite code .get) : Edge ε (Option (Stored InviteRecord))).All Lasting :=
  lasting_invite trivial

theorem lasting_del [FromRedis ε] {code : String} :
    (redis (.invite code .del) : Edge ε ℕ).All Lasting := lasting_invite trivial

theorem lasting_setEx [FromRedis ε] {code : String} {x : Stored InviteRecord} :
    (redis (.invite code (.setEx x INVITE_TTL_SECS)) : Edge ε Unit).All Lasting :=
  lasting_invite rfl

theorem lasting_setNxEx [FromRedis ε] {code : String} {x : Stored InviteRecord} :
    (redis (.invite code (.setNxEx x INVITE_TTL_SECS)) : Edge ε Bool).All Lasting :=
  lasting_invite rfl

theorem lasting_none {p : Edge ε α} (hp : p.All (WritesOnly [])) : p.All Lasting :=
  hp.mono (lasting_of_writes (by simp))

theorem lasting_readInvite {code : String} : (readInvite code).All Lasting := by
  refine lasting_get.bind fun json => ?_
  cases json with
  | none => trivial
  | some json => exact Prog.all_ofExcept _

theorem lasting_readOwnInvite {email code : String} : (readOwnInvite email code).All Lasting := by
  refine lasting_readInvite.bind fun r => ?_
  split_ifs <;> trivial

theorem lasting_issueToken {code : String} {m : Machine} : (cp.issueToken code m).All Lasting :=
  writes_issueToken.mono (lasting_of_writes (by simp))

theorem lasting_inviteCreateFrom {email : String} {retries : ℕ} :
    (cp.inviteCreateFrom email retries).All Lasting := by
  induction retries with
  | zero => trivial
  | succ retries ih =>
    refine Prog.All.bind ?_ fun code => ?_
    · exact (lasting_none writes_randomWords).bind fun _ => trivial
    refine lasting_setNxEx.bind fun set => ?_
    split_ifs
    · trivial
    · exact ih

theorem lasting_inviteRevoke {email code : String} : (cp.inviteRevoke email code).All Lasting := by
  refine (Prog.all_ofExcept _).bind fun c => lasting_readOwnInvite.bind fun r => ?_
  split
  · exact lasting_del.bind fun _ => trivial
  · exact lasting_del.bind fun _ => trivial
  · trivial
  · trivial

theorem lasting_inviteBegin {code key : String} : (cp.inviteBegin code key).All Lasting := by
  refine (Prog.all_ofExcept _).bind fun c => ?_
  cases cp.validateWgPubkey key with
  | error e => trivial
  | ok u =>
    refine lasting_readInvite.bind fun r => ?_
    split
    · split_ifs
      · refine Prog.All.bind ?_ fun _ => trivial
        refine (Prog.all_expect _ _).bind fun pubkey => ?_
        refine Prog.All.bind (lasting_none writes_list).bimap fun ms => ?_
        exact (Prog.all_expect _ _).bind fun m => lasting_issueToken
      · trivial
    · trivial
    · exact lasting_setEx.bind fun _ => trivial
    · exact lasting_setEx.bind fun _ => trivial

theorem lasting_inviteApprove {email code name : String} :
    (cp.inviteApprove email code name).All Lasting := by
  refine (Prog.all_ofExcept _).bind fun c => lasting_readOwnInvite.bind fun r => ?_
  refine (Prog.all_ofExcept _).bind fun _ => ?_
  cases r.devicePubkey with
  | none => trivial
  | some pubkey =>
    refine Prog.All.bind (lasting_none writes_accountUuid).bimap fun uuid => ?_
    refine (Prog.all_expect _ _).bind fun accountUuid => ?_
    refine Prog.All.bind (writes_allocateMachine.mono (lasting_of_writes (by simp))).bimap
      fun outcome => ?_
    cases outcome with
    | existing resp => trivial
    | created resp => exact lasting_issueToken.bind fun _ => lasting_setEx.bind fun _ => trivial

theorem lasting_inviteDeny {email code : String} : (cp.inviteDeny email code).All Lasting := by
  refine (Prog.all_ofExcept _).bind fun c => lasting_readOwnInvite.bind fun r => ?_
  exact (Prog.all_ofExcept _).bind fun _ => lasting_setEx

theorem lasting_accountDelete {email : String} {pages : ℕ} :
    (cp.accountDelete email pages).All Lasting := by
  refine (lasting_none writes_readAccount).bind fun account => ?_
  cases account with
  | none => trivial
  | some account =>
    refine (lasting_none writes_machinesOf.attempt).bind fun ms => ?_
    refine (writes_deleteMachines.mono (lasting_of_writes (by simp))).bind fun _ => ?_
    refine (lasting_none writes_invitesOf.attempt).bind fun invites => ?_
    refine Prog.All.bind ?_ fun _ => ?_
    · induction invites.toOption.getD [] with
      | nil => trivial
      | cons x invites ih => exact lasting_del.bind fun _ => ih
    · refine (writes_sessionsScan.mono (lasting_of_writes (by simp))).bind fun _ => ?_
      have hdel : WritesOnly [.account] (.redis (.account (cp.normalizeEmail email) .del)) :=
        writesOnly_of_some rfl (by simp)
      exact ((writes_redis hdel).mono (lasting_of_writes (by simp))).bind fun _ => trivial

/-- **No operation stores an invite without its time to live.** -/
theorem lasting_body (call : Call) : (cp.body call).All Lasting := by
  cases call with
  | inviteCreate email => exact lasting_inviteCreateFrom.bimap
  | inviteRevoke email code => exact lasting_inviteRevoke.bimap
  | inviteBegin code key => exact lasting_inviteBegin.bimap
  | inviteApprove email code name => exact lasting_inviteApprove.bimap
  | inviteDeny email code => exact lasting_inviteDeny.bimap
  | accountDelete email pages => exact lasting_accountDelete.bimap
  -- the others do not write invites
  | _ => exact (writes_body _).mono (lasting_of_writes (by simp [Call.writes]))

/-! ## The record and its time -/

/-- The event creates an invite under the code. -/
def Creates (c : String) (σ : Clocked) (e : Beat) : Bool :=
  match σ.executed e with
  | some (.redis (.invite c' (.setNxEx _ _))) => c' = c && (σ.server.world.invites c).isNone
  | _ => false

/-- The event stores the invite's record again: the machine began, or the owner decided. -/
def Rewrites (c : String) (σ : Clocked) (e : Beat) : Bool :=
  match σ.executed e with
  | some (.redis (.invite c' (.setEx _ _))) => c' = c
  | _ => false

/-- The event is a command of the call `j`. -/
def Beat.isOf (j : ℕ) : Beat → Bool
  | .serve (.step i _) => i = j
  | _ => false

variable {c : String} {u : ℕ} {σ σ' : Clocked} {i : ℕ} {ch : Choice}

theorem expires_invites {cmd : Cmd} {now : ℕ} {x : Expiries}
    (h : ∀ n op, cmd ≠ .redis (.invite n op)) :
    cmd.expires now w x .invite = x .invite := by
  ext n : 1
  cases cmd with
  | redis op =>
    cases op with
    | invite n' op => exact absurd rfl (h n' op)
    | index op | alloc op => rfl
    | _ =>
      dsimp only [Cmd.expires, RedisOp.expires]
      refine Expiries.put_of_ne ?_
      rintro ⟨hfamily, -⟩
      cases hfamily
  | _ => rfl

/-- What one command does to an invite and to its time: nothing, it removes it, or it writes it and
the time is a time to live from now. -/
theorem invite_of_serve (hlasts : ∀ t ∈ σ.server.pool, t.prog.All Lasting)
    (h : σ.step cp (.serve (.step i ch)) = some σ') :
    (σ'.server.world.invites c = σ.server.world.invites c ∧
        σ'.expires .invite c = σ.expires .invite c) ∨
      σ'.server.world.invites c = none ∨
      (Creates c σ (.serve (.step i ch)) ∨ Rewrites c σ (.serve (.step i ch))) ∧
        σ'.expires .invite c = some (σ.now + INVITE_TTL_SECS) := by
  obtain ⟨t, cmd, k, hi, ht, hexecuted, rfl⟩ := Clocked.step_serve h
  have hlasting : Lasting cmd := by
    have hall := hlasts t (List.mem_of_getElem? hi)
    rw [ht] at hall
    exact hall.1
  cases hf : ch.fails with
  | true =>
    left
    by_cases hr : ∃ op, cmd = .redis op
    · obtain ⟨op, rfl⟩ := hr
      rw [exec_redis_of_fails hf, if_pos rfl]
      exact ⟨rfl, rfl⟩
    · rw [exec_invites fun n op he => hr ⟨_, he⟩, if_pos rfl]
      exact ⟨rfl, rfl⟩
  | false =>
    rw [if_neg (by simp [hf])] at hexecuted
    rw [if_neg (by simp)]
    by_cases hr : ∃ op, cmd = .redis (.invite c op)
    · obtain ⟨op, rfl⟩ := hr
      have hop := hlasting c op rfl
      rw [exec_redis_of_not_fails hf]
      dsimp only [RedisOp.exec, Cmd.expires, RedisOp.expires]
      rw [Function.update_self, Expiries.put_self]
      cases op with
      | get => exact Or.inl ⟨rfl, rfl⟩
      | isThere => exact Or.inl ⟨rfl, rfl⟩
      | del => exact Or.inr (Or.inl (by simp))
      | getDel => exact Or.inr (Or.inl rfl)
      | set v => exact absurd hop id
      | setNx v => exact absurd hop id
      | setEx v ttl =>
        obtain rfl : ttl = INVITE_TTL_SECS := hop
        exact Or.inr (Or.inr ⟨Or.inr (by simp [Rewrites, hexecuted]), rfl⟩)
      | setNxEx v ttl =>
        obtain rfl : ttl = INVITE_TTL_SECS := hop
        cases hcell : σ.server.world.invites c with
        | none => exact Or.inr (Or.inr ⟨Or.inl (by simp [Creates, hexecuted, hcell]), rfl⟩)
        | some x => exact Or.inl ⟨rfl, rfl⟩
    · left
      by_cases hinvite : ∃ c' op, cmd = .redis (.invite c' op)
      · obtain ⟨c', op, rfl⟩ := hinvite
        have hne : c ≠ c' := by
          rintro rfl
          exact hr ⟨op, rfl⟩
        rw [exec_redis_of_not_fails hf]
        exact ⟨Function.update_of_ne hne _ _, Expiries.put_of_ne fun h => hne h.2⟩
      · have hne : ∀ n op, cmd ≠ .redis (.invite n op) := fun n op he => hinvite ⟨n, op, he⟩
        exact ⟨congrFun (exec_invites hne) c, congrFun (expires_invites hne) c⟩

/-- An invite that is stored is gone at `u` at the latest. -/
structure Bounded (c : String) (u : ℕ) (σ : Clocked) : Prop where
  lasting : ∀ t ∈ σ.server.pool, t.prog.All Lasting
  bounded : (σ.server.world.invites c).isSome →
    ∃ time, σ.expires .invite c = some time ∧ σ.now < time ∧ time ≤ u

theorem Bounded.eq_none (h : Bounded c u σ) (hu : u ≤ σ.now) : σ.server.world.invites c = none := by
  by_contra hsome
  obtain ⟨time, -, hnow, htime⟩ := h.bounded (Option.isSome_iff_ne_none.mpr hsome)
  omega

theorem lasting_of_step {e : Beat} (hlasts : ∀ t ∈ σ.server.pool, t.prog.All Lasting)
    (h : σ.step cp e = some σ') : ∀ t ∈ σ'.server.pool, t.prog.All Lasting := by
  intro t ht
  cases e with
  | pass seconds =>
    cases h
    exact hlasts t ht
  | serve tick =>
    cases tick with
    | start call =>
      cases h
      rcases List.mem_append.mp ht with ht | ht
      · exact hlasts t ht
      · rw [List.mem_singleton.mp ht]
        exact lasting_body call
    | step i ch =>
      obtain ⟨t', cmd, k, hi, hprog, -, rfl⟩ := Clocked.step_serve h
      rcases List.mem_or_eq_of_mem_set ht with ht | rfl
      · exact hlasts t ht
      · have hall := hlasts t' (List.mem_of_getElem? hi)
        rw [hprog] at hall
        exact hall.2 _

/-- **One event.**  The record is gone at `u` if it was written a time to live before. -/
theorem Bounded.step {e : Beat} (hσ : Bounded c u σ)
    (hwrites : Creates c σ e ∨ Rewrites c σ e → σ.now + INVITE_TTL_SECS ≤ u)
    (h : σ.step cp e = some σ') : Bounded c u σ' := by
  refine ⟨lasting_of_step hσ.lasting h, fun hsome => ?_⟩
  cases e with
  | pass seconds =>
    cases h
    dsimp only [World.without] at hsome ⊢
    cases hgone : σ.expires.gone (σ.now + seconds) .invite c with
    | true => simp [hgone] at hsome
    | false =>
      simp only [hgone, Bool.false_eq_true, if_false] at hsome ⊢
      obtain ⟨time, htime, -, hu⟩ := hσ.bounded hsome
      refine ⟨time, htime, ?_, hu⟩
      simpa [Expiries.gone, htime] using hgone
  | serve tick =>
    cases tick with
    | start call =>
      cases h
      exact hσ.bounded hsome
    | step i ch =>
      have hnow : σ'.now = σ.now := by
        obtain ⟨t, cmd, k, -, -, -, rfl⟩ := Clocked.step_serve h
        rfl
      rcases invite_of_serve (c := c) hσ.lasting h with ⟨hinvite, htime⟩ | hnone | ⟨hwrite, htime⟩
      · rw [htime, hnow]
        exact hσ.bounded (hinvite ▸ hsome)
      · rw [hnone] at hsome
        cases hsome
      · refine ⟨_, htime, ?_, hwrites hwrite⟩
        rw [hnow]
        exact Nat.lt_add_of_pos_right (by decide)

theorem now_le_of_step {e : Beat} (h : σ.step cp e = some σ') : σ.now ≤ σ'.now := by
  cases e with
  | pass seconds =>
    cases h
    exact Nat.le_add_right _ _
  | serve tick =>
    cases tick with
    | start call =>
      cases h
      exact le_rfl
    | step i ch =>
      obtain ⟨t, cmd, k, -, -, -, rfl⟩ := Clocked.step_serve h
      exact le_rfl

/-! ## A call that finds no record -/

/-- Programs that are never answered with an invite under the code, and do not store one again. -/
def missing (c : String) : Protocol Call Cmd Cmd.Resp Unit where
  init _ := ()
  next _ _ _ := ()
  ok _ cmd := ∀ record ttl, cmd ≠ .redis (.invite c (.setEx record ttl))
  resp cmd r :=
    match cmd, r with
    | .redis (.invite n .get), .ok (some _) => n ≠ c
    | _, _ => True

/-- The program does not succeed, nor store the invite, when there is no invite under the code. -/
def NeedsInvite (c : String) (p : Edge ε α) : Prop :=
  (missing c).Conforms (fun _ o => ∀ a, o ≠ .ok a) p ()

theorem needsInvite_readInvite : NeedsInvite c (readInvite c) := by
  refine conforms_redis.mpr ⟨fun _ _ h => ?_, fun json hjson => ?_, fun e _ _ h => by cases h⟩
  · cases h
  cases json with
  | none => exact fun _ h => by cases h
  | some json => exact absurd rfl hjson

theorem NeedsInvite.bind {p : Edge ε α} {f : α → Edge ε β} (hp : NeedsInvite c p) :
    NeedsInvite c (p >>= f) :=
  Protocol.Conforms.bind hp (fun _ a h => absurd rfl (h a)) (fun _ _ _ _ h => by cases h)
    fun _ _ _ _ h => by cases h

theorem NeedsInvite.bimap {p : Edge ε α} {f : ε → ε'} {g : α → β} (hp : NeedsInvite c p) :
    NeedsInvite c (p.bimap f g) := by
  refine Protocol.Conforms.bimap hp fun _ o ho b h => ?_
  cases o with
  | ok a => exact ho a rfl
  | err e => cases h
  | panic m => cases h

theorem needsInvite_ofExcept {x : Except ε α} {f : α → Edge ε β}
    (hf : ∀ a, x = .ok a → NeedsInvite c (f a)) : NeedsInvite c (Prog.ofExcept x >>= f) :=
  conforms_ofExcept.mpr ⟨hf, fun _ _ _ h => by cases h⟩

/-- The operations that take an invite further. -/
def Call.advances : Call → Bool
  | .inviteBegin _ _ | .inviteApprove _ _ _ | .inviteDeny _ _ => true
  | _ => false

theorem eq_of_canonical {code c' : String} (hcode : cp.canonicalInviteCode code = some c)
    (hc : cp.canonical code = .ok c') : c' = c := by
  rw [canonical, hcode] at hc
  exact (Except.ok.inj hc).symm

/-- **Without a record nothing is done.** -/
theorem needsInvite_body {call : Call} (hcall : call.advances) (hcode : cp.codeOf call = some c) :
    NeedsInvite c (cp.body call) := by
  cases call with
  | inviteBegin code key =>
    refine NeedsInvite.bimap (needsInvite_ofExcept fun c' hc => ?_)
    obtain rfl := eq_of_canonical hcode hc
    cases cp.validateWgPubkey key with
    | error e => exact fun _ h => by cases h
    | ok u => exact needsInvite_readInvite.bind
  | inviteApprove email code name =>
    refine NeedsInvite.bimap (needsInvite_ofExcept fun c' hc => ?_)
    obtain rfl := eq_of_canonical hcode hc
    exact needsInvite_readInvite.bind.bind
  | inviteDeny email code =>
    refine NeedsInvite.bimap (needsInvite_ofExcept fun c' hc => ?_)
    obtain rfl := eq_of_canonical hcode hc
    exact needsInvite_readInvite.bind.bind
  | _ => cases hcall

/-- Nothing is stored under the code, and the call `j` does not succeed. -/
structure Expired (c : String) (u j : ℕ) (σ : Clocked) : Prop where
  bounded : Bounded c u σ
  late : u ≤ σ.now
  refused : ∃ t, σ.server.pool[j]? = some t ∧ NeedsInvite c t.prog

/-- The call itself does not store the record again: it has not read one. -/
theorem Expired.not_rewrites {e : Beat} {j : ℕ} (hσ : Expired c u j σ) (hof : e.isOf j) :
    ¬Rewrites c σ e := by
  obtain ⟨t, hj, ht⟩ := hσ.refused
  rcases e with seconds | (call | ⟨i, ch⟩)
  · cases hof
  · cases hof
  obtain rfl : i = j := of_decide_eq_true hof
  intro hrewrites
  rw [Rewrites, Clocked.executed, hj, Option.bind_some] at hrewrites
  cases hprog : t.prog with
  | done o => cases hf : ch.fails <;> simp [hf, Thread.pending, hprog] at hrewrites
  | cmd cmd k =>
    rw [hprog] at ht
    have hok := ht.1
    cases hf : ch.fails with
    | true => simp [hf] at hrewrites
    | false =>
      simp only [hf, Thread.pending, hprog] at hrewrites
      split at hrewrites
      case h_1 c' record ttl hcmd =>
        obtain rfl : c' = c := of_decide_eq_true hrewrites
        exact hok record ttl (Option.some.inj hcmd)
      case h_2 => cases hrewrites

theorem Expired.step {e : Beat} {j : ℕ} (hσ : Expired c u j σ)
    (hcreates : Creates c σ e → σ.now + INVITE_TTL_SECS ≤ u)
    (hrewrites : ¬e.isOf j → Rewrites c σ e → σ.now + INVITE_TTL_SECS ≤ u)
    (h : σ.step cp e = some σ') : Expired c u j σ' := by
  have hwrites : Creates c σ e ∨ Rewrites c σ e → σ.now + INVITE_TTL_SECS ≤ u := by
    rintro (hwrite | hwrite)
    · exact hcreates hwrite
    · exact hrewrites (fun hof => hσ.not_rewrites hof hwrite) hwrite
  refine ⟨hσ.bounded.step hwrites h, hσ.late.trans (now_le_of_step h), ?_⟩
  obtain ⟨t, hj, ht⟩ := hσ.refused
  cases e with
  | pass seconds =>
    cases h
    exact ⟨t, hj, ht⟩
  | serve tick =>
    cases tick with
    | start call =>
      cases h
      exact ⟨t, (List.getElem?_append_left (List.getElem?_eq_some_iff.mp hj).1).trans hj, ht⟩
    | step i ch =>
      have hnone := hσ.bounded.eq_none hσ.late
      obtain ⟨t', cmd, k, hi, hprog, -, rfl⟩ := Clocked.step_serve h
      dsimp only
      rw [getElem?_set_of_some hi]
      split_ifs with hji
      · subst hji
        obtain rfl : t' = t := Option.some.inj (hi.symm.trans hj)
        rw [hprog] at ht
        refine ⟨_, rfl, ht.2 _ ?_⟩
        -- a command that reads the invite finds nothing
        dsimp only [missing]
        split
        case h_1 n x hr =>
          rintro rfl
          rcases exec_redis_cases ch (.invite n .get) σ.server.world with he | he
          · rw [he] at hr
            cases hr
          · rw [he] at hr
            dsimp only [RedisOp.exec, Redis.KeyOp.exec] at hr
            rw [hnone] at hr
            cases hr
        case h_2 => trivial
      · exact ⟨t, hj, ht⟩

/-! ## Calls on an old code -/

/-- What a call returned. -/
def Clocked.result (σ : Clocked) (j : ℕ) : Option (Outcome EdgeError Reply) :=
  σ.server.pool[j]?.bind Thread.result

/-- Where a run leads. -/
def Clocked.reach (cp : ControlPlane) (beats : List Beat) : Clocked :=
  (runs (Clocked.step cp) .empty beats).getD .empty

theorem Clocked.runs_reach {beats : List Beat}
    (h : (runs (Clocked.step cp) .empty beats).isSome) :
    runs (Clocked.step cp) .empty beats = some (reach cp beats) := by
  obtain ⟨σ, hσ⟩ := Option.isSome_iff_exists.mp h
  rw [reach, hσ, Option.getD_some]

def days (n : ℕ) : ℕ := n * 24 * 60 * 60

/-- An invite is created, and a machine begins on the twenty-ninth day. -/
def begun : List Beat :=
  .serve (.start (.inviteCreate "owner@example.net")) ::
      List.replicate 5 (.serve (.step 0 {})) ++
    .pass (days 29) :: .serve (.start (.inviteBegin sampleCode keyA)) ::
      List.replicate 2 (.serve (.step 1 {}))

/-- What the call that comes next issues. -/
def again : List Beat := List.replicate 2 (.serve (.step 2 {}))

/-- The code still works thirty-one days after it was created. -/
theorem renewedInvite :
    ¬∀ (cp : ControlPlane) (before after : List Beat) (call : Call) (c : String)
      (reached ended : Clocked), call.advances → cp.codeOf call = some c →
      runs (Clocked.step cp) .empty before = some reached →
      runs (Clocked.step cp) .empty (before ++ .serve (.start call) :: after) = some ended →
      Along (Clocked.step cp) (fun σ e => Creates c σ e → σ.now + INVITE_TTL_SECS < reached.now)
        .empty (before ++ .serve (.start call) :: after) →
      ∀ reply, ended.result reached.server.pool.length ≠ some (.ok reply) := by
  intro h
  refine h sample (begun ++ [.pass (days 2)]) again (.inviteBegin sampleCode keyA) sampleCode
    (.reach sample (begun ++ [.pass (days 2)]))
    (.reach sample ((begun ++ [.pass (days 2)]) ++
      .serve (.start (.inviteBegin sampleCode keyA)) :: again)) rfl ?_ (Clocked.runs_reach ?_)
    (Clocked.runs_reach ?_) ?_ (.poll (.bare "waiting")) ?_
  all_goals decide +kernel

theorem length_pool_le_of_step {e : Beat} (h : σ.step cp e = some σ') :
    σ.server.pool.length ≤ σ'.server.pool.length := by
  rcases e with seconds | (call | ⟨i, ch⟩)
  · cases h
    exact le_rfl
  · cases h
    exact List.length_append ▸ Nat.le_add_right _ _
  · obtain ⟨t, cmd, k, -, -, -, rfl⟩ := Clocked.step_serve h
    exact List.length_set.ge

theorem not_isOf_of_step {e : Beat} {j : ℕ} (h : σ.step cp e = some σ')
    (hj : σ.server.pool.length ≤ j) : ¬e.isOf j := by
  intro hof
  rcases e with seconds | (call | ⟨i, ch⟩)
  · cases hof
  · cases hof
  obtain rfl : i = j := of_decide_eq_true hof
  obtain ⟨t, cmd, k, hi, -⟩ := Clocked.step_serve h
  exact absurd (List.getElem?_eq_some_iff.mp hi).1 (Nat.not_lt.mpr hj)

/-- A call that comes after a run has issued nothing in it. -/
theorem along_not_isOf {beats : List Beat} {j : ℕ} (h : runs (Clocked.step cp) σ beats = some σ')
    (hj : σ'.server.pool.length ≤ j) : Along (Clocked.step cp) (fun _ e => ¬e.isOf j) σ beats := by
  induction beats generalizing σ with
  | nil => trivial
  | cons e beats ih =>
    obtain ⟨σ₁, he, h⟩ := runs_cons.mp h
    have hle : σ₁.server.pool.length ≤ σ'.server.pool.length :=
      runs_relation (fun s s' => s.server.pool.length ≤ s'.server.pool.length) (fun _ => le_rfl)
        le_trans (fun _ _ _ => length_pool_le_of_step) h
    refine ⟨not_isOf_of_step he (((length_pool_le_of_step he).trans hle).trans hj), fun σ₂ he₂ => ?_⟩
    obtain rfl : σ₁ = σ₂ := Option.some.inj (he.symm.trans he₂)
    exact ih h

/-- **A code that was last written thirty days ago is of no use**: a begin, an approval or a denial
that is called after every creation of an invite under the code is that old, and every begin,
approval and denial of others that stored its record, does not succeed. -/
theorem late_calls_fail {before after : List Beat} {call : Call} {reached ended : Clocked}
    (hcall : call.advances) (hcode : cp.codeOf call = some c)
    (hbefore : runs (Clocked.step cp) .empty before = some reached)
    (hended : runs (Clocked.step cp) .empty (before ++ .serve (.start call) :: after) = some ended)
    (hcreated : Along (Clocked.step cp)
      (fun σ e => Creates c σ e → σ.now + INVITE_TTL_SECS < reached.now)
      .empty (before ++ .serve (.start call) :: after))
    (hrewritten : Along (Clocked.step cp)
      (fun σ e => ¬e.isOf reached.server.pool.length → Rewrites c σ e →
        σ.now + INVITE_TTL_SECS ≤ reached.now)
      .empty (before ++ .serve (.start call) :: after)) (reply : Reply) :
    ended.result reached.server.pool.length ≠ some (.ok reply) := by
  obtain ⟨hcreatedBefore, hcreatedRest⟩ := (along_append hbefore).mp hcreated
  obtain ⟨hrewrittenBefore, hrewrittenRest⟩ := (along_append hbefore).mp hrewritten
  obtain ⟨σ₁, hreached, hafter⟩ := runs_append.mp hended
  obtain rfl : reached = σ₁ := Option.some.inj (hbefore.symm.trans hreached)
  obtain ⟨σ₂, hstart, hafter⟩ := runs_cons.mp hafter
  have hbounded : Bounded c reached.now reached := by
    refine runs_invariant_along (Bounded c reached.now) (fun σ e σ' hσ he h => hσ.step ?_ h) ⟨?_, ?_⟩
      ((hcreatedBefore.and hrewrittenBefore).and (along_not_isOf hbefore le_rfl)) hbefore
    · rintro (hwrite | hwrite)
      · exact (he.1.1 hwrite).le
      · exact he.1.2 he.2 hwrite
    · exact fun t ht => absurd ht List.not_mem_nil
    · exact fun h => by cases h
  have hexpired : Expired c reached.now reached.server.pool.length σ₂ := by
    refine ⟨hbounded.step ?_ hstart, now_le_of_step hstart, ?_⟩
    · rintro (hwrite | hwrite) <;> cases hwrite
    · cases hstart
      exact ⟨_, List.getElem?_concat_length, needsInvite_body hcall hcode⟩
  have hend : Expired c reached.now reached.server.pool.length ended := by
    refine runs_invariant_along (Expired c reached.now reached.server.pool.length)
      (fun σ e σ' hσ he h => hσ.step (fun hwrite => (he.1 hwrite).le) he.2 h) hexpired
      ((hcreatedRest.2 σ₂ hstart).and (hrewrittenRest.2 σ₂ hstart)) hafter
  obtain ⟨t, hj, ht⟩ := hend.refused
  rw [Clocked.result, hj, Option.bind_some, ne_eq, Thread.result_eq_some]
  intro hprog
  rw [hprog] at ht
  exact ht reply rfl
/-- On the fifty-ninth day the code does not work any more. -/
theorem late_calls_fail_begun :
    (Clocked.reach sample (begun ++ [.pass (days 30)])).now = days 59 ∧
      ∀ reply, (Clocked.reach sample ((begun ++ [.pass (days 30)]) ++
          .serve (.start (.inviteBegin sampleCode keyA)) :: [.serve (.step 2 {})])).result
        (Clocked.reach sample (begun ++ [.pass (days 30)])).server.pool.length ≠ some (.ok reply) := by
  refine ⟨?_, @late_calls_fail sample sampleCode _ _ (.inviteBegin sampleCode keyA) _ _ rfl ?_
    (Clocked.runs_reach ?_) (Clocked.runs_reach ?_) ?_ ?_⟩
  all_goals decide +kernel

end ControlPlane
end Cococoir
