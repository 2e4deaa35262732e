import Cococoir.ControlPlane.Calls

/-!
# Which families a program writes

An operation reads whatever it likes, but it writes few families of the keyspace.  What a
command may write is read off its name, and what a program may write is a property of all the
commands it can issue: `WritesOnly`, for every operation in `writes_body`.  A family that is not
written is left as it was, whatever else happens: `exec_of_writes` for one command,
`Prog.All.runs_frame` for a program alone.

## Why it is worth a module

An invariant about one family of keys has to be carried through every operation, and nine times
out of ten the reason is that the operation does not write the family.  That is a fact about names
of commands, not about values, so it can be collected once, for all programs, by following their
text.  Each lemma `writes_…` is about one function of the source and uses those of the functions
that it calls; a change of one function changes one lemma.  `Call.writes` is the table that comes
out: for each operation the families it may write.

The same table serves three kinds of results: what a program alone leaves, what a schedule leaves,
and which protocols hold of an operation because none of its commands is of interest to them.
-/

namespace Cococoir
namespace ControlPlane

open Concurrency

/-! ## One command -/

/-- Whether a command on one key only looks at it. -/
def reads {V : Type} : Redis.KeyOp V → Bool
  | .get => true
  | .isThere => true
  | _ => false

/-- The family that a Redis command may write. -/
def RedisOp.writes : RedisOp → Option Family
  | .machine _ op => if reads op then none else some .machine
  | .index op => if op = .lrange then none else some .machineIndex
  | .alloc _ => some .allocCounter
  | .invite _ op => if reads op then none else some .invite
  | .delivery _ op => if reads op then none else some .delivery
  | .account _ op => if reads op then none else some .account
  | .verify _ op => if reads op then none else some .verify
  | .reset _ op => if reads op then none else some .reset
  | .session _ op => if reads op then none else some .session

/-- The family that a command may write. -/
def Cmd.writes : Cmd → Option Family
  | .redis op => op.writes
  | _ => none

/-- The entries of a family are the same in both worlds. -/
def SameFamily (w w' : World) : Family → Prop
  | .machine => w'.machines = w.machines
  | .machineIndex => w'.index = w.index
  | .allocCounter => w'.alloc = w.alloc
  | .invite => w'.invites = w.invites
  | .delivery => w'.deliveries = w.deliveries
  | .account => w'.accounts = w.accounts
  | .verify => w'.verifies = w.verifies
  | .reset => w'.resets = w.resets
  | .session => w'.sessions = w.sessions

theorem SameFamily.refl (w : World) (f : Family) : SameFamily w w f := by
  cases f <;> rfl

theorem SameFamily.trans {u v w : World} {f : Family} (h : SameFamily u v f)
    (h' : SameFamily v w f) : SameFamily u w f := by
  cases f <;> exact Eq.trans h' h

/-- Looking at a key leaves its entry. -/
theorem update_of_reads {V : Type} {op : Redis.KeyOp V} (h : reads op = true) {n : String}
    {f : String → Option V} : Function.update f n (op.exec (f n)).2 = f := by
  cases op with
  | get => exact Function.update_eq_self n f
  | isThere => exact Function.update_eq_self n f
  | _ => cases h

/-- A Redis command leaves the families it does not write. -/
theorem RedisOp.exec_of_writes {op : RedisOp} {f : Family} (h : op.writes ≠ some f) (w : World) :
    SameFamily w (op.exec w).2 f := by
  have hread : ∀ {V : Type} {o : Redis.KeyOp V} {g : Family},
      (if reads o then none else some g) ≠ some g → reads o = true := by
    intro V o g hg
    by_contra hr
    exact hg (if_neg hr)
  cases op with
  | alloc op =>
    cases f with
    | allocCounter => exact absurd rfl h
    | _ => rfl
  | index op =>
    cases f with
    | machineIndex =>
      have : op = .lrange := by
        by_contra hop
        exact h (if_neg hop)
      subst this
      rfl
    | _ => rfl
  | machine n op =>
    cases f with
    | machine => exact update_of_reads (hread h)
    | _ => rfl
  | invite n op =>
    cases f with
    | invite => exact update_of_reads (hread h)
    | _ => rfl
  | delivery n op =>
    cases f with
    | delivery => exact update_of_reads (hread h)
    | _ => rfl
  | account n op =>
    cases f with
    | account => exact update_of_reads (hread h)
    | _ => rfl
  | verify n op =>
    cases f with
    | verify => exact update_of_reads (hread h)
    | _ => rfl
  | reset n op =>
    cases f with
    | reset => exact update_of_reads (hread h)
    | _ => rfl
  | session n op =>
    cases f with
    | session => exact update_of_reads (hread h)
    | _ => rfl

/-- **A family that a command does not write is left.** -/
theorem exec_of_writes {c : Cmd} {f : Family} (h : c.writes ≠ some f) (ch : Choice) (w : World) :
    SameFamily w (Cmd.exec ch c w).2 f := by
  cases c with
  | redis op =>
    rcases exec_redis_cases ch op w with he | he
    · rw [he]
      exact .refl w f
    · rw [he]
      exact op.exec_of_writes h w
  | removeForward fwd => cases f <;> rfl
  | fillBytes n => exact .refl w f
  | _ =>
    simp only [Cmd.exec]
    split_ifs <;> cases f <;> rfl

/-! ## Programs -/

/-- The command writes one of the families, or none. -/
def WritesOnly (fs : List Family) (c : Cmd) : Prop := ∀ f, c.writes = some f → f ∈ fs

theorem WritesOnly.mono {fs gs : List Family} (h : fs ⊆ gs) (c : Cmd) (hc : WritesOnly fs c) :
    WritesOnly gs c := fun f hf => h (hc f hf)

theorem writesOnly_of_none {fs : List Family} {c : Cmd} (h : c.writes = none) :
    WritesOnly fs c := fun f hf => by rw [h] at hf; cases hf

theorem writesOnly_of_some {fs : List Family} {c : Cmd} {f : Family} (hc : c.writes = some f)
    (hf : f ∈ fs) : WritesOnly fs c := fun g hg => by rw [hc] at hg; cases hg; exact hf

variable {cp : ControlPlane} {ε α : Type} {fs : List Family} {w w' : World}

/-- A program alone leaves the families it does not write. -/
theorem runs_sameFamily {p : Edge ε α} (hp : p.All (WritesOnly fs)) {f : Family} (hf : f ∉ fs)
    {good : Cmd → Choice → Prop} {o : Outcome ε α} (h : p.Runs Cmd.exec good w o w') :
    SameFamily w w' f :=
  hp.runs_frame (fun u v => SameFamily u v f) (fun u => .refl u f) SameFamily.trans
    (fun _ ch u hc => exec_of_writes (fun hw => hf (hc f hw)) ch u) h

theorem writes_redis [FromRedis ε] {op : RedisOp} (h : WritesOnly fs (.redis op)) :
    (redis op : Edge ε op.Resp).All (WritesOnly fs) :=
  ⟨h, fun r => by cases r <;> trivial⟩

theorem writes_removeForwards {m : Machine} {ports : List (ℕ × ℕ)} :
    (removeForwards m ports : Edge ε Unit).All (WritesOnly []) := by
  induction ports with
  | nil => trivial
  | cons p ports ih => exact ⟨writesOnly_of_none rfl, fun _ => ih⟩

theorem writes_removeEntry {name : String} :
    (removeEntry name).All (WritesOnly [.machine, .machineIndex]) :=
  (writes_redis (writesOnly_of_some rfl (by simp))).bind fun _ =>
    (writes_redis (writesOnly_of_some rfl (by simp))).bind fun _ => trivial

theorem writes_delete {name : String} :
    (cp.delete name).All (WritesOnly [.machine, .machineIndex]) := by
  refine (writes_redis (writesOnly_of_none rfl)).bind fun json => ?_
  match json with
  | none => trivial
  | some (.corrupt text err) => exact writes_removeEntry
  | some (.json m) =>
    refine Prog.all_issue.mpr ⟨writesOnly_of_none rfl, fun _ => ?_⟩
    refine (writes_removeForwards.mono (WritesOnly.mono (List.nil_subset _))).bind fun _ => ?_
    refine Prog.All.bind ?_ fun _ => writes_removeEntry
    exact ⟨writesOnly_of_none rfl, fun _ => ⟨writesOnly_of_none rfl, fun _ => trivial⟩⟩

theorem writes_listFrom {names : List String} : (listFrom names).All (WritesOnly []) := by
  induction names with
  | nil => trivial
  | cons n names ih =>
    refine (writes_redis (writesOnly_of_none rfl)).bind fun json => ?_
    cases json with
    | none => exact ih
    | some json => exact (Prog.all_ofExcept _).bind fun _ => ih.bind fun _ => trivial

theorem writes_list : list.All (WritesOnly []) :=
  (writes_redis (writesOnly_of_none rfl)).bind fun _ => writes_listFrom

theorem writes_accountUuid {email : String} : (cp.accountUuid email).All (WritesOnly []) := by
  refine (writes_redis (writesOnly_of_none rfl)).bind fun json => ?_
  cases json with
  | none => trivial
  | some json => exact (Prog.all_ofExcept _).bind fun _ => trivial

theorem writes_readAccount {email : String} : (readAccount email).All (WritesOnly []) := by
  refine (writes_redis (writesOnly_of_none rfl)).bind fun json => ?_
  cases json with
  | none => trivial
  | some json => exact (Prog.all_ofExcept _).bind fun _ => trivial

theorem writes_machinesOf {email : String} : (cp.machinesOf email).All (WritesOnly []) := by
  refine Prog.All.bind writes_accountUuid.bimap fun uuid => ?_
  cases uuid with
  | none => trivial
  | some uuid => exact Prog.All.bind writes_list.bimap fun _ => trivial

theorem writes_invitesFrom {email : String} {codes : List String} :
    (invitesFrom email codes).All (WritesOnly []) := by
  induction codes with
  | nil => trivial
  | cons code codes ih =>
    refine (writes_redis (writesOnly_of_none rfl)).bind fun json => ?_
    cases json with
    | none => exact ih
    | some json => exact (Prog.all_ofExcept _).bind fun _ => ih.bind fun _ => trivial

theorem writes_invitesOf {email : String} {pages : ℕ} :
    (invitesOf email pages).All (WritesOnly []) := by
  suffices h : ∀ cursor, (invitesScan email pages cursor).All (WritesOnly []) from h "0"
  induction pages with
  | zero => exact fun _ => trivial
  | succ pages ih =>
    refine fun cursor => ⟨writesOnly_of_none rfl, fun r => ?_⟩
    cases r with
    | error e => trivial
    | ok page =>
      refine writes_invitesFrom.bind fun _ => ?_
      split_ifs
      · trivial
      · exact (ih _).bind fun _ => trivial

theorem writes_deleteMachines {ms : List Machine} :
    (cp.deleteMachines ms).All (WritesOnly [.machine, .machineIndex]) := by
  induction ms with
  | nil => trivial
  | cons m ms ih => exact writes_delete.attempt.bind fun _ => ih

theorem writes_deleteInvites {invites : List (String × InviteRecord)} :
    (deleteInvites invites).All (WritesOnly [.invite]) := by
  induction invites with
  | nil => trivial
  | cons x invites ih =>
    exact (writes_redis (writesOnly_of_some rfl (by simp))).bind fun _ => ih

theorem writes_deleteSessions {email : String} {tokens : List String} :
    (deleteSessions email tokens).All (WritesOnly [.session]) := by
  induction tokens with
  | nil => trivial
  | cons token tokens ih =>
    refine (writes_redis (writesOnly_of_none rfl)).bind fun value => ?_
    split_ifs
    · exact (writes_redis (writesOnly_of_some rfl (by simp))).bind fun _ => ih
    · exact ih

theorem writes_sessionsScan {email : String} {pages : ℕ} {cursor : String} :
    (sessionsScan email pages cursor).All (WritesOnly [.session]) := by
  induction pages generalizing cursor with
  | zero => trivial
  | succ pages ih =>
    refine ⟨writesOnly_of_none rfl, fun r => ?_⟩
    cases r with
    | error e => trivial
    | ok page =>
      refine writes_deleteSessions.bind fun _ => ?_
      split_ifs
      · trivial
      · exact ih

theorem writes_hashPassword {password : String} :
    (cp.hashPassword password).All (WritesOnly []) := by
  rw [hashPassword, Prog.issue_bind]
  refine ⟨writesOnly_of_none rfl, fun salt => ?_⟩
  dsimp only
  split
  · trivial
  · trivial

theorem writes_randomTokenHex : (randomTokenHex : Edge ε String).All (WritesOnly []) :=
  ⟨writesOnly_of_none rfl, fun _ => trivial⟩

theorem writes_accountSignup {email password : String} :
    (cp.accountSignup email password).All (WritesOnly [.account, .verify]) := by
  refine (Prog.all_ofExcept _).bind fun _ => (Prog.all_ofExcept _).bind fun _ => ?_
  refine (writes_redis (writesOnly_of_none rfl)).bind fun isTaken => ?_
  split_ifs
  · trivial
  refine (writes_hashPassword.mono (WritesOnly.mono (List.nil_subset _))).bind fun _ => ?_
  refine Prog.all_issue.mpr ⟨writesOnly_of_none rfl, fun bytes => ?_⟩
  refine (writes_redis (writesOnly_of_some rfl (by simp))).bind fun _ => ?_
  refine (writes_randomTokenHex.mono (WritesOnly.mono (List.nil_subset _))).bind fun token => ?_
  refine (writes_redis (writesOnly_of_some rfl (by simp))).bind fun _ => ?_
  refine Prog.all_issue.mpr ⟨writesOnly_of_none rfl, fun sent => ?_⟩
  cases sent with
  | ok u => trivial
  | error err =>
    refine Prog.all_issue.mpr ⟨writesOnly_of_some rfl (by simp), fun _ => ?_⟩
    exact Prog.all_issue.mpr ⟨writesOnly_of_some rfl (by simp), fun _ => trivial⟩

theorem writes_randomWords {n : ℕ} :
    (cp.randomWords n : Edge ε (List String)).All (WritesOnly []) := by
  induction n with
  | zero => trivial
  | succ n ih =>
    refine Prog.all_issue.mpr ⟨writesOnly_of_none rfl, fun bytes => ?_⟩
    exact (Prog.all_expect _ _).bind fun word => ih.bind fun _ => trivial

/-! ## Machine operations -/

theorem writes_rollbackAllocation {name : String} {m : Machine} :
    (rollbackAllocation name m : Edge ε Unit).All (WritesOnly [.machine, .machineIndex]) := by
  refine Prog.all_issue.mpr ⟨writesOnly_of_some rfl (by simp), fun r => ?_⟩
  cases r with
  | error e => trivial
  | ok hits =>
    refine Prog.all_issue.mpr ⟨writesOnly_of_some rfl (by simp), fun r => ?_⟩
    cases r with
    | error e => trivial
    | ok hits =>
      refine Prog.all_issue.mpr ⟨writesOnly_of_none rfl, fun _ => ?_⟩
      exact writes_removeForwards.mono (WritesOnly.mono (List.nil_subset _))

theorem writes_addForwards {name : String} {m : Machine} {ports : List (ℕ × ℕ)} :
    (addForwards name m ports).All (WritesOnly [.machine, .machineIndex]) := by
  induction ports with
  | nil => trivial
  | cons p ports ih =>
    refine Prog.all_issue.mpr ⟨writesOnly_of_none rfl, fun r => ?_⟩
    cases r with
    | ok u => exact ih
    | error e => exact writes_rollbackAllocation.bind fun _ => trivial

theorem writes_wire {m : Machine} : (cp.wire m).All (WritesOnly [.machine, .machineIndex]) := by
  refine Prog.all_issue.mpr ⟨writesOnly_of_none rfl, fun r => ?_⟩
  cases r with
  | error e => exact writes_rollbackAllocation.bind fun _ => trivial
  | ok u =>
    refine writes_addForwards.bind fun _ => ?_
    exact ⟨writesOnly_of_none rfl, fun _ => ⟨writesOnly_of_none rfl, fun _ => trivial⟩⟩

theorem writes_ensureKey {name key : String} {m : Machine} :
    (ensureKey name key m).All (WritesOnly [.machine]) := by
  unfold ensureKey
  split_ifs
  · exact ⟨writesOnly_of_none rfl, fun _ => trivial⟩
  · refine ⟨writesOnly_of_none rfl, fun _ => ⟨writesOnly_of_none rfl, fun r => ?_⟩⟩
    cases r with
    | error e => trivial
    | ok u => exact (writes_redis (writesOnly_of_some rfl (by simp))).bind fun _ => trivial

theorem writes_allocateFresh {owner : Option String} {name key : String} :
    (cp.allocateFresh owner name key).All
      (WritesOnly [.machine, .machineIndex, .allocCounter]) := by
  unfold allocateFresh
  refine (writes_redis (writesOnly_of_some rfl (by simp))).bind fun _ => ?_
  refine (writes_redis (writesOnly_of_some rfl (by simp))).bind fun i => ?_
  split_ifs
  · trivial
  refine (Prog.all_expect _ _).bind fun ips => ?_
  refine (writes_redis (writesOnly_of_some rfl (by simp))).bind fun set => ?_
  split_ifs
  · refine (writes_redis (writesOnly_of_some rfl (by simp))).bind fun _ => ?_
    exact (writes_wire.mono (WritesOnly.mono (by simp))).bind fun _ => trivial
  · exact (writes_redis (writesOnly_of_some rfl (by simp))).bind fun _ => trivial

theorem writes_edgePublicKey : (cp.edgePublicKey).All (WritesOnly []) := by
  unfold edgePublicKey
  split
  · trivial
  · split_ifs <;> trivial

theorem writes_allocateMachine {owner : Option String} {name key : String} :
    (cp.allocateMachine owner name key).All
      (WritesOnly [.machine, .machineIndex, .allocCounter]) := by
  refine (Prog.all_ofExcept _).bind fun _ => (Prog.all_ofExcept _).bind fun _ => ?_
  refine (writes_redis (writesOnly_of_none rfl)).bind fun existing => ?_
  refine (writes_edgePublicKey.mono (WritesOnly.mono (List.nil_subset _))).bind fun _ => ?_
  cases existing with
  | none => exact writes_allocateFresh.bind fun _ => trivial
  | some json =>
    refine (Prog.all_ofExcept _).bind fun _ => ?_
    exact (writes_ensureKey.mono (WritesOnly.mono (by simp))).bind fun _ => trivial

theorem writes_deviceRegister {token key : String} :
    (cp.deviceRegister token key).All
      (WritesOnly [.machine, .machineIndex, .allocCounter]) := by
  unfold deviceRegister
  split_ifs
  · trivial
  refine (Prog.all_ofExcept _).bind fun _ => ?_
  refine (writes_list.mono (WritesOnly.mono (List.nil_subset _))).bind fun ms => ?_
  split
  · trivial
  · refine writes_allocateMachine.bind fun outcome => ?_
    cases outcome <;> trivial

theorem writes_reconcilePass {domain : String} {ms : List (String × Net.Ipv6Addr)} :
    (reconcilePass domain ms : Edge ε ℕ).All (WritesOnly []) := by
  have hrecord : ∀ {name : String} {ipv6 : Net.Ipv6Addr},
      (reconcileRecord name ipv6 : Edge ε ℕ).All (WritesOnly []) := by
    intro name ipv6
    have hreapply : (reapply name ipv6 : Edge ε ℕ).All (WritesOnly []) :=
      ⟨writesOnly_of_none rfl, fun r => by cases r <;> trivial⟩
    refine ⟨writesOnly_of_none rfl, fun r => ?_⟩
    cases r with
    | error e => exact hreapply
    | ok resolved =>
      show Prog.All _ (if aaaaMatches resolved ipv6 then pure 0 else reapply name ipv6)
      split_ifs
      · trivial
      · exact hreapply
  induction ms with
  | nil => trivial
  | cons m ms ih => exact hrecord.bind fun _ => hrecord.bind fun _ => ih.bind fun _ => trivial

theorem writes_reconcileDnsOnce : cp.reconcileDnsOnce.All (WritesOnly []) :=
  writes_list.bind fun _ => writes_reconcilePass

/-! ## Invite operations -/

theorem writes_inviteCreateFrom {email : String} {retries : ℕ} :
    (cp.inviteCreateFrom email retries).All (WritesOnly [.invite]) := by
  induction retries with
  | zero => trivial
  | succ retries ih =>
    refine Prog.All.bind ?_ fun code => ?_
    · exact (writes_randomWords.mono (WritesOnly.mono (List.nil_subset _))).bind fun _ => trivial
    refine (writes_redis (writesOnly_of_some rfl (by simp))).bind fun set => ?_
    split_ifs
    · trivial
    · exact ih

theorem writes_issueToken {code : String} {m : Machine} :
    (cp.issueToken code m).All (WritesOnly [.machine, .delivery]) := by
  refine (writes_randomTokenHex.mono (WritesOnly.mono (List.nil_subset _))).bind fun token => ?_
  refine Prog.All.bind (writes_redis (writesOnly_of_some rfl (by simp))).bimap fun _ => ?_
  exact writes_redis (writesOnly_of_some rfl (by simp))

theorem writes_readInvite {code : String} : (readInvite code).All (WritesOnly []) := by
  refine (writes_redis (writesOnly_of_none rfl)).bind fun json => ?_
  cases json with
  | none => trivial
  | some json => exact Prog.all_ofExcept _

theorem writes_readOwnInvite {email code : String} :
    (readOwnInvite email code).All (WritesOnly []) := by
  refine writes_readInvite.bind fun r => ?_
  split_ifs <;> trivial

theorem writes_inviteRevoke {email code : String} :
    (cp.inviteRevoke email code).All (WritesOnly [.invite]) := by
  refine (Prog.all_ofExcept _).bind fun c => ?_
  refine (writes_readOwnInvite.mono (WritesOnly.mono (List.nil_subset _))).bind fun r => ?_
  split
  · exact (writes_redis (writesOnly_of_some rfl (by simp))).bind fun _ => trivial
  · exact (writes_redis (writesOnly_of_some rfl (by simp))).bind fun _ => trivial
  · trivial
  · trivial

theorem writes_rearmDelivery {code : String} {r : InviteRecord} :
    (cp.rearmDelivery code r).All (WritesOnly [.machine, .delivery]) := by
  refine (Prog.all_expect _ _).bind fun pubkey => ?_
  refine Prog.All.bind (writes_list.mono (WritesOnly.mono (List.nil_subset _))).bimap fun ms => ?_
  exact (Prog.all_expect _ _).bind fun m => writes_issueToken

theorem writes_inviteBegin {code key : String} :
    (cp.inviteBegin code key).All (WritesOnly [.machine, .delivery, .invite]) := by
  refine (Prog.all_ofExcept _).bind fun c => ?_
  cases cp.validateWgPubkey key with
  | error e => trivial
  | ok u =>
    refine (writes_readInvite.mono (WritesOnly.mono (List.nil_subset _))).bind fun r => ?_
    split
    · split_ifs
      · exact (writes_rearmDelivery.mono (WritesOnly.mono (by simp))).bind fun _ => trivial
      · trivial
    · trivial
    · exact (writes_redis (writesOnly_of_some rfl (by simp))).bind fun _ => trivial
    · exact (writes_redis (writesOnly_of_some rfl (by simp))).bind fun _ => trivial

theorem writes_invitePoll {code : String} :
    (cp.invitePoll code).All (WritesOnly [.delivery]) := by
  refine (Prog.all_ofExcept _).bind fun c => ?_
  refine (writes_readInvite.mono (WritesOnly.mono (List.nil_subset _))).bind fun r => ?_
  split
  · trivial
  · trivial
  · trivial
  · refine (writes_redis (writesOnly_of_some rfl (by simp))).bind fun payload => ?_
    cases payload with
    | none => trivial
    | some payload => exact (Prog.all_ofExcept _).bind fun _ => trivial

theorem writes_inviteApprove {email code name : String} : (cp.inviteApprove email code name).All
    (WritesOnly [.machine, .machineIndex, .allocCounter, .delivery, .invite]) := by
  refine (Prog.all_ofExcept _).bind fun c => ?_
  refine (writes_readOwnInvite.mono (WritesOnly.mono (List.nil_subset _))).bind fun r => ?_
  refine (Prog.all_ofExcept _).bind fun _ => ?_
  cases r.devicePubkey with
  | none => trivial
  | some pubkey =>
    refine Prog.All.bind
      (writes_accountUuid.mono (WritesOnly.mono (List.nil_subset _))).bimap fun uuid => ?_
    refine (Prog.all_expect _ _).bind fun accountUuid => ?_
    refine Prog.All.bind (writes_allocateMachine.mono (WritesOnly.mono (by simp))).bimap
      fun outcome => ?_
    cases outcome with
    | existing resp => trivial
    | created resp =>
      refine (writes_issueToken.mono (WritesOnly.mono (by simp))).bind fun _ => ?_
      exact (writes_redis (writesOnly_of_some rfl (by simp))).bind fun _ => trivial

theorem writes_inviteDeny {email code : String} :
    (cp.inviteDeny email code).All (WritesOnly [.invite]) := by
  refine (Prog.all_ofExcept _).bind fun c => ?_
  refine (writes_readOwnInvite.mono (WritesOnly.mono (List.nil_subset _))).bind fun r => ?_
  exact (Prog.all_ofExcept _).bind fun _ => writes_redis (writesOnly_of_some rfl (by simp))

/-! ## Account operations -/

theorem writes_accountVerify {token : String} :
    (accountVerify token).All (WritesOnly [.account, .verify]) := by
  refine (writes_redis (writesOnly_of_some rfl (by simp))).bind fun email => ?_
  cases email with
  | none => trivial
  | some email =>
    refine (writes_readAccount.mono (WritesOnly.mono (List.nil_subset _))).bind fun account => ?_
    cases account with
    | none => trivial
    | some account => exact writes_redis (writesOnly_of_some rfl (by simp))

theorem writes_accountLogin {email password : String} :
    (cp.accountLogin email password).All (WritesOnly [.session]) := by
  refine (writes_readAccount.mono (WritesOnly.mono (List.nil_subset _))).bind fun account => ?_
  cases account with
  | none => trivial
  | some account =>
    refine (Prog.all_ofExcept _).bind fun isRight => ?_
    split_ifs
    · refine (writes_randomTokenHex.mono (WritesOnly.mono (List.nil_subset _))).bind fun _ => ?_
      exact (writes_redis (writesOnly_of_some rfl (by simp))).bind fun _ => trivial
    · trivial
    · trivial

theorem writes_accountLogout {session : String} :
    (accountLogout session).All (WritesOnly [.session]) :=
  (writes_redis (writesOnly_of_some rfl (by simp))).bind fun _ => trivial

theorem writes_resendVerification {email : String} :
    (cp.resendVerification email).All (WritesOnly [.verify]) := by
  refine (writes_readAccount.mono (WritesOnly.mono (List.nil_subset _))).bind fun account => ?_
  cases account with
  | none => trivial
  | some account =>
    dsimp only
    split_ifs
    · trivial
    refine (writes_randomTokenHex.mono (WritesOnly.mono (List.nil_subset _))).bind fun _ => ?_
    refine (writes_redis (writesOnly_of_some rfl (by simp))).bind fun _ => ?_
    exact ⟨writesOnly_of_none rfl, fun r => by cases r <;> trivial⟩

theorem writes_requestPasswordReset {email : String} :
    (cp.requestPasswordReset email).All (WritesOnly [.reset]) := by
  refine (writes_redis (writesOnly_of_none rfl)).bind fun isKnown => ?_
  split_ifs
  · refine (writes_randomTokenHex.mono (WritesOnly.mono (List.nil_subset _))).bind fun _ => ?_
    refine (writes_redis (writesOnly_of_some rfl (by simp))).bind fun _ => ?_
    exact ⟨writesOnly_of_none rfl, fun r => by cases r <;> trivial⟩
  · trivial

theorem writes_resetPassword {token password : String} :
    (cp.resetPassword token password).All (WritesOnly [.account, .reset]) := by
  refine (Prog.all_ofExcept _).bind fun _ => ?_
  refine (writes_redis (writesOnly_of_some rfl (by simp))).bind fun email => ?_
  cases email with
  | none => trivial
  | some email =>
    refine (writes_readAccount.mono (WritesOnly.mono (List.nil_subset _))).bind fun account => ?_
    cases account with
    | none => trivial
    | some account =>
      refine (writes_hashPassword.mono (WritesOnly.mono (List.nil_subset _))).bind fun _ => ?_
      exact writes_redis (writesOnly_of_some rfl (by simp))

theorem writes_accountDelete {email : String} {pages : ℕ} : (cp.accountDelete email pages).All
    (WritesOnly [.machine, .machineIndex, .invite, .session, .account]) := by
  have hread : ∀ {γ : Type} {p : Edge AccountError γ}, p.All (WritesOnly []) →
      p.All (WritesOnly [.machine, .machineIndex, .invite, .session, .account]) :=
    fun h => h.mono (WritesOnly.mono (List.nil_subset _))
  refine (hread writes_readAccount).bind fun account => ?_
  cases account with
  | none => trivial
  | some account =>
    refine (hread writes_machinesOf.attempt).bind fun ms => ?_
    refine (writes_deleteMachines.mono (WritesOnly.mono (by simp))).bind fun _ => ?_
    refine (hread writes_invitesOf.attempt).bind fun invites => ?_
    refine (writes_deleteInvites.mono (WritesOnly.mono (by simp))).bind fun _ => ?_
    refine (writes_sessionsScan.mono (WritesOnly.mono (by simp))).bind fun _ => ?_
    exact (writes_redis (writesOnly_of_some rfl (by simp))).bind fun _ => trivial

/-! ## All operations -/

/-- The families that an operation writes. -/
def Call.writes : Call → List Family
  | .allocate _ _ _ | .deviceRegister _ _ => [.machine, .machineIndex, .allocCounter]
  | .delete _ => [.machine, .machineIndex]
  | .inviteCreate _ | .inviteRevoke _ _ | .inviteDeny _ _ => [.invite]
  | .inviteBegin _ _ => [.machine, .delivery, .invite]
  | .invitePoll _ => [.delivery]
  | .inviteApprove _ _ _ => [.machine, .machineIndex, .allocCounter, .delivery, .invite]
  | .accountSignup _ _ | .accountVerify _ => [.account, .verify]
  | .accountLogin _ _ | .accountLogout _ => [.session]
  | .resendVerification _ => [.verify]
  | .requestPasswordReset _ => [.reset]
  | .resetPassword _ _ => [.account, .reset]
  | .accountDelete _ _ => [.machine, .machineIndex, .invite, .session, .account]
  | .list | .reconcileDnsOnce | .machinesOf _ | .invitesOf _ _ | .sessionAccount _ => []

/-- **An operation writes its families only.** -/
theorem writes_body (call : Call) : (cp.body call).All (WritesOnly call.writes) := by
  cases call with
  | allocate owner name key => exact writes_allocateMachine.bimap
  | delete name => exact writes_delete.bimap
  | list => exact writes_list.bimap
  | reconcileDnsOnce => exact writes_reconcileDnsOnce.bimap
  | inviteCreate email => exact writes_inviteCreateFrom.bimap
  | inviteRevoke email code => exact writes_inviteRevoke.bimap
  | inviteBegin code key => exact writes_inviteBegin.bimap
  | invitePoll code => exact writes_invitePoll.bimap
  | inviteApprove email code name => exact writes_inviteApprove.bimap
  | inviteDeny email code => exact writes_inviteDeny.bimap
  | deviceRegister token key => exact writes_deviceRegister.bimap
  | machinesOf email => exact writes_machinesOf.bimap
  | invitesOf email pages => exact writes_invitesOf.bimap
  | accountSignup email pw => exact writes_accountSignup.bimap
  | accountVerify token => exact writes_accountVerify.bimap
  | accountLogin email pw => exact writes_accountLogin.bimap
  | accountLogout session => exact writes_accountLogout.bimap
  | sessionAccount session => exact (writes_redis (writesOnly_of_none rfl)).bimap
  | resendVerification email => exact writes_resendVerification.bimap
  | requestPasswordReset email => exact writes_requestPasswordReset.bimap
  | resetPassword token pw => exact writes_resetPassword.bimap
  | accountDelete email pages => exact writes_accountDelete.bimap

end ControlPlane
end Cococoir
