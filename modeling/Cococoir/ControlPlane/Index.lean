import Cococoir.ControlPlane.Alone
import Cococoir.ControlPlane.Schedules
import Mathlib.Data.List.Nodup

/-!
# The machine index

A machine is a record under its name and an entry of the index list.  Allocation writes the
record first and then the entry, deletion removes the record first and then the entry, and
rotation and token issue write the record back from an earlier read.

* `resurrected`: a deletion between the read and the write-back of a rotation leaves a
  record that the index does not list.
* `index_exact`: in every schedule in which a record is written back only over the same
  allocation, and an entry is taken off the index exactly by the call that removed the
  record, whenever no call is in progress the index lists every stored machine once and
  nothing else, and a machine that is gone does not come back.

## Accounts of entries

A record and its entry are written one after the other, so at most moments the list and the
records disagree.  What holds at every moment is about numbers.  For each name, the entries on the
list and those that a call is about to append are at least as many as its records, none or one,
and at most as many more as there are removals that have deleted a record and not yet its entry.
Claiming a name adds a record and an entry to come, appending makes it one that is there,
deleting a record begins a removal, and taking an entry off ends one.  Every other command keeps
each of the numbers.

When nothing is in progress the calls have no part in them, and the list has each stored name
once.  A write-back over a deleted record would add a record without an entry; that is what the
condition excludes, and what the sample does.
-/

namespace Cococoir
namespace ControlPlane

open Concurrency

/-! ## Finished calls owe nothing -/

/-- The programs without Redis failures, followed through the same views. -/
def tidy : Protocol Call Cmd Cmd.Resp View where
  init := View.init
  next := View.next
  ok _ _ := True
  resp c r :=
    match c, r with
    | .redis _, .error _ => False
    | _, _ => True

/-- The commands that neither claim a name, delete a record, nor touch the index. -/
def Cmd.plain : Cmd → Prop
  | .redis (.machine _ op) => op ≠ .del ∧ ∀ x, op ≠ .setNx x
  | .redis (.index op) => op = .lrange
  | _ => True

theorem next_plain (v : View) {c : Cmd} (hc : c.plain) (r : c.Resp) :
    (v.next c r).unlisted = v.unlisted ∧ (v.next c r).removed = v.removed := by
  cases c with
  | redis op =>
    cases r with
    | error e =>
      rw [next_error]
      exact ⟨rfl, rfl⟩
    | ok a =>
      cases op with
      | machine n o =>
        cases o with
        | get =>
          match a with
          | none => exact ⟨rfl, rfl⟩
          | some (.json r) => exact ⟨rfl, rfl⟩
          | some (.corrupt _ _) => exact ⟨rfl, rfl⟩
        | set x => cases x <;> exact ⟨rfl, rfl⟩
        | setNx x => exact absurd rfl (hc.2 x)
        | del => exact absurd rfl hc.1
        | _ => exact ⟨rfl, rfl⟩
      | index o =>
        obtain rfl : o = .lrange := hc
        exact ⟨rfl, rfl⟩
      | alloc o => cases o <;> exact ⟨rfl, rfl⟩
      | invite code o =>
        obtain ⟨_, _, _, h⟩ := next_invite v a
        rw [h]
        exact ⟨rfl, rfl⟩
      | delivery code o =>
        obtain ⟨_, _, h⟩ := next_delivery v a
        rw [h]
        exact ⟨rfl, rfl⟩
      | _ => exact ⟨rfl, rfl⟩
  | _ => exact ⟨rfl, rfl⟩

variable {cp : ControlPlane} {v : View} {ε α : Type}

theorem View.Idle.next (hv : v.Idle) {c : Cmd} (hc : c.plain) (r : c.Resp) : (v.next c r).Idle :=
  ⟨(next_plain v hc r).1.trans hv.unlisted, (next_plain v hc r).2.trans hv.removed⟩

/-- A plain program keeps a call that owes nothing so. -/
theorem tidy_plain {p : Edge ε α} (hp : p.All Cmd.plain) (hv : v.Idle) :
    tidy.Conforms (fun v' _ => v'.Idle) p v := by
  induction p generalizing v with
  | done o => exact hv
  | cmd c k ih => exact ⟨trivial, fun r _ => ih r (hp.2 r) (hv.next hp.1 r)⟩

theorem tidy_bind {β : Type} {p : Edge ε α} {f : α → Edge ε β}
    (hp : tidy.Conforms (fun v' _ => v'.Idle) p v)
    (hf : ∀ v' a, v'.Idle → tidy.Conforms (fun v' _ => v'.Idle) (f a) v') :
    tidy.Conforms (fun v' _ => v'.Idle) (p >>= f) v :=
  hp.bind (fun v' a hv' => hf v' a hv') (fun _ _ h => h) (fun _ _ h => h)

theorem plain_redis [FromRedis ε] {op : RedisOp} (h : (Cmd.redis op).plain) :
    (redis op : Edge ε op.Resp).All Cmd.plain :=
  ⟨h, fun r => by cases r <;> trivial⟩

theorem plain_get {n : String} : (Cmd.redis (.machine n .get)).plain := ⟨nofun, nofun⟩

theorem plain_set {n : String} {x : Stored Machine} : (Cmd.redis (.machine n (.set x))).plain :=
  ⟨nofun, nofun⟩

theorem plain_removeForwards {m : Machine} {ports : List (ℕ × ℕ)} :
    (removeForwards m ports : Edge ε Unit).All Cmd.plain := by
  induction ports with
  | nil => trivial
  | cons p ports ih => exact ⟨trivial, fun _ => ih⟩

/-- Removing the record and then the entry. -/
theorem tidy_rollback {name : String} {m : Machine} (hv : v.Idle) :
    tidy.Conforms (fun v' _ => v'.Idle) (rollbackAllocation name m : Edge ε Unit) v := by
  refine Protocol.conforms_issue.mpr ⟨trivial, fun r hr => ?_⟩
  cases r with
  | error e => exact hr.elim
  | ok hits =>
    refine Protocol.conforms_issue.mpr ⟨trivial, fun r hr => ?_⟩
    cases r with
    | error e => exact hr.elim
    | ok n =>
      refine Protocol.conforms_issue.mpr ⟨trivial, fun r _ => ?_⟩
      exact tidy_plain plain_removeForwards ⟨hv.unlisted, rfl⟩

theorem tidy_removeEntry {name : String} (hv : v.Idle) :
    tidy.Conforms (fun v' _ => v'.Idle) (removeEntry name) v :=
  conforms_redis.mpr ⟨trivial, fun _ _ => conforms_redis.mpr ⟨trivial,
    fun _ _ => ⟨hv.unlisted, rfl⟩, fun _ h => h.elim⟩, fun _ h => h.elim⟩

theorem tidy_addForwards {name : String} {m : Machine} {ports : List (ℕ × ℕ)} (hv : v.Idle) :
    tidy.Conforms (fun v' _ => v'.Idle) (addForwards name m ports) v := by
  induction ports with
  | nil => exact hv
  | cons p ports ih =>
    refine Protocol.conforms_issue.mpr ⟨trivial, fun r _ => ?_⟩
    cases r with
    | ok u => exact ih
    | error e => exact tidy_bind (tidy_rollback hv) fun _ _ h => h

theorem tidy_wire {m : Machine} (hv : v.Idle) :
    tidy.Conforms (fun v' _ => v'.Idle) (cp.wire m) v := by
  refine Protocol.conforms_issue.mpr ⟨trivial, fun r _ => ?_⟩
  cases r with
  | error e => exact tidy_bind (tidy_rollback hv) fun _ _ h => h
  | ok u =>
    refine tidy_bind (tidy_addForwards hv) fun v' _ hv' => tidy_plain ?_ hv'
    exact ⟨trivial, fun _ => ⟨trivial, fun _ => trivial⟩⟩

theorem tidy_allocateFresh {owner : Option String} {name key : String} (hv : v.Idle) :
    tidy.Conforms (fun v' _ => v'.Idle) (cp.allocateFresh owner name key) v := by
  unfold allocateFresh
  refine conforms_redis.mpr ⟨trivial, fun _ _ => ?_, fun _ h => h.elim⟩
  refine conforms_redis.mpr ⟨trivial, fun i _ => ?_, fun _ h => h.elim⟩
  have hv' : View.Idle { v with host := .pending i } := ⟨hv.unlisted, hv.removed⟩
  split_ifs
  · exact hv'
  refine conforms_expect.mpr ⟨fun ips _ => ?_, fun _ => hv'⟩
  refine conforms_redis.mpr ⟨trivial, fun set _ => ?_, fun _ h => h.elim⟩
  cases set with
  | false =>
    exact conforms_redis.mpr ⟨trivial, fun _ _ => ⟨hv.unlisted, hv.removed⟩, fun _ h => h.elim⟩
  | true =>
    refine conforms_redis.mpr ⟨trivial, fun _ _ => ?_, fun _ h => h.elim⟩
    exact tidy_bind (tidy_wire ⟨rfl, hv.removed⟩) fun _ _ h => h

theorem plain_ensureKey {name key : String} {m : Machine} :
    (ensureKey name key m).All Cmd.plain := by
  unfold ensureKey
  split_ifs
  · exact Prog.all_issue.mpr ⟨trivial, fun _ => trivial⟩
  · refine Prog.all_issue.mpr ⟨trivial, fun _ => Prog.all_issue.mpr ⟨trivial, fun r => ?_⟩⟩
    cases r with
    | error e => trivial
    | ok u => exact Prog.All.bind (plain_redis plain_set) fun _ => trivial

theorem plain_edgePublicKey : cp.edgePublicKey.All Cmd.plain := by
  unfold edgePublicKey
  split
  · trivial
  · split_ifs <;> trivial

theorem tidy_allocateMachine {owner : Option String} {name key : String} (hv : v.Idle) :
    tidy.Conforms (fun v' _ => v'.Idle) (cp.allocateMachine owner name key) v := by
  unfold allocateMachine
  refine tidy_bind (tidy_plain (Prog.all_ofExcept _) hv) fun v _ hv => ?_
  refine tidy_bind (tidy_plain (Prog.all_ofExcept _) hv) fun v _ hv => ?_
  refine tidy_bind (tidy_plain (plain_redis plain_get) hv) fun v existing hv => ?_
  refine tidy_bind (tidy_plain plain_edgePublicKey hv) fun v _ hv => ?_
  cases existing with
  | none => exact tidy_bind (tidy_allocateFresh hv) fun _ _ h => h
  | some json =>
    refine tidy_bind (tidy_plain (Prog.all_ofExcept _) hv) fun v m hv => ?_
    exact tidy_bind (tidy_plain plain_ensureKey hv) fun _ _ h => h

theorem plain_listFrom {names : List String} : (listFrom names).All Cmd.plain := by
  induction names with
  | nil => trivial
  | cons n names ih =>
    refine Prog.All.bind (plain_redis plain_get) fun json => ?_
    cases json with
    | none => exact ih
    | some json => exact (Prog.all_ofExcept _).bind fun m => ih.bind fun _ => trivial

theorem plain_removeMachine {name domain : String} :
    (removeMachine name domain : Edge ε _).All Cmd.plain :=
  ⟨trivial, fun _ => ⟨trivial, fun _ => trivial⟩⟩

theorem plain_list : list.All Cmd.plain := Prog.All.bind (plain_redis rfl) fun _ => plain_listFrom

theorem tidy_delete {name : String} (hv : v.Idle) :
    tidy.Conforms (fun v' _ => v'.Idle) (cp.delete name) v := by
  refine tidy_bind (tidy_plain (plain_redis plain_get) hv) fun v json hv => ?_
  match json with
  | none => exact hv
  | some (.corrupt text err) => exact tidy_removeEntry hv
  | some (.json m) =>
    refine Protocol.conforms_issue.mpr ⟨trivial, fun _ _ => ?_⟩
    refine tidy_bind (tidy_plain plain_removeForwards ⟨hv.unlisted, hv.removed⟩) fun v _ hv => ?_
    refine tidy_bind (tidy_plain plain_removeMachine hv) fun v _ hv => ?_
    exact tidy_removeEntry hv

theorem plain_readInvite {code : String} : (readInvite code).All Cmd.plain := by
  refine Prog.All.bind (plain_redis trivial) fun json => ?_
  cases json with
  | none => trivial
  | some json => exact Prog.all_ofExcept _

theorem plain_readOwnInvite {email code : String} : (readOwnInvite email code).All Cmd.plain := by
  refine plain_readInvite.bind fun r => ?_
  split_ifs <;> trivial

theorem plain_accountUuid {email : String} : (cp.accountUuid email).All Cmd.plain := by
  refine Prog.All.bind (plain_redis trivial) fun json => ?_
  cases json with
  | none => trivial
  | some json => exact (Prog.all_ofExcept _).bind fun _ => trivial

theorem plain_issueToken {code : String} {m : Machine} :
    (cp.issueToken code m).All Cmd.plain := by
  refine Prog.All.bind (f := fun token => _) ⟨trivial, fun _ => trivial⟩ fun token => ?_
  refine Prog.All.bind (Prog.All.bimap (plain_redis plain_set)) fun _ => ?_
  exact plain_redis trivial

theorem plain_rearmDelivery {code : String} {r : InviteRecord} :
    (cp.rearmDelivery code r).All Cmd.plain := by
  refine (Prog.all_expect _ _).bind fun _ => ?_
  refine plain_list.bimap.bind fun ms => ?_
  exact (Prog.all_expect _ _).bind fun m => plain_issueToken

/-- **A finished call owes nothing**: without Redis failures, the names it claimed are listed
and the records it removed are off the list. -/
theorem body_tidy {call : Call} (h : call.enrolls) :
    tidy.Conforms (fun v _ => v.Idle) (cp.body call) (View.init call) := by
  have hv : (View.init call).Idle := ⟨rfl, rfl⟩
  cases call with
  | allocate owner name key => exact (tidy_allocateMachine hv).bimap fun _ _ h => h
  | delete name => exact (tidy_delete hv).bimap fun _ _ h => h
  | inviteRevoke email code =>
    refine tidy_plain (Prog.All.bimap ?_) hv
    refine (Prog.all_ofExcept _).bind fun c => plain_readOwnInvite.bind fun r => ?_
    cases r.status with
    | dormant | waiting => exact Prog.All.bind (plain_redis trivial) fun _ => trivial
    | approved | denied => trivial
  | inviteBegin code key =>
    refine tidy_plain (Prog.All.bimap ?_) hv
    refine (Prog.all_ofExcept _).bind fun c => ?_
    split
    · trivial
    refine plain_readInvite.bind fun r => ?_
    cases r.status with
    | approved =>
      dsimp only
      split_ifs
      · exact plain_rearmDelivery.bind fun _ => trivial
      · trivial
    | denied => trivial
    | dormant | waiting => exact Prog.All.bind (plain_redis trivial) fun _ => trivial
  | invitePoll code =>
    refine tidy_plain (Prog.All.bimap ?_) hv
    refine (Prog.all_ofExcept _).bind fun c => plain_readInvite.bind fun r => ?_
    cases r.status with
    | approved =>
      refine Prog.All.bind (plain_redis trivial) fun payload => ?_
      cases payload with
      | none => trivial
      | some payload => exact (Prog.all_ofExcept _).bind fun _ => trivial
    | _ => trivial
  | inviteApprove email code name =>
    refine Protocol.Conforms.bimap ?_ fun _ _ h => h
    unfold inviteApprove
    refine tidy_bind (tidy_plain (Prog.all_ofExcept _) hv) fun v c hv => ?_
    refine tidy_bind (tidy_plain plain_readOwnInvite hv) fun v r hv => ?_
    refine tidy_bind (tidy_plain (Prog.all_ofExcept _) hv) fun v _ hv => ?_
    split
    · exact hv
    refine tidy_bind (tidy_plain plain_accountUuid.bimap hv) fun v uuid hv => ?_
    refine tidy_bind (tidy_plain (Prog.all_expect _ _) hv) fun v uuid hv => ?_
    refine (tidy_allocateMachine hv).mapErr_bind (fun v outcome hv => ?_) (fun _ _ h => h)
      (fun _ _ h => h)
    cases outcome with
    | existing resp => exact hv
    | created resp =>
      refine tidy_bind (tidy_plain plain_issueToken hv) fun v _ hv => ?_
      exact tidy_plain (Prog.All.bind (plain_redis trivial) fun _ => trivial) hv
  | inviteDeny email code =>
    refine tidy_plain (Prog.All.bimap ?_) hv
    refine (Prog.all_ofExcept _).bind fun c => plain_readOwnInvite.bind fun r => ?_
    exact (Prog.all_ofExcept _).bind fun _ => plain_redis trivial
  | deviceRegister token key =>
    refine Protocol.Conforms.bimap ?_ fun _ _ h => h
    unfold deviceRegister
    split_ifs
    · exact hv
    refine tidy_bind (tidy_plain (Prog.all_ofExcept _) hv) fun v _ hv => ?_
    refine tidy_bind (tidy_plain plain_list hv) fun v ms hv => ?_
    split
    · exact hv
    refine tidy_bind (tidy_allocateMachine hv) fun v outcome hv => ?_
    cases outcome <;> exact hv
  | _ => cases h

/-! ## Entries, records and removals in progress -/

/-- Whether a name has a record, as a number. -/
def records (w : World) (n : String) : ℤ := if (w.machines n).isSome then 1 else 0

/-- The entries of a name: those on the list, and those that a call is about to append. -/
def entries (w : World) (vs : List View) (n : String) : ℤ :=
  w.index.count n + (vs.map fun v => if v.unlisted = some n then (1 : ℤ) else 0).sum

/-- The calls between the `DEL` of a name's record and the `LREM` of its entry. -/
def removers (vs : List View) (n : String) : ℤ :=
  (vs.map fun v => if v.removed.map Prod.fst = some n then (1 : ℤ) else 0).sum

/-- The record is stored for the same addresses that are written. -/
def sameAllocation : Option (Stored Machine) → Stored Machine → Bool
  | some (.json s), .json m => s.ipv6 = m.ipv6
  | _, _ => false

/-- What is asked of one command: a Redis command succeeds, a record is written back over the
same allocation, and the entry of a name is taken off the list while the name has an entry too
many, but is not missed by the last call that could. -/
def indexStep (σ : Server) (ch : Choice) : Cmd → Bool
  | .redis (.machine n (.set x)) => !ch.fails && sameAllocation (σ.world.machines n) x
  | .redis (.index (.lrem n)) =>
    !ch.fails &&
      if n ∈ σ.world.index then decide (records σ.world n < entries σ.world (views σ) n)
      else decide (entries σ.world (views σ) n < records σ.world n + removers (views σ) n)
  | .redis _ => !ch.fails
  | _ => true

/-- Enrollment operations whose commands meet `indexStep`. -/
def KeepsIndex (σ : Server) : Tick → Prop
  | .start call => call.enrolls
  | .step i ch => ∀ t ∈ σ.pool[i]?, ∀ c ∈ t.pending, indexStep σ ch c

instance : ∀ σ e, Decidable (KeepsIndex σ e)
  | _, .start call => inferInstanceAs (Decidable (call.enrolls = true))
  | σ, .step i ch => inferInstanceAs (Decidable (∀ t ∈ σ.pool[i]?, ∀ c ∈ t.pending,
      indexStep σ ch c = true))

/-- Every name has an entry for its record, and one more at most for each removal in
progress. -/
structure IndexAccounted (w : World) (vs : List View) : Prop where
  stored : ∀ n x, w.machines n = some x → ∃ m, x = .json m
  covered : ∀ n, records w n ≤ entries w vs n
  spare : ∀ n, entries w vs n ≤ records w n + removers vs n

section Accounts

variable {w w' : World} {vs : List View} {i : ℕ} {v' : View}

theorem entries_set {n : String} (hvi : vs[i]? = some v) :
    entries w' (vs.set i v') n =
      w'.index.count n + (entries w vs n - w.index.count n) -
        (if v.unlisted = some n then 1 else 0) + (if v'.unlisted = some n then 1 else 0) := by
  unfold entries
  rw [sum_map_set _ hvi]
  ring

theorem removers_set {n : String} (hvi : vs[i]? = some v) :
    removers (vs.set i v') n = removers vs n -
      (if v.removed.map Prod.fst = some n then 1 else 0) +
        (if v'.removed.map Prod.fst = some n then 1 else 0) := by
  unfold removers
  rw [sum_map_set _ hvi]

/-- A step that changes neither which names have records nor the list, nor what the call
owes. -/
theorem IndexAccounted.frame (h : IndexAccounted w vs) (hvi : vs[i]? = some v)
    (hstored : ∀ n x, w'.machines n = some x → ∃ m, x = .json m)
    (hmachines : ∀ n, (w'.machines n).isSome = (w.machines n).isSome)
    (hindex : w'.index = w.index)
    (hv : v'.unlisted = v.unlisted ∧ v'.removed = v.removed) :
    IndexAccounted w' (vs.set i v') := by
  have hrecords : ∀ n, records w' n = records w n := fun n => by rw [records, hmachines n, records]
  have hentries : ∀ n, entries w' (vs.set i v') n = entries w vs n := by
    intro n
    rw [entries_set (w := w) hvi, hv.1, hindex]
    ring
  have hremovers : ∀ n, removers (vs.set i v') n = removers vs n := by
    intro n
    rw [removers_set hvi, hv.2]
    ring
  refine ⟨hstored, fun n => ?_, fun n => ?_⟩
  · rw [hrecords, hentries]
    exact h.covered n
  · rw [hrecords, hentries, hremovers]
    exact h.spare n

theorem records_update {n n' : String} {x : Option (Stored Machine)}
    (h : w'.machines = Function.update w.machines n x) :
    records w' n' = if n' = n then (if x.isSome then 1 else 0) else records w n' := by
  unfold records
  rw [h]
  by_cases hn : n' = n
  · subst hn
    rw [Function.update_self, if_pos rfl]
  · rw [Function.update_of_ne hn, if_neg hn]

/-- Writing a record back over a stored one. -/
theorem IndexAccounted.write (h : IndexAccounted w vs) (hvi : vs[i]? = some v) {n : String}
    {m : Machine} (hsome : (w.machines n).isSome)
    (hmachines : w'.machines = Function.update w.machines n (some (.json m)))
    (hindex : w'.index = w.index) (hv : v'.unlisted = v.unlisted ∧ v'.removed = v.removed) :
    IndexAccounted w' (vs.set i v') := by
  refine h.frame hvi
    (Decoded.update h.stored (fun y hy => ⟨m, (Option.some.inj hy).symm⟩) hmachines)
    (fun n' => ?_) hindex hv
  rw [hmachines]
  by_cases hn : n' = n
  · subst hn
    rw [Function.update_self, hsome]
    rfl
  · rw [Function.update_of_ne hn]

/-- Claiming a free name: a record, and an entry about to be appended. -/
theorem IndexAccounted.claim (h : IndexAccounted w vs) (hvi : vs[i]? = some v) {m : Machine}
    {n : String} (hfree : w.machines n = none)
    (hmachines : w'.machines = Function.update w.machines n (some (.json m)))
    (hindex : w'.index = w.index) (hunlisted : v.unlisted = none)
    (hv : v'.unlisted = some n ∧ v'.removed = v.removed) : IndexAccounted w' (vs.set i v') := by
  refine ⟨Decoded.update h.stored (fun y hy => ⟨m, (Option.some.inj hy).symm⟩) hmachines,
    fun n' => ?_, fun n' => ?_⟩
  all_goals
    have hremovers : removers (vs.set i v') n' = removers vs n' := by
      rw [removers_set hvi, hv.2]
      ring
    rw [records_update hmachines, entries_set (w := w) hvi, hindex, hunlisted, hv.1]
    have h₁ := h.covered n'
    have h₂ := h.spare n'
    by_cases hn : n' = n
    · subst hn
      simp only [records, hfree, Option.isSome_none, Option.isSome_some, if_true] at h₁ h₂ ⊢
      simp only [reduceCtorEq, if_false] at h₁ h₂ ⊢
      omega
    · simp only [hn, Ne.symm hn, Option.some.injEq, reduceCtorEq, if_false]
      omega

/-- Appending the entry. -/
theorem IndexAccounted.enlist (h : IndexAccounted w vs) (hvi : vs[i]? = some v) {n : String}
    (hmachines : w'.machines = w.machines) (hindex : w'.index = w.index ++ [n])
    (hunlisted : v.unlisted = some n) (hv : v'.unlisted = none ∧ v'.removed = v.removed) :
    IndexAccounted w' (vs.set i v') := by
  have hentries : ∀ n', entries w' (vs.set i v') n' = entries w vs n' := by
    intro n'
    rw [entries_set (w := w) hvi, hindex, hunlisted, hv.1, List.count_append, List.count_singleton]
    by_cases hn : n = n'
    · subst hn
      simp only [if_true, beq_self_eq_true, Nat.cast_add, Nat.cast_one, reduceCtorEq, if_false]
      ring
    · simp [hn]
  have hremovers : ∀ n, removers (vs.set i v') n = removers vs n := by
    intro n
    rw [removers_set hvi, hv.2]
    ring
  have hrecords : ∀ n, records w' n = records w n := fun n => by rw [records, hmachines, records]
  refine ⟨hmachines ▸ h.stored, fun n' => ?_, fun n' => ?_⟩
  · rw [hrecords, hentries]
    exact h.covered n'
  · rw [hrecords, hentries, hremovers]
    exact h.spare n'

/-- Deleting the record of a name. -/
theorem IndexAccounted.drop (h : IndexAccounted w vs) (hvi : vs[i]? = some v) {n : String}
    {hit : Bool} (hmachines : w'.machines = Function.update w.machines n none)
    (hindex : w'.index = w.index) (hremoved : v.removed = none)
    (hv : v'.unlisted = v.unlisted ∧ v'.removed = some (n, hit)) :
    IndexAccounted w' (vs.set i v') := by
  have hle : ∀ n, records w n ≤ 1 := fun n => by
    unfold records
    split_ifs <;> omega
  refine ⟨Decoded.update h.stored (fun _ hy => by cases hy) hmachines, fun n' => ?_, fun n' => ?_⟩
  all_goals
    have hremovers : removers (vs.set i v') n' = _ := removers_set hvi
    rw [hremoved, hv.2] at hremovers
    rw [records_update hmachines, entries_set (w := w) hvi, hindex, hv.1]
    have h₁ := h.covered n'
    have h₂ := h.spare n'
    have h₃ := hle n'
    have h₄ : 0 ≤ records w n' := by
      unfold records
      split_ifs <;> omega
    by_cases hn : n' = n
    · subst hn
      simp at hremovers ⊢
      omega
    · simp [hn, Ne.symm hn] at hremovers ⊢
      omega

/-- Taking an entry off the list. -/
theorem IndexAccounted.unlist (h : IndexAccounted w vs) (hvi : vs[i]? = some v) {n : String}
    {hit : Bool} (hmachines : w'.machines = w.machines) (hindex : w'.index = w.index.erase n)
    (hremoved : v.removed = some (n, hit))
    (hone : if n ∈ w.index then records w n < entries w vs n
      else entries w vs n < records w n + removers vs n)
    (hv : v'.unlisted = v.unlisted ∧ v'.removed = none) : IndexAccounted w' (vs.set i v') := by
  have hrecords : ∀ n, records w' n = records w n := fun n => by rw [records, hmachines, records]
  refine ⟨hmachines ▸ h.stored, fun n' => ?_, fun n' => ?_⟩
  all_goals
    have hremovers : removers (vs.set i v') n' = _ := removers_set hvi
    rw [hremoved, hv.2] at hremovers
    rw [hrecords, entries_set (w := w) hvi, hindex, hv.1]
    have h₁ := h.covered n'
    have h₂ := h.spare n'
    by_cases hn : n' = n
    · subst hn
      split_ifs at hone with hmem
      · have hpos := List.count_pos_iff.mpr hmem
        rw [List.count_erase_self]
        simp at hremovers ⊢
        omega
      · rw [List.erase_of_not_mem hmem]
        simp at hremovers ⊢
        omega
    · rw [List.count_erase_of_ne hn]
      simp [Ne.symm hn] at hremovers ⊢
      omega

end Accounts

/-! ## Every admitted step -/

/-- Commands on other families leave which names are claimed or removed. -/
theorem plain_of_move {op : RedisOp} (hmachine : ∀ n o, op ≠ .machine n o)
    (hindex : ∀ o, op ≠ .index o) : (Cmd.redis op).plain := by
  cases op with
  | machine n o => exact absurd rfl (hmachine n o)
  | index o => exact absurd rfl (hindex o)
  | _ => trivial

theorem sameAllocation_isSome {cell : Option (Stored Machine)} {x : Stored Machine}
    (h : sameAllocation cell x) : cell.isSome := by
  cases cell with
  | none => cases h
  | some y => rfl

/-- The condition on the command that a call issues next. -/
theorem KeepsIndex.indexStep {σ : Server} {i : ℕ} {ch : Choice} {t : Handler} {c : Cmd}
    (h : KeepsIndex σ (.step i ch)) (hi : σ.pool[i]? = some t) (ht : t.pending = some c) :
    indexStep σ ch c := h t hi c ht

/-- **Every admitted step keeps the accounts.** -/
theorem indexAccounted_checks : Checks cp KeepsIndex IndexAccounted where
  enrolls _ _ h := h
  start σ call _ h := by
    have hentries : ∀ n, entries σ.world (views σ ++ [View.init call]) n =
        entries σ.world (views σ) n := by
      intro n
      simp [entries, View.init]
    have hremovers : ∀ n, removers (views σ ++ [View.init call]) n = removers (views σ) n := by
      intro n
      simp [removers, View.init]
    refine ⟨h.stored, fun n => ?_, fun n => ?_⟩
    · rw [hentries]
      exact h.covered n
    · rw [hentries, hremovers]
      exact h.spare n
  outside token _ hstore hvi h :=
    h.frame hvi (hstore.machines ▸ h.stored) (fun n => by rw [hstore.machines]) hstore.index
      ⟨rfl, rfl⟩
  redis σ i ch t op hallowed _ hi hpend hmove hnamed h := by
    have hvi : (views σ)[i]? = some (view t) := Protocol.getElem?_states (P := moves cp) hi
    have hstep : indexStep σ ch (.redis op) := hallowed.indexStep hi hpend
    cases hmove with
    | outside h => exact absurd rfl (h op)
    | @readMachine n =>
      have hsame : ((RedisOp.machine n .get).exec σ.world).2 = σ.world := by
        rw [exec_machine_get]
      rw [hsame]
      exact h.frame hvi h.stored (fun _ => rfl) rfl (next_plain _ plain_get _)
    | @claim z m hhost htwo hips _ hlisted =>
      cases hx : σ.world.machines m.name with
      | none =>
        rw [exec_claim hx]
        exact h.claim (m := m) hvi hx rfl rfl hlisted ⟨rfl, rfl⟩
      | some x =>
        rw [exec_claim_of_some hx]
        exact h.frame hvi h.stored (fun _ => rfl) rfl ⟨rfl, rfl⟩
    | @enlist n hunlisted => exact h.enlist hvi rfl rfl hunlisted ⟨rfl, rfl⟩
    | rotate _ _ =>
      exact h.write hvi (sameAllocation_isSome (Bool.and_eq_true_iff.mp hstep).2) rfl rfl
        ⟨rfl, rfl⟩
    | attach _ _ _ =>
      exact h.write hvi (sameAllocation_isSome (Bool.and_eq_true_iff.mp hstep).2) rfl rfl
        ⟨rfl, rfl⟩
    | @drop n hremoved =>
      exact h.drop hvi (by simp [RedisOp.exec]) rfl hremoved ⟨rfl, rfl⟩
    | @unlist n hit hremoved =>
      refine h.unlist hvi rfl rfl hremoved ?_ ⟨rfl, rfl⟩
      have hone := (Bool.and_eq_true_iff.mp hstep).2
      split_ifs at hone ⊢ with hmem
      · exact of_decide_eq_true hone
      · exact of_decide_eq_true hone
    | readIndex => exact h.frame hvi h.stored (fun _ => rfl) rfl (next_plain _ (c := .redis (.index .lrange)) rfl _)
    | _ =>
      exact h.frame hvi h.stored (fun _ => rfl) rfl
        (next_plain _ (plain_of_move (by simp) (by simp)) _)

/-! ## The index when nothing is in progress -/

/-- The index lists every name that has a record, once, and nothing else. -/
def IndexExact (w : World) : Prop := w.index.Nodup ∧ ∀ n, n ∈ w.index ↔ w.machines n ≠ none

/-- Every accepted call has returned. -/
def Quiet (σ : Server) : Prop := ∀ t ∈ σ.pool, t.result.isSome

instance (σ : Server) : Decidable (Quiet σ) :=
  inferInstanceAs (Decidable (∀ t ∈ σ.pool, t.result.isSome = true))

theorem sum_map_eq_zero {f : View → ℤ} {vs : List View} (h : ∀ v ∈ vs, f v = 0) :
    (vs.map f).sum = 0 := by
  refine List.sum_eq_zero fun x hx => ?_
  obtain ⟨v, hv, rfl⟩ := List.mem_map.mp hx
  exact h v hv

theorem IndexAccounted.exact {w : World} {vs : List View} (h : IndexAccounted w vs)
    (hidle : ∀ v ∈ vs, v.Idle) : IndexExact w := by
  have hcount : ∀ n, (w.index.count n : ℤ) = records w n := by
    intro n
    have hentries : entries w vs n = w.index.count n := by
      rw [entries, sum_map_eq_zero fun v hv => by rw [(hidle v hv).unlisted]; rfl, add_zero]
    have hremovers : removers vs n = 0 :=
      sum_map_eq_zero fun v hv => by rw [(hidle v hv).removed]; rfl
    have h₁ := h.covered n
    have h₂ := h.spare n
    omega
  refine ⟨List.nodup_iff_count_le_one.mpr fun n => ?_, fun n => ?_⟩
  · have := hcount n
    unfold records at this
    split_ifs at this <;> omega
  · rw [← List.count_pos_iff, ← Option.isSome_iff_ne_none]
    have := hcount n
    unfold records at this
    split_ifs at this with hsome
    · exact ⟨fun _ => hsome, fun _ => by omega⟩
    · exact ⟨fun hpos => absurd hpos (by omega), fun h => absurd h hsome⟩

/-- Every finished call of an admitted schedule owes nothing. -/
theorem idle_of_quiet {w : World} {ticks : List Tick}
    (hadm : Server.Admissible cp KeepsIndex ⟨w, []⟩ ticks)
    (hquiet : Quiet (Server.run cp ⟨w, []⟩ ticks)) :
    ∀ v ∈ views (Server.run cp ⟨w, []⟩ ticks), v.Idle := by
  have hsteps : Protocol.Steps tidy Cmd.exec cp.body KeepsIndex (fun v _ => v.Idle)
      fun _ _ => True := by
    refine ⟨fun σ call hcall => body_tidy hcall, fun _ _ _ _ => trivial, ?_⟩
    intro σ i ch t c k hallowed hi ht _ _
    refine ⟨?_, trivial⟩
    have hstep := hallowed.indexStep hi (c := c) (by rw [Thread.pending, ht])
    cases c with
    | redis op =>
      have hok : ch.fails = false := by
        unfold indexStep at hstep
        split at hstep
        · simpa using (Bool.and_eq_true_iff.mp hstep).1
        · simpa using (Bool.and_eq_true_iff.mp hstep).1
        · simpa using hstep
        · rename_i h
          exact absurd rfl (h op)
      rw [exec_redis_of_not_fails hok]
      trivial
    | _ => trivial
  have hkeeps := hsteps.run_keeps (Protocol.keeps_nil (w := w) trivial) hadm
  intro v hv
  obtain ⟨t, ht, rfl⟩ := List.mem_map.mp hv
  obtain ⟨o, ho⟩ := Option.isSome_iff_exists.mp (hquiet t ht)
  exact hkeeps.fin_of_result ht ho

/-- Listing the stored machines, each once. -/
theorem mem_listed {w : World} (hw : Named w) (hindex : IndexExact w) {m : Machine} :
    m ∈ listed w ↔ w.machines m.name = some (.json m) := by
  unfold listed
  rw [List.mem_filterMap]
  constructor
  · rintro ⟨n, -, hm⟩
    have hm := machineAt_eq_some.mp hm
    rw [hw n m hm]
    exact hm
  · intro hm
    exact ⟨m.name, (hindex.2 m.name).mpr (by simp [hm]), machineAt_eq_some.mpr hm⟩

theorem nodup_listed {w : World} (hw : Named w) (hindex : w.index.Nodup) : (listed w).Nodup := by
  refine List.Nodup.filterMap (fun n n' m hm hm' => ?_) hindex
  have hn := hw n m (machineAt_eq_some.mp hm)
  have hn' := hw n' m (machineAt_eq_some.mp hm')
  exact hn.symm.trans hn'

/-! ## What is deleted stays deleted -/

/-- The machine of a name with a certain address is stored. -/
def StoredAt (w : World) (n ipv6 : String) : Prop :=
  ∃ m, w.machines n = some (.json m) ∧ m.ipv6 = ipv6

/-- The event is a claim of the name with that address. -/
def claims (σ : Server) (n ipv6 : String) : Tick → Bool
  | .start _ => false
  | .step i _ =>
    match σ.pool[i]? with
    | none => false
    | some t =>
      match t.pending with
      | some (.redis (.machine n' (.setNx (.json m)))) => n' = n && m.ipv6 = ipv6
      | _ => false

theorem storedAt_update {w w' : World} {n n' ipv6 : String} {x : Option (Stored Machine)}
    (hmachines : w'.machines = Function.update w.machines n x)
    (hx : n' = n → ∀ m, x = some (.json m) → m.ipv6 ≠ ipv6)
    (h : ¬StoredAt w n' ipv6) : ¬StoredAt w' n' ipv6 := by
  rintro ⟨m, hm, haddr⟩
  rcases update_cases (hmachines ▸ hm) with ⟨hn, hm⟩ | ⟨-, hm⟩
  · exact hx hn m hm haddr
  · exact h ⟨m, hm, haddr⟩

/-- Writing a record back over the same allocation does not bring another one back. -/
theorem not_storedAt_of_same {w : World} {n n' ipv6 : String} {m : Machine}
    (hsame : sameAllocation (w.machines n) (.json m)) (h : ¬StoredAt w n' ipv6) :
    n' = n → ∀ x, some (Stored.json m) = some (.json x) → x.ipv6 ≠ ipv6 := by
  rintro rfl x hx haddr
  cases hx
  unfold sameAllocation at hsame
  split at hsame
  · rename_i s _ hs hm
    cases hm
    exact h ⟨s, hs, (of_decide_eq_true hsame).trans haddr⟩
  · cases hsame

/-- **A machine that is gone stays gone**, until a call claims its name with its address. -/
theorem goneStays_checks (n ipv6 : String) :
    Checks cp (fun σ e => KeepsIndex σ e ∧ claims σ n ipv6 e = false)
      (fun w _ => ¬StoredAt w n ipv6) where
  enrolls _ _ h := h.1
  start _ _ _ h := h
  outside token _ hstore _ h := by
    rintro ⟨m, hm, haddr⟩
    exact h ⟨m, hstore.machines ▸ hm, haddr⟩
  redis σ i ch t op hallowed _ hi hpend hmove _ h := by
    have hstep : indexStep σ ch (.redis op) := hallowed.1.indexStep hi hpend
    have hclaims := hallowed.2
    simp only [claims, hi, hpend] at hclaims
    cases hmove with
    | outside h => exact absurd rfl (h op)
    | readMachine =>
      rw [exec_machine_get]
      exact h
    | @claim z m _ _ _ _ _ =>
      refine storedAt_update rfl ?_ h
      rintro rfl x hx haddr
      rw [Redis.exec_setNx] at hx
      cases hm : σ.world.machines m.name with
      | none =>
        rw [hm] at hx
        cases hx
        simp [haddr] at hclaims
      | some y =>
        rw [hm] at hx
        exact h ⟨x, hm.trans hx, haddr⟩
    | rotate _ _ =>
      exact storedAt_update rfl (not_storedAt_of_same (Bool.and_eq_true_iff.mp hstep).2 h) h
    | attach _ _ _ =>
      exact storedAt_update rfl (not_storedAt_of_same (Bool.and_eq_true_iff.mp hstep).2 h) h
    | drop _ =>
      refine storedAt_update rfl (fun _ x hx => ?_) h
      simp at hx
    | _ => exact h

/-! ## The index in reachable states -/

/-- A machine is allocated; a rotation of its key reads the record, a deletion runs from its
beginning to its end, and the rotation writes the record back. -/
def resurrection : List Tick :=
  .start (.allocate none "kitchen" keyA) :: List.replicate 10 (.step 0 {}) ++
    [.start (.allocate none "kitchen" keyB), .step 1 {}] ++
    .start (.delete "kitchen") :: List.replicate 8 (.step 2 {}) ++ List.replicate 3 (.step 1 {})

/-- After the resurrection nothing is in progress, and a machine is stored that the index does
not list. -/
theorem resurrected :
    ¬(Quiet (Server.run sample ⟨World.empty, []⟩ resurrection) →
      IndexExact (Server.run sample ⟨World.empty, []⟩ resurrection).world) := by
  intro h
  have hquiet : Quiet (Server.run sample ⟨World.empty, []⟩ resurrection) := by decide
  have hindex : (Server.run sample ⟨World.empty, []⟩ resurrection).world.index = [] := by
    decide
  have hmachine : (Server.run sample ⟨World.empty, []⟩ resurrection).world.machines "kitchen" ≠
      none := by decide
  have hmem := ((h hquiet).2 "kitchen").mpr hmachine
  rw [hindex] at hmem
  cases hmem

/-- **The index is exact** in every schedule whose commands meet `indexStep`: whenever nothing
is in progress it lists every stored machine once and nothing else, listing returns every
stored machine once, and a machine that is gone stays gone until its name and address are
claimed again. -/
theorem index_exact {w : World} (hw : Named w)
    (hstored : ∀ n x, w.machines n = some x → ∃ m, x = .json m) (hindex : IndexExact w)
    {ticks : List Tick} (hadm : Server.Admissible cp KeepsIndex ⟨w, []⟩ ticks) :
    (Quiet (Server.run cp ⟨w, []⟩ ticks) →
      IndexExact (Server.run cp ⟨w, []⟩ ticks).world ∧
        ∃ ms : List Machine, ms.Nodup ∧
          (∀ m, m ∈ ms ↔
            (Server.run cp ⟨w, []⟩ ticks).world.machines m.name = some (.json m)) ∧
          ∀ o w', list.Runs Cmd.exec Reliable (Server.run cp ⟨w, []⟩ ticks).world o w' ↔
            o = .ok ms ∧ w' = (Server.run cp ⟨w, []⟩ ticks).world) ∧
    ∀ n ipv6 later, ¬StoredAt (Server.run cp ⟨w, []⟩ ticks).world n ipv6 →
      Server.Admissible cp (fun σ e => KeepsIndex σ e ∧ claims σ n ipv6 e = false)
        (Server.run cp ⟨w, []⟩ ticks) later →
      ¬StoredAt (Server.run cp ⟨w, []⟩ (ticks ++ later)).world n ipv6 := by
  have hcount : ∀ n, (w.index.count n : ℤ) = records w n := by
    intro n
    have hle := List.nodup_iff_count_le_one.mp hindex.1 n
    have hpos : 0 < w.index.count n ↔ (w.machines n).isSome := by
      rw [List.count_pos_iff, hindex.2 n, Option.isSome_iff_ne_none]
    unfold records
    split_ifs with hsome
    · have := hpos.mpr hsome
      omega
    · have := mt hpos.mp hsome
      omega
  have hinit : IndexAccounted w [] := by
    refine ⟨hstored, fun n => ?_, fun n => ?_⟩
    · simp [entries, hcount]
    · simp [entries, removers, hcount]
  have hkeeps := indexAccounted_checks.run hw hinit hadm
  refine ⟨fun hquiet => ?_, fun n ipv6 later hgone hlater => ?_⟩
  · have hexact := hkeeps.holds.2.exact (idle_of_quiet hadm hquiet)
    refine ⟨hexact, _, nodup_listed hkeeps.holds.1 hexact.1,
      fun m => mem_listed hkeeps.holds.1 hexact, fun o w' => runs_list ?_⟩
    intro n _ text err hn
    obtain ⟨m, hm⟩ := hkeeps.holds.2.stored n _ hn
    cases hm
  · rw [Server.run, Conf.run_append]
    exact ((goneStays_checks n ipv6).steps.run_keeps
      ⟨hkeeps.conforms, hkeeps.holds.1, hgone⟩ hlater).holds.2

/-- An allocation, a rotation and a deletion, overlapping without harm. -/
theorem index_exact_overlapping :
    let ticks : List Tick :=
      .start (.allocate none "kitchen" keyA) :: List.replicate 10 (.step 0 {}) ++
        [.start (.allocate none "kitchen" keyB), .start (.delete "kitchen"), .step 1 {},
          .step 2 {}] ++ List.replicate 3 (.step 1 {}) ++ List.replicate 7 (.step 2 {})
    IndexExact (Server.run sample ⟨World.empty, []⟩ ticks).world :=
  ((index_exact (fun _ _ h => by cases h) (fun _ _ h => by cases h)
    ⟨List.nodup_nil, by simp [World.empty]⟩ (by decide)).1 (by decide)).1

end ControlPlane
end Cococoir
