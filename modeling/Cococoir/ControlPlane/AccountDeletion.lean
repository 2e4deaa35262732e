import Cococoir.ControlPlane.AccountRuns
import Cococoir.ControlPlane.InviteListing
import Cococoir.ControlPlane.MachineRuns
import Cococoir.ControlPlane.Panics

/-!
# Deleting an account while commands fail

A deletion lists the machines of the account and deletes each; it lists the invites and deletes
each; it scans the sessions; and it removes the account record last.  A listing that fails lists
nothing, and a machine whose deletion fails is passed over, so the record can go before the rest
has gone.

* `CanFail`, `CanPass`, `Exactly`: which commands an environment lets fail.
* `runs_machinesOf_cases`, `runs_invitesScan_cases`: what a listing returns, and why it fails.
* `runs_deleteMachines_cases`: which records are left, and why.
* `Deleted`: what a successful deletion should leave.
* `accountDelete_deleted_iff`: for which stores and which failures it does.

## Failures as a set of commands

To say exactly when a deletion misses something, one has to say which commands failed.  An
environment is given by the set of commands that it may let fail, each as often as it likes;
`Exactly` is the predicate on choices.  The lemmas about a run then have a third kind of case
beside success and error: *it failed, and this command can fail*.  The names end in `_cases`.

## Both directions

If the deletion can miss nothing it misses nothing: each part of a run is followed, and what is
left has a reason that the condition excludes.  The converse builds runs.  Given a command that
can fail and whose failure the deletion passes over, or a record that ends a listing, the
environment lets just this happen, and the deletion succeeds with something left:
`exists_accountDelete` puts such a run together from its parts.

The scans of invites and sessions are taken to come to an end, and to return every key that is
there; which keys they return twice is left open.
-/

namespace Cococoir
namespace ControlPlane

open Concurrency

variable {cp : ControlPlane} {w w' : World} {ε α : Type} {good : Cmd → Choice → Prop} {F X : Cmd → Prop}
  {p : Pages} {email cursor : String} {pages : ℕ}

/-! ## What can fail -/

/-- The environment lets the command fail. -/
def CanFail (good : Cmd → Choice → Prop) (c : Cmd) : Prop := ∃ ch, good c ch ∧ ch.fails = true

/-- The environment lets the command succeed. -/
def CanPass (good : Cmd → Choice → Prop) (c : Cmd) : Prop := ∃ ch, good c ch ∧ ch.fails = false

/-- Only these commands can fail, and each of them as often as the environment likes. -/
def FailsOnly (F : Cmd → Prop) (c : Cmd) (ch : Choice) : Prop := ch.fails = true → F c

/-- These commands fail, and no others. -/
def Exactly (X : Cmd → Prop) (c : Cmd) (ch : Choice) : Prop := ch.fails = true ↔ X c

theorem failsOnly_of_exactly (hX : ∀ c, X c → F c) {c : Cmd} {ch : Choice} (h : Paged p (Exactly X) c ch) :
    Paged p (FailsOnly F) c ch := ⟨fun hfails => hX c (h.1.mp hfails), h.2⟩

theorem canFail_failsOnly {c : Cmd} (h : CanFail (Paged p (FailsOnly F)) c) : F c := by
  obtain ⟨ch, hch, hfails⟩ := h
  exact hch.1 hfails

theorem canFail_exactly {c : Cmd} (h : CanFail (Paged p (Exactly X)) c) : X c := by
  obtain ⟨ch, hch, hfails⟩ := h
  exact hch.1.mp hfails

theorem canPass_exactly {c : Cmd} (h : CanPass (Paged p (Exactly X)) c) : ¬X c := by
  obtain ⟨ch, hch, hpasses⟩ := h
  intro hX
  rw [hch.1.mpr hX] at hpasses
  cases hpasses

/-- There is a choice for every command. -/
theorem exists_exactly (p : Pages) (X : Cmd → Prop) (c : Cmd) : ∃ ch, Paged p (Exactly X) c ch := by
  classical
  have hexactly : ∀ ch : Choice, ch.fails = decide (X c) → Exactly X c ch := by
    intro ch hch
    rw [Exactly, hch, decide_eq_true_eq]
  by_cases hscan : ∃ f cursor, c = .scan f cursor
  · obtain ⟨f, cursor, rfl⟩ := hscan
    refine ⟨{ fails := decide (X (.scan f cursor)), cursor := (p f cursor).1, keys := (p f cursor).2 },
      hexactly _ rfl, fun f' cursor' heq => ?_⟩
    cases heq
    rfl
  · exact ⟨{ fails := decide (X c) }, hexactly _ rfl, fun f cursor heq => absurd ⟨f, cursor, heq⟩ hscan⟩

/-- A run that begins with a Redis command, and whether that could fail. -/
theorem runs_redis_cases [FromRedis ε] {op : RedisOp} {f : op.Resp → Edge ε α} {o : Outcome ε α}
    (h : (redis op >>= f).Runs Cmd.exec good w o w') :
    CanPass good (.redis op) ∧ (f (op.exec w).1).Runs Cmd.exec good (op.exec w).2 o w' ∨
      CanFail good (.redis op) ∧ (∃ e, o = .err e) ∧ w' = w := by
  rcases runs_redis.mp h with ⟨ch, hch, hpasses, h⟩ | ⟨ch, hch, hfails, ho, hw⟩
  · exact .inl ⟨⟨ch, hch, hpasses⟩, h⟩
  · exact .inr ⟨⟨ch, hch, hfails⟩, ⟨_, ho⟩, hw⟩

/-! ## Listing the machines -/

/-- What the listing of an account's machines reads. -/
def machineReads (w : World) (email : String) : List Cmd :=
  .redis (.account email .get) :: .redis (.index .lrange) ::
    w.index.map fun name => .redis (.machine name .get)

theorem runs_listFrom_cases {names : List String} {o : Outcome ControlPlaneError (List Machine)}
    (h : (listFrom names).Runs Cmd.exec good w o w') :
    w' = w ∧ (o = .ok (names.filterMap (machineAt w)) ∧
        (∀ n ∈ names, CanPass good (.redis (.machine n .get)) ∧
          ∀ text err, w.machines n ≠ some (.corrupt text err)) ∨
      (∃ e, o = .err e) ∧ ∃ n ∈ names, CanFail good (.redis (.machine n .get)) ∨
        ∃ text err, w.machines n = some (.corrupt text err)) := by
  induction names generalizing o w' with
  | nil =>
    obtain ⟨rfl, rfl⟩ := h
    exact ⟨rfl, .inl ⟨rfl, fun n hn => absurd hn List.not_mem_nil⟩⟩
  | cons n names ih =>
    rw [listFrom] at h
    rcases runs_redis_cases h with ⟨hpass, h⟩ | ⟨hfail, herr, rfl⟩
    swap
    · exact ⟨rfl, .inr ⟨herr, n, List.mem_cons_self, .inl hfail⟩⟩
    rw [exec_machine_get] at h
    rcases hn : w.machines n with _ | (m | ⟨text, err⟩)
    · rw [hn] at h
      obtain ⟨rfl, ⟨rfl, hall⟩ | ⟨herr, k, hk, htrouble⟩⟩ := ih h
      · refine ⟨rfl, .inl ⟨?_, fun k hk => ?_⟩⟩
        · rw [List.filterMap_cons_none (by rw [machineAt, hn])]
        · rcases List.mem_cons.mp hk with rfl | hk
          · exact ⟨hpass, by simp [hn]⟩
          · exact hall k hk
      · exact ⟨rfl, .inr ⟨herr, k, List.mem_cons_of_mem n hk, htrouble⟩⟩
    · rw [hn] at h
      simp only [machineFromJson, Prog.ofExcept_ok, Prog.pure_bind] at h
      rcases Prog.runs_bind.mp h with ⟨ms, w₁, hrun, rfl, rfl⟩ | ⟨e, hrun, rfl⟩ | ⟨msg, hrun, rfl⟩
      · obtain ⟨rfl, ⟨ho, hall⟩ | ⟨⟨e, ho⟩, -⟩⟩ := ih hrun
        · obtain rfl := Outcome.ok.inj ho
          refine ⟨rfl, .inl ⟨?_, fun k hk => ?_⟩⟩
          · rw [List.filterMap_cons_some (machineAt_eq_some.mpr hn)]
          · rcases List.mem_cons.mp hk with rfl | hk
            · exact ⟨hpass, by simp [hn]⟩
            · exact hall k hk
        · cases ho
      · obtain ⟨rfl, ⟨ho, -⟩ | ⟨-, k, hk, htrouble⟩⟩ := ih hrun
        · cases ho
        · exact ⟨rfl, .inr ⟨⟨e, rfl⟩, k, List.mem_cons_of_mem n hk, htrouble⟩⟩
      · obtain ⟨-, ⟨ho, -⟩ | ⟨⟨e, ho⟩, -⟩⟩ := ih hrun
        · cases ho
        · cases ho
    · rw [hn] at h
      obtain ⟨rfl, rfl⟩ := h
      exact ⟨rfl, .inr ⟨⟨_, rfl⟩, n, List.mem_cons_self, .inr ⟨text, err, hn⟩⟩⟩

theorem runs_list_cases {o : Outcome ControlPlaneError (List Machine)}
    (h : list.Runs Cmd.exec good w o w') :
    w' = w ∧ (o = .ok (listed w) ∧ CanPass good (.redis (.index .lrange)) ∧
        (∀ n ∈ w.index, CanPass good (.redis (.machine n .get))) ∧ Decodes w ∨
      (∃ e, o = .err e) ∧ (CanFail good (.redis (.index .lrange)) ∨
        (∃ n ∈ w.index, CanFail good (.redis (.machine n .get))) ∨ ¬Decodes w)) := by
  rw [list] at h
  rcases runs_redis_cases h with ⟨hpass, h⟩ | ⟨hfail, herr, rfl⟩
  swap
  · exact ⟨rfl, .inr ⟨herr, .inl hfail⟩⟩
  obtain ⟨rfl, ⟨rfl, hall⟩ | ⟨herr, n, hn, htrouble⟩⟩ := runs_listFrom_cases h
  · exact ⟨rfl, .inl ⟨rfl, hpass, fun n hn => (hall n hn).1, fun n hn => (hall n hn).2⟩⟩
  · refine ⟨rfl, .inr ⟨herr, .inr ?_⟩⟩
    rcases htrouble with hfail | ⟨text, err, hcorrupt⟩
    · exact .inl ⟨n, hn, hfail⟩
    · exact .inr fun hdec => hdec n hn text err hcorrupt

theorem runs_accountUuid_cases {a : AccountRecord} (hnormal : cp.normalizeEmail email = email)
    (ha : w.accounts email = some (.json a)) {o : Outcome AccountError (Option String)}
    (h : (cp.accountUuid email).Runs Cmd.exec good w o w') :
    w' = w ∧ (o = .ok (some a.uuid) ∧ CanPass good (.redis (.account email .get)) ∨
      (∃ e, o = .err e) ∧ CanFail good (.redis (.account email .get))) := by
  rw [accountUuid, hnormal] at h
  rcases runs_redis_cases h with ⟨hpass, h⟩ | ⟨hfail, herr, rfl⟩
  · rw [exec_account_get, ha] at h
    obtain ⟨rfl, rfl⟩ := h
    exact ⟨rfl, .inl ⟨rfl, hpass⟩⟩
  · exact ⟨rfl, .inr ⟨herr, hfail⟩⟩

/-- **A listing of the machines** returns those that are listed, or an error that has a reason. -/
theorem runs_machinesOf_cases {a : AccountRecord} (hnormal : cp.normalizeEmail email = email)
    (ha : w.accounts email = some (.json a)) {o : Outcome InviteError (List Machine)}
    (h : (cp.machinesOf email).Runs Cmd.exec good w o w') :
    w' = w ∧ (o = .ok ((listed w).filter fun m => m.owner = some a.uuid) ∧
        (∀ c ∈ machineReads w email, CanPass good c) ∧ Decodes w ∨
      (∃ e, o = .err e) ∧ ((∃ c ∈ machineReads w email, CanFail good c) ∨ ¬Decodes w)) := by
  rw [machinesOf] at h
  rcases Prog.runs_mapErr_bind.mp h with ⟨uuid, w₁, hrun, h⟩ | ⟨e, hrun, rfl⟩ | ⟨msg, hrun, -⟩
  · obtain ⟨rfl, ⟨huuid, hpass⟩ | ⟨⟨e, he⟩, -⟩⟩ := runs_accountUuid_cases hnormal ha hrun
    swap
    · cases he
    obtain rfl := Outcome.ok.inj huuid
    rcases Prog.runs_mapErr_bind.mp h with ⟨ms, w₂, hrun, rfl, rfl⟩ | ⟨e, hrun, rfl⟩ | ⟨msg, hrun, -⟩
    · obtain ⟨rfl, ⟨hms, hrange, hreads, hdec⟩ | ⟨⟨e, he⟩, -⟩⟩ := runs_list_cases hrun
      · obtain rfl := Outcome.ok.inj hms
        refine ⟨rfl, .inl ⟨rfl, fun c hc => ?_, hdec⟩⟩
        simp only [machineReads, List.mem_cons, List.mem_map] at hc
        obtain rfl | rfl | ⟨n, hn, rfl⟩ := hc
        · exact hpass
        · exact hrange
        · exact hreads n hn
      · cases he
    · obtain ⟨rfl, ⟨ho, -⟩ | ⟨-, htrouble⟩⟩ := runs_list_cases hrun
      · cases ho
      · refine ⟨rfl, .inr ⟨⟨_, rfl⟩, ?_⟩⟩
        rcases htrouble with hfail | ⟨n, hn, hfail⟩ | hdec
        · exact .inl ⟨_, by simp [machineReads], hfail⟩
        · exact .inl ⟨_, by simp [machineReads, hn], hfail⟩
        · exact .inr hdec
    · obtain ⟨-, ⟨ho, -⟩ | ⟨⟨e, ho⟩, -⟩⟩ := runs_list_cases hrun
      · cases ho
      · cases ho
  · obtain ⟨rfl, ⟨ho, -⟩ | ⟨-, hfail⟩⟩ := runs_accountUuid_cases hnormal ha hrun
    · cases ho
    · exact ⟨rfl, .inr ⟨⟨_, rfl⟩, .inl ⟨_, by simp [machineReads], hfail⟩⟩⟩
  · obtain ⟨-, ⟨ho, -⟩ | ⟨⟨e, ho⟩, -⟩⟩ := runs_accountUuid_cases hnormal ha hrun
    · cases ho
    · cases ho

/-! ## Deleting the machines -/

theorem exec_machine_delete {name : String} : ((RedisOp.machine name .del).exec w).2 =
    { w with machines := Function.update w.machines name none } := by
  simp [RedisOp.exec]

/-- The commands between the reading of a machine and its deletion leave the records. -/
theorem runs_removeEntry_cases {name : String} {o : Outcome ControlPlaneError Unit}
    (h : (removeEntry name).Runs Cmd.exec good w o w') :
    w'.machines = w.machines ∧ CanFail good (.redis (.machine name .del)) ∨
      w'.machines = Function.update w.machines name none ∧ CanPass good (.redis (.machine name .del)) := by
  rw [removeEntry] at h
  rcases runs_redis_cases h with ⟨hpass, h⟩ | ⟨hfail, -, rfl⟩
  · rw [exec_machine_delete] at h
    rcases runs_redis_cases h with ⟨-, -, rfl⟩ | ⟨-, -, rfl⟩
    · exact .inr ⟨rfl, hpass⟩
    · exact .inr ⟨rfl, hpass⟩
  · exact .inl ⟨rfl, hfail⟩

theorem runs_removeForwards_machines {m : Machine} {ports : List (ℕ × ℕ)} {f : Unit → Edge ε α}
    {o : Outcome ε α} (h : (removeForwards m ports >>= f).Runs Cmd.exec good w o w') :
    ∃ w₁, w₁.machines = w.machines ∧ (f ()).Runs Cmd.exec good w₁ o w' := by
  induction ports generalizing w with
  | nil => exact ⟨w, rfl, h⟩
  | cons q ports ih =>
    obtain ⟨ch, -, h⟩ := h
    obtain ⟨w₁, hw₁, h⟩ := ih h
    exact ⟨w₁, hw₁, h⟩

/-- The commands of an unwiring leave the records. -/
theorem exec_removePeer_machines {ch : Choice} {key : String} :
    (Cmd.exec ch (.removePeer key) w).2.machines = w.machines := by
  rw [Cmd.exec]
  split_ifs <;> rfl

/-- **A deletion** removes the record of its name, unless the reading or the deletion of it fails. -/
theorem runs_delete_cases {name : String} {o : Outcome ControlPlaneError Unit}
    (h : (cp.delete name).Runs Cmd.exec good w o w') :
    w'.machines = w.machines ∧ (CanFail good (.redis (.machine name .get)) ∨
        CanFail good (.redis (.machine name .del)) ∨ w.machines name = none) ∨
      w'.machines = Function.update w.machines name none ∧
        CanPass good (.redis (.machine name .get)) ∧ CanPass good (.redis (.machine name .del)) := by
  rw [delete] at h
  rcases runs_redis_cases h with ⟨hget, h⟩ | ⟨hfail, -, rfl⟩
  swap
  · exact .inl ⟨rfl, .inl hfail⟩
  have hentry : ∀ w₁ : World, w₁.machines = w.machines → (removeEntry name).Runs Cmd.exec good w₁ o w' →
      w'.machines = w.machines ∧ (CanFail good (.redis (.machine name .get)) ∨
          CanFail good (.redis (.machine name .del)) ∨ w.machines name = none) ∨
        w'.machines = Function.update w.machines name none ∧
          CanPass good (.redis (.machine name .get)) ∧ CanPass good (.redis (.machine name .del)) := by
    intro w₁ hw₁ hrun
    rcases runs_removeEntry_cases hrun with ⟨hsame, hfail⟩ | ⟨hgone, hpass⟩
    · exact .inl ⟨hsame.trans hw₁, .inr (.inl hfail)⟩
    · exact .inr ⟨by rw [hgone, hw₁], hget, hpass⟩
  rw [exec_machine_get] at h
  rcases hname : w.machines name with _ | (m | ⟨text, err⟩)
  · rw [hname] at h
    obtain ⟨-, rfl⟩ := h
    exact .inl ⟨rfl, .inr (.inr rfl)⟩
  · rw [hname] at h hentry
    obtain ⟨ch, -, h⟩ := h
    obtain ⟨w₁, hw₁, h⟩ := runs_removeForwards_machines h
    obtain ⟨r, dns, h⟩ := runs_removeMachine h
    exact hentry { w₁ with dns := dns } (hw₁.trans exec_removePeer_machines) h
  · rw [hname] at h hentry
    exact hentry w rfl h

theorem calm_removeForwards {m : Machine} {ports : List (ℕ × ℕ)} :
    Calm (removeForwards m ports : Edge ε Unit) := by
  induction ports with
  | nil => exact calm_pure _
  | cons q ports ih => exact calm_issue.bind fun _ => ih

theorem calm_delete {name : String} : Calm (cp.delete name) := by
  have hentry : Calm (removeEntry name) := calm_redis.bind fun _ => calm_redis.bind fun _ => calm_pure _
  refine calm_redis.bind fun x => ?_
  rcases x with _ | (m | ⟨text, err⟩)
  · exact calm_throw _
  · refine calm_issue.bind fun _ => calm_removeForwards.bind fun _ => Calm.bind ?_ fun _ => hentry
    exact calm_issue.bind fun _ => calm_issue.bind fun _ => calm_pure _
  · exact hentry

/-- **The deletions of a list** never stop; which records are left, and why. -/
theorem runs_deleteMachines_cases {ms : List Machine} {o : Outcome AccountError Unit}
    (h : (cp.deleteMachines ms).Runs Cmd.exec good w o w') :
    o = .ok () ∧ ∀ n, w'.machines n = w.machines n ∧ ((∀ m ∈ ms, m.name ≠ n) ∨
          CanFail good (.redis (.machine n .get)) ∨ CanFail good (.redis (.machine n .del)) ∨
          w.machines n = none) ∨
      w'.machines n = none ∧ (∃ m ∈ ms, m.name = n) ∧
        CanPass good (.redis (.machine n .get)) ∧ CanPass good (.redis (.machine n .del)) := by
  induction ms generalizing w with
  | nil =>
    obtain ⟨rfl, rfl⟩ := h
    exact ⟨rfl, fun n => .inl ⟨rfl, .inl fun m hm => absurd hm List.not_mem_nil⟩⟩
  | cons m ms ih =>
    rw [deleteMachines] at h
    obtain ⟨w₁, hfirst, h⟩ : ∃ w₁, (w₁.machines = w.machines ∧
        (CanFail good (.redis (.machine m.name .get)) ∨ CanFail good (.redis (.machine m.name .del)) ∨
          w.machines m.name = none) ∨
        w₁.machines = Function.update w.machines m.name none ∧
          CanPass good (.redis (.machine m.name .get)) ∧ CanPass good (.redis (.machine m.name .del))) ∧
        (cp.deleteMachines ms).Runs Cmd.exec good w₁ o w' := by
      rcases Prog.runs_bind.mp h with ⟨r, w₁, hrun, h⟩ | ⟨e, hrun, -⟩ | ⟨msg, hrun, -⟩
      · rcases Prog.runs_attempt.mp hrun with ⟨_, hrun, -⟩ | ⟨e, hrun, -⟩ | ⟨msg, hrun, -⟩
        · exact ⟨w₁, runs_delete_cases hrun, h⟩
        · exact ⟨w₁, runs_delete_cases hrun, h⟩
        · exact ⟨w₁, runs_delete_cases hrun, h⟩
      · rcases Prog.runs_attempt.mp hrun with ⟨_, -, ho⟩ | ⟨_, -, ho⟩ | ⟨_, -, ho⟩ <;> cases ho
      · rcases Prog.runs_attempt.mp hrun with ⟨_, -, ho⟩ | ⟨_, -, ho⟩ | ⟨msg', hrun, -⟩
        · cases ho
        · cases ho
        · exact absurd rfl (Prog.Ends.runs calm_delete hrun msg')
    obtain ⟨rfl, hrest⟩ := ih h
    refine ⟨rfl, fun n => ?_⟩
    rcases hfirst with ⟨hsame, hwhy⟩ | ⟨hgone, hget, hdel⟩
    · rcases hrest n with ⟨hn, hwhy'⟩ | ⟨hn, ⟨m', hm', hname⟩, hpasses⟩
      · refine .inl ⟨hn.trans (congrFun hsame n), ?_⟩
        rw [hsame] at hwhy'
        rcases hwhy' with hnone | hwhy'
        · by_cases hmn : m.name = n
          · exact .inr (hmn ▸ hwhy)
          · exact .inl fun m' hm' => (List.mem_cons.mp hm').elim (fun heq => heq ▸ hmn) (hnone m')
        · exact .inr hwhy'
      · exact .inr ⟨hn, ⟨m', List.mem_cons_of_mem m hm', hname⟩, hpasses⟩
    · rcases hrest n with ⟨hn, hwhy'⟩ | ⟨hn, ⟨m', hm', hname⟩, hpasses⟩
      · by_cases hmn : m.name = n
        · subst hmn
          exact .inr ⟨by rw [hn, hgone, Function.update_self], ⟨m, List.mem_cons_self, rfl⟩, hget, hdel⟩
        · have hw₁ : w₁.machines n = w.machines n := by rw [hgone, Function.update_of_ne (Ne.symm hmn)]
          refine .inl ⟨hn.trans hw₁, ?_⟩
          rw [hw₁] at hwhy'
          rcases hwhy' with hnone | hwhy'
          · exact .inl fun m' hm' => (List.mem_cons.mp hm').elim (fun heq => heq ▸ hmn) (hnone m')
          · exact .inr hwhy'
      · exact .inr ⟨hn, ⟨m', List.mem_cons_of_mem m hm', hname⟩, hpasses⟩

/-! ## Listing and deleting the invites -/

/-- The cursors of the first `n` pages. -/
def Pages.cursors (p : Pages) (f : Family) : ℕ → String → List String
  | 0, _ => []
  | n + 1, cursor => cursor :: if (p f cursor).1 = "0" then [] else cursors p f n (p f cursor).1

/-- The scan is over within `n` pages. -/
def Pages.EndsBy (p : Pages) (f : Family) : ℕ → String → Prop
  | 0, _ => False
  | n + 1, cursor => (p f cursor).1 = "0" ∨ EndsBy p f n (p f cursor).1

/-- What the listing of invites reads from a cursor on. -/
def inviteReads (p : Pages) (n : ℕ) (cursor : String) : List Cmd :=
  (p.cursors .invite n cursor).map (.scan .invite) ++
    (p.keysFrom .invite n cursor).map fun code => .redis (.invite code .get)

theorem runs_invitesFrom_cases {codes : List String}
    {o : Outcome InviteError (List (String × InviteRecord))}
    (h : (invitesFrom email codes).Runs Cmd.exec good w o w') :
    w' = w ∧ (o = .ok (codes.filterMap (ownInvite w email)) ∧
        (∀ c ∈ codes, CanPass good (.redis (.invite c .get)) ∧ ¬Unreadable w c) ∨
      (∃ e, o = .err e) ∧ ∃ c ∈ codes, CanFail good (.redis (.invite c .get)) ∨ Unreadable w c) := by
  induction codes generalizing o w' with
  | nil =>
    obtain ⟨rfl, rfl⟩ := h
    exact ⟨rfl, .inl ⟨rfl, fun c hc => absurd hc List.not_mem_nil⟩⟩
  | cons c codes ih =>
    rw [invitesFrom] at h
    rcases runs_redis_cases h with ⟨hpass, h⟩ | ⟨hfail, herr, rfl⟩
    swap
    · exact ⟨rfl, .inr ⟨herr, c, List.mem_cons_self, .inl hfail⟩⟩
    rw [exec_invite_get] at h
    have hall : ¬Unreadable w c →
        (∀ k ∈ codes, CanPass good (.redis (.invite k .get)) ∧ ¬Unreadable w k) →
        ∀ k ∈ c :: codes, CanPass good (.redis (.invite k .get)) ∧ ¬Unreadable w k := by
      intro hread hrest k hk
      rcases List.mem_cons.mp hk with rfl | hk
      · exact ⟨hpass, hread⟩
      · exact hrest k hk
    rcases hc : w.invites c with _ | (r | ⟨text, err⟩)
    · rw [hc] at h
      have hown : ownInvite w email c = none := by rw [ownInvite, hc]
      obtain ⟨rfl, ⟨rfl, hrest⟩ | ⟨herr, k, hk, htrouble⟩⟩ := ih h
      · exact ⟨rfl, .inl ⟨by rw [List.filterMap_cons_none hown], hall (by simp [Unreadable, hc]) hrest⟩⟩
      · exact ⟨rfl, .inr ⟨herr, k, List.mem_cons_of_mem c hk, htrouble⟩⟩
    · rw [hc] at h
      simp only [recordFromJson, Prog.ofExcept_ok, Prog.pure_bind] at h
      have hown : ownInvite w email c = if r.ownerEmail = email then some (c, r) else none := by
        rw [ownInvite, hc]
      rcases Prog.runs_bind.mp h with ⟨invites, w₁, hrun, rfl, rfl⟩ | ⟨e, hrun, rfl⟩ | ⟨msg, hrun, rfl⟩
      · obtain ⟨rfl, ⟨ho, hrest⟩ | ⟨⟨e, ho⟩, -⟩⟩ := ih hrun
        · obtain rfl := Outcome.ok.inj ho
          refine ⟨rfl, .inl ⟨?_, hall (by simp [Unreadable, hc]) hrest⟩⟩
          rw [List.filterMap_cons, hown]
          split_ifs <;> rfl
        · cases ho
      · obtain ⟨rfl, ⟨ho, -⟩ | ⟨-, k, hk, htrouble⟩⟩ := ih hrun
        · cases ho
        · exact ⟨rfl, .inr ⟨⟨e, rfl⟩, k, List.mem_cons_of_mem c hk, htrouble⟩⟩
      · obtain ⟨-, ⟨ho, -⟩ | ⟨⟨e, ho⟩, -⟩⟩ := ih hrun
        · cases ho
        · cases ho
    · rw [hc] at h
      obtain ⟨rfl, rfl⟩ := h
      exact ⟨rfl, .inr ⟨⟨_, rfl⟩, c, List.mem_cons_self, .inr ⟨text, err, hc⟩⟩⟩

/-- **A listing of the invites** returns those on the pages, or an error that has a reason. -/
theorem runs_invitesScan_cases (hends : p.EndsBy .invite pages cursor)
    {o : Outcome InviteError (List (String × InviteRecord))}
    (h : (invitesScan email pages cursor).Runs Cmd.exec (Paged p good) w o w') :
    w' = w ∧ (o = .ok ((p.keysFrom .invite pages cursor).filterMap (ownInvite w email)) ∧
        (∀ c ∈ inviteReads p pages cursor, CanPass (Paged p good) c) ∧
        (∀ code ∈ p.keysFrom .invite pages cursor, ¬Unreadable w code) ∨
      (∃ e, o = .err e) ∧ ((∃ c ∈ inviteReads p pages cursor, CanFail (Paged p good) c) ∨
        ∃ code ∈ p.keysFrom .invite pages cursor, Unreadable w code)) := by
  induction pages generalizing cursor o w' with
  | zero => exact absurd hends not_false
  | succ pages ih =>
    obtain ⟨ch, hch, h⟩ := h
    have hpage := hch.2 _ _ rfl
    cases hf : ch.fails with
    | true =>
      simp only [Cmd.exec, hf, if_true] at h
      obtain ⟨rfl, rfl⟩ := h
      refine ⟨rfl, .inr ⟨⟨_, rfl⟩, .inl ⟨.scan .invite cursor, ?_, ch, hch, hf⟩⟩⟩
      simp [inviteReads, Pages.cursors]
    | false =>
      simp only [Cmd.exec, hf, Bool.false_eq_true, if_false] at h
      have hpass : CanPass (Paged p good) (.scan .invite cursor) := ⟨ch, hch, hf⟩
      have hkeys : ch.keys = (p .invite cursor).2 := congrArg Prod.snd hpage
      have hnext : ch.cursor = (p .invite cursor).1 := congrArg Prod.fst hpage
      rw [hkeys, hnext] at h
      have hmem : ∀ code ∈ (p .invite cursor).2, code ∈ p.keysFrom .invite (pages + 1) cursor :=
        fun code hcode => List.mem_append_left _ hcode
      rcases Prog.runs_bind.mp h with ⟨invites, w₁, hrun, h⟩ | ⟨e, hrun, rfl⟩ | ⟨msg, hrun, rfl⟩
      · obtain ⟨rfl, ⟨ho, hfirst⟩ | ⟨⟨e, ho⟩, -⟩⟩ := runs_invitesFrom_cases hrun
        swap
        · cases ho
        obtain rfl := Outcome.ok.inj ho
        by_cases hend : (p .invite cursor).1 = "0"
        · rw [if_pos hend] at h
          obtain ⟨rfl, rfl⟩ := h
          simp only [inviteReads, Pages.cursors, Pages.keysFrom, if_pos hend, List.append_nil]
          refine ⟨trivial, .inl ⟨trivial, fun c hc => ?_, fun code hcode => (hfirst code hcode).2⟩⟩
          rcases List.mem_append.mp hc with hc | hc
          · obtain rfl : c = .scan .invite cursor := by simpa using hc
            exact hpass
          · obtain ⟨code, hcode, rfl⟩ := List.mem_map.mp hc
            exact (hfirst code hcode).1
        · rw [if_neg hend] at h
          have hreads : ∀ c ∈ inviteReads p pages (p .invite cursor).1, c ∈ inviteReads p (pages + 1) cursor := by
            intro c hc
            simp only [inviteReads, Pages.cursors, Pages.keysFrom, if_neg hend, List.map_cons,
              List.map_append, List.mem_append, List.mem_cons] at hc ⊢
            tauto
          have hlater : ∀ code ∈ p.keysFrom .invite pages (p .invite cursor).1,
              code ∈ p.keysFrom .invite (pages + 1) cursor := by
            intro code hcode
            rw [Pages.keysFrom, if_neg hend]
            exact List.mem_append_right _ hcode
          have hends := hends.resolve_left hend
          rcases Prog.runs_bind.mp h with ⟨rest, w₂, hrun, rfl, rfl⟩ | ⟨e, hrun, rfl⟩ | ⟨msg, hrun, rfl⟩
          · obtain ⟨rfl, ⟨ho, hpasses, hreadable⟩ | ⟨⟨e, ho⟩, -⟩⟩ := ih hends hrun
            swap
            · cases ho
            obtain rfl := Outcome.ok.inj ho
            refine ⟨rfl, .inl ⟨?_, fun c hc => ?_, fun code hcode => ?_⟩⟩
            · rw [Pages.keysFrom, if_neg hend, List.filterMap_append]
            · simp only [inviteReads, Pages.cursors, Pages.keysFrom, if_neg hend, List.map_cons,
                List.map_append, List.mem_append, List.mem_cons] at hc
              rcases hc with (rfl | hc) | hc | hc
              · exact hpass
              · exact hpasses c (List.mem_append_left _ hc)
              · obtain ⟨code, hcode, rfl⟩ := List.mem_map.mp hc
                exact (hfirst code hcode).1
              · exact hpasses c (List.mem_append_right _ hc)
            · rw [Pages.keysFrom, if_neg hend] at hcode
              rcases List.mem_append.mp hcode with hcode | hcode
              · exact (hfirst code hcode).2
              · exact hreadable code hcode
          · obtain ⟨rfl, ⟨ho, -⟩ | ⟨-, htrouble⟩⟩ := ih hends hrun
            · cases ho
            · refine ⟨rfl, .inr ⟨⟨e, rfl⟩, ?_⟩⟩
              rcases htrouble with ⟨c, hc, hfail⟩ | ⟨code, hcode, hunreadable⟩
              · exact .inl ⟨c, hreads c hc, hfail⟩
              · exact .inr ⟨code, hlater code hcode, hunreadable⟩
          · obtain ⟨-, ⟨ho, -⟩ | ⟨⟨e, ho⟩, -⟩⟩ := ih hends hrun
            · cases ho
            · cases ho
      · obtain ⟨rfl, ⟨ho, -⟩ | ⟨-, code, hcode, htrouble⟩⟩ := runs_invitesFrom_cases hrun
        · cases ho
        · refine ⟨rfl, .inr ⟨⟨e, rfl⟩, ?_⟩⟩
          rcases htrouble with hfail | hunreadable
          · exact .inl ⟨_, List.mem_append_right _ (List.mem_map_of_mem (hmem code hcode)), hfail⟩
          · exact .inr ⟨code, hmem code hcode, hunreadable⟩
      · obtain ⟨-, ⟨ho, -⟩ | ⟨⟨e, ho⟩, -⟩⟩ := runs_invitesFrom_cases hrun
        · cases ho
        · cases ho

theorem exec_invite_delete {code : String} : ((RedisOp.invite code .del).exec w).2 =
    { w with invites := Function.update w.invites code none } := by
  simp [RedisOp.exec]

theorem runs_deleteInvites_cases {invites : List (String × InviteRecord)} {o : Outcome AccountError Unit}
    (h : (deleteInvites invites).Runs Cmd.exec good w o w') :
    o = .ok () ∧ (∀ c, w'.invites c = if c ∈ invites.map Prod.fst then none else w.invites c) ∨
      (∃ e, o = .err e) ∧ ∃ c, CanFail good c := by
  induction invites generalizing w with
  | nil =>
    obtain ⟨rfl, rfl⟩ := h
    exact .inl ⟨rfl, fun c => by simp⟩
  | cons x invites ih =>
    obtain ⟨code, r⟩ := x
    rw [deleteInvites] at h
    rcases runs_redis_cases h with ⟨-, h⟩ | ⟨hfail, herr, -⟩
    swap
    · exact .inr ⟨herr, _, hfail⟩
    rw [exec_invite_delete] at h
    rcases ih h with ⟨rfl, hrest⟩ | herr
    swap
    · exact .inr herr
    refine .inl ⟨rfl, fun c => ?_⟩
    rw [hrest c]
    by_cases hc : c = code
    · subst hc
      simp
    · simp only [List.map_cons, List.mem_cons, hc, false_or, ne_eq, not_false_eq_true, Function.update_of_ne]

/-! ## The sessions -/

theorem runs_deleteSessions_end {tokens : List String} {o : Outcome AccountError Unit}
    (h : (deleteSessions email tokens).Runs Cmd.exec good w o w') :
    o = .ok () ∨ (∃ e, o = .err e) ∧ ∃ c, CanFail good c := by
  induction tokens generalizing w with
  | nil => exact .inl h.1
  | cons token tokens ih =>
    rw [deleteSessions] at h
    rcases runs_redis_cases h with ⟨-, h⟩ | ⟨hfail, herr, -⟩
    swap
    · exact .inr ⟨herr, _, hfail⟩
    split_ifs at h
    · rcases runs_redis_cases h with ⟨-, h⟩ | ⟨hfail, herr, -⟩
      · exact ih h
      · exact .inr ⟨herr, _, hfail⟩
    · exact ih h

/-- A scan of the sessions that fails has a reason. -/
theorem runs_sessionsScan_end (hends : p.EndsBy .session pages cursor) {o : Outcome AccountError Unit}
    (h : (sessionsScan email pages cursor).Runs Cmd.exec (Paged p good) w o w') :
    o = .ok () ∨ (∃ e, o = .err e) ∧ ∃ c, CanFail (Paged p good) c := by
  induction pages generalizing w cursor with
  | zero => exact absurd hends not_false
  | succ pages ih =>
    obtain ⟨ch, hch, h⟩ := h
    have hpage := hch.2 _ _ rfl
    cases hf : ch.fails with
    | true =>
      simp only [Cmd.exec, hf, if_true] at h
      obtain ⟨rfl, rfl⟩ := h
      exact .inr ⟨⟨_, rfl⟩, _, ch, hch, hf⟩
    | false =>
      simp only [Cmd.exec, hf, Bool.false_eq_true, if_false] at h
      rw [show ch.cursor = (p .session cursor).1 from congrArg Prod.fst hpage] at h
      rcases Prog.runs_bind.mp h with ⟨_, w₁, -, h⟩ | ⟨e, hrun, rfl⟩ | ⟨msg, hrun, rfl⟩
      · split_ifs at h with hend
        · exact .inl h.1
        · exact ih (hends.resolve_left hend) h
      · exact .inr ⟨⟨e, rfl⟩, ((runs_deleteSessions_end hrun).resolve_left (by simp)).2⟩
      · rcases runs_deleteSessions_end hrun with ho | ⟨⟨e, ho⟩, -⟩
        · cases ho
        · cases ho

/-! ## A successful deletion -/

/-- **The parts of a deletion** that succeeds: only the listings may have failed. -/
theorem runs_accountDelete_ok : (cp.accountDelete email pages).Runs Cmd.exec good w (.ok ()) w' ↔
    ∃ a x y w₁ w₂ w₃ w₄ w₅, w.accounts (cp.normalizeEmail email) = some (.json a) ∧
      CanPass good (.redis (.account (cp.normalizeEmail email) .get)) ∧
      (Prog.attempt (cp.machinesOf (cp.normalizeEmail email)) : Edge AccountError _).Runs Cmd.exec good w
        (.ok x) w₁ ∧
      (cp.deleteMachines (x.toOption.getD [])).Runs Cmd.exec good w₁ (.ok ()) w₂ ∧
      (Prog.attempt (invitesOf (cp.normalizeEmail email) pages) : Edge AccountError _).Runs Cmd.exec good w₂
        (.ok y) w₃ ∧
      (deleteInvites (y.toOption.getD [])).Runs Cmd.exec good w₃ (.ok ()) w₄ ∧
      (sessionsScan (cp.normalizeEmail email) pages "0").Runs Cmd.exec good w₄ (.ok ()) w₅ ∧
      CanPass good (.redis (.account (cp.normalizeEmail email) .del)) ∧
      w' = { w₅ with accounts := Function.update w₅.accounts (cp.normalizeEmail email) none } := by
  rw [accountDelete_eq]
  constructor
  · intro h
    rw [readAccount, Prog.bind_assoc] at h
    rcases runs_redis_cases h with ⟨hget, h⟩ | ⟨-, ⟨e, he⟩, -⟩
    swap
    · cases he
    rw [exec_account_get] at h
    rcases ha : w.accounts (cp.normalizeEmail email) with _ | (a | ⟨text, err⟩)
    · rw [ha] at h
      cases h.1
    swap
    · rw [ha] at h
      cases h.1
    rw [ha] at h
    simp only [accountFromJson, Prog.ofExcept_ok, Prog.pure_bind, deleteBelongings, Prog.bind_assoc] at h
    rcases Prog.runs_bind.mp h with ⟨x, w₁, hlist, h⟩ | ⟨_, -, ho⟩ | ⟨_, -, ho⟩
    rotate_left
    · cases ho
    · cases ho
    rcases Prog.runs_bind.mp h with ⟨_, w₂, hmachines, h⟩ | ⟨_, -, ho⟩ | ⟨_, -, ho⟩
    rotate_left
    · cases ho
    · cases ho
    rcases Prog.runs_bind.mp h with ⟨y, w₃, hinvites, h⟩ | ⟨_, -, ho⟩ | ⟨_, -, ho⟩
    rotate_left
    · cases ho
    · cases ho
    rcases Prog.runs_bind.mp h with ⟨_, w₄, hdelete, h⟩ | ⟨_, -, ho⟩ | ⟨_, -, ho⟩
    rotate_left
    · cases ho
    · cases ho
    rcases Prog.runs_bind.mp h with ⟨_, w₅, hscan, h⟩ | ⟨_, -, ho⟩ | ⟨_, -, ho⟩
    rotate_left
    · cases ho
    · cases ho
    rcases runs_redis_cases h with ⟨hdel, -, rfl⟩ | ⟨-, ⟨e, he⟩, -⟩
    · exact ⟨a, x, y, w₁, w₂, w₃, w₄, w₅, rfl, hget, hlist, hmachines, hinvites, hdelete, hscan, hdel,
        exec_account_delete⟩
    · cases he
  · rintro ⟨a, x, y, w₁, w₂, w₃, w₄, w₅, ha, ⟨ch, hch, hpass⟩, hlist, hmachines, hinvites, hdelete, hscan,
      ⟨ch', hch', hpass'⟩, rfl⟩
    rw [readAccount, Prog.bind_assoc]
    refine runs_redis.mpr (.inl ⟨ch, hch, hpass, ?_⟩)
    rw [exec_account_get, ha]
    simp only [accountFromJson, Prog.ofExcept_ok, Prog.pure_bind, deleteBelongings, Prog.bind_assoc]
    refine Prog.runs_bind.mpr (.inl ⟨x, w₁, hlist, ?_⟩)
    refine Prog.runs_bind.mpr (.inl ⟨(), w₂, hmachines, ?_⟩)
    refine Prog.runs_bind.mpr (.inl ⟨y, w₃, hinvites, ?_⟩)
    refine Prog.runs_bind.mpr (.inl ⟨(), w₄, hdelete, ?_⟩)
    refine Prog.runs_bind.mpr (.inl ⟨(), w₅, hscan, ?_⟩)
    exact runs_redis.mpr (.inl ⟨ch', hch', hpass', rfl, exec_account_delete.symm⟩)

/-! ## What the parts come to -/

theorem runs_attempt_ok {ε' : Type} {q : Edge ε α} {x : Except ε α} :
    (Prog.attempt q : Edge ε' _).Runs Cmd.exec good w (.ok x) w' ↔
      (∃ a, x = .ok a ∧ q.Runs Cmd.exec good w (.ok a) w') ∨
        ∃ e, x = .error e ∧ q.Runs Cmd.exec good w (.err e) w' := by
  rw [Prog.runs_attempt]
  constructor
  · rintro (⟨a, hrun, ho⟩ | ⟨e, hrun, ho⟩ | ⟨msg, -, ho⟩)
    · exact .inl ⟨a, Outcome.ok.inj ho, hrun⟩
    · exact .inr ⟨e, Outcome.ok.inj ho, hrun⟩
    · cases ho
  · rintro (⟨a, rfl, hrun⟩ | ⟨e, rfl, hrun⟩)
    · exact .inl ⟨a, hrun, rfl⟩
    · exact .inr (.inl ⟨e, hrun, rfl⟩)

/-- What a listing of the machines returns, and why. -/
def ListsMachines (good : Cmd → Choice → Prop) (w : World) (email uuid : String)
    (x : Except InviteError (List Machine)) : Prop :=
  x = .ok ((listed w).filter fun m => m.owner = some uuid) ∧
      (∀ c ∈ machineReads w email, CanPass good c) ∧ Decodes w ∨
    (∃ e, x = .error e) ∧ ((∃ c ∈ machineReads w email, CanFail good c) ∨ ¬Decodes w)

/-- What a listing of the invites returns, and why. -/
def ListsInvites (p : Pages) (good : Cmd → Choice → Prop) (w : World) (email : String) (pages : ℕ)
    (y : Except InviteError (List (String × InviteRecord))) : Prop :=
  y = .ok ((p.keysFrom .invite pages "0").filterMap (ownInvite w email)) ∧
      (∀ c ∈ inviteReads p pages "0", CanPass good c) ∧
      (∀ code ∈ p.keysFrom .invite pages "0", ¬Unreadable w code) ∨
    (∃ e, y = .error e) ∧ ((∃ c ∈ inviteReads p pages "0", CanFail good c) ∨
      ∃ code ∈ p.keysFrom .invite pages "0", Unreadable w code)

/-- Which records are left once the machines of the list are deleted, and why. -/
def LeavesMachines (good : Cmd → Choice → Prop) (ms : List Machine) (w w' : World) : Prop :=
  ∀ n, w'.machines n = w.machines n ∧ ((∀ m ∈ ms, m.name ≠ n) ∨
        CanFail good (.redis (.machine n .get)) ∨ CanFail good (.redis (.machine n .del)) ∨
        w.machines n = none) ∨
    w'.machines n = none ∧ (∃ m ∈ ms, m.name = n) ∧
      CanPass good (.redis (.machine n .get)) ∧ CanPass good (.redis (.machine n .del))

variable (w w' p pages) in
/-- What the parts of a deletion came to, when each ran in an environment of its own. -/
structure Parts (g₁ g₂ g₃ : Cmd → Choice → Prop) (email uuid : String)
    (x : Except InviteError (List Machine)) (y : Except InviteError (List (String × InviteRecord))) :
    Prop where
  listsMachines : ListsMachines g₁ w email uuid x
  leavesMachines : LeavesMachines g₂ (x.toOption.getD []) w w'
  listsInvites : ListsInvites p g₃ w email pages y
  invites : ∀ code, w'.invites code =
    if code ∈ (y.toOption.getD []).map Prod.fst then none else w.invites code

/-- The scans of the deletion come to an end. -/
structure Pages.Finite (p : Pages) (pages : ℕ) : Prop where
  invites : p.EndsBy .invite pages "0"
  sessions : p.EndsBy .session pages "0"

/-- The parts of any deletion whose parts succeed. -/
theorem parts_of_runs {g₁ g₂ g₃ g₄ g₅ : Cmd → Choice → Prop} {a : AccountRecord}
    (hfinite : p.Finite pages) (hnormal : cp.normalizeEmail email = email)
    (ha : w.accounts email = some (.json a)) {x : Except InviteError (List Machine)}
    {y : Except InviteError (List (String × InviteRecord))} {w₁ w₂ w₃ w₄ w₅ : World}
    (hlist : (Prog.attempt (cp.machinesOf email) : Edge AccountError _).Runs Cmd.exec g₁ w (.ok x) w₁)
    (hmachines : (cp.deleteMachines (x.toOption.getD [])).Runs Cmd.exec g₂ w₁ (.ok ()) w₂)
    (hinvites : (Prog.attempt (invitesOf email pages) : Edge AccountError _).Runs Cmd.exec (Paged p g₃) w₂
      (.ok y) w₃)
    (hdelete : (deleteInvites (y.toOption.getD [])).Runs Cmd.exec g₄ w₃ (.ok ()) w₄)
    (hscan : (sessionsScan email pages "0").Runs Cmd.exec g₅ w₄ (.ok ()) w₅) :
    Parts w { w₅ with accounts := Function.update w₅.accounts email none } p pages g₁ g₂ (Paged p g₃) email
      a.uuid x y := by
  obtain ⟨rfl, hx⟩ : w₁ = w ∧ ListsMachines g₁ w email a.uuid x := by
    rcases runs_attempt_ok.mp hlist with ⟨ms, rfl, hrun⟩ | ⟨e, rfl, hrun⟩
    · obtain ⟨rfl, ⟨ho, hpasses⟩ | ⟨⟨e, ho⟩, -⟩⟩ := runs_machinesOf_cases hnormal ha hrun
      · exact ⟨rfl, .inl ⟨by rw [Outcome.ok.inj ho], hpasses⟩⟩
      · cases ho
    · obtain ⟨rfl, ⟨ho, -⟩ | ⟨-, htrouble⟩⟩ := runs_machinesOf_cases hnormal ha hrun
      · cases ho
      · exact ⟨rfl, .inr ⟨⟨e, rfl⟩, htrouble⟩⟩
  obtain ⟨-, hleaves⟩ := runs_deleteMachines_cases hmachines
  have hinvites₂ : w₂.invites = w₁.invites := runs_sameFamily writes_deleteMachines (f := .invite) (by simp) hmachines
  obtain ⟨rfl, hy⟩ : w₃ = w₂ ∧ ListsInvites p (Paged p g₃) w₂ email pages y := by
    rcases runs_attempt_ok.mp hinvites with ⟨invites, rfl, hrun⟩ | ⟨e, rfl, hrun⟩
    · obtain ⟨rfl, ⟨ho, hpasses⟩ | ⟨⟨e, ho⟩, -⟩⟩ := runs_invitesScan_cases hfinite.invites hrun
      · exact ⟨rfl, .inl ⟨by rw [Outcome.ok.inj ho], hpasses⟩⟩
      · cases ho
    · obtain ⟨rfl, ⟨ho, -⟩ | ⟨-, htrouble⟩⟩ := runs_invitesScan_cases hfinite.invites hrun
      · cases ho
      · exact ⟨rfl, .inr ⟨⟨e, rfl⟩, htrouble⟩⟩
  have hmachines₄ : w₄.machines = w₃.machines := runs_sameFamily writes_deleteInvites (f := .machine) (by simp) hdelete
  have hmachines₅ : w₅.machines = w₄.machines := runs_sameFamily writes_sessionsScan (f := .machine) (by simp) hscan
  have hinvites₅ : w₅.invites = w₄.invites := runs_sameFamily writes_sessionsScan (f := .invite) (by simp) hscan
  refine ⟨hx, fun n => ?_, ?_, fun code => ?_⟩
  · show w₅.machines n = _ ∧ _ ∨ w₅.machines n = none ∧ _
    rw [hmachines₅, hmachines₄]
    exact hleaves n
  · have hown : ownInvite w₃ email = ownInvite w₁ email := by
      ext code
      simp [ownInvite, hinvites₂]
    have hread : ∀ code, Unreadable w₃ code ↔ Unreadable w₁ code := by
      intro code
      rw [Unreadable, Unreadable, hinvites₂]
    rw [ListsInvites] at hy ⊢
    simpa only [hown, hread] using hy
  · rcases runs_deleteInvites_cases hdelete with ⟨-, hcodes⟩ | ⟨⟨e, he⟩, -⟩
    · show w₅.invites code = _
      rw [hinvites₅, hcodes, hinvites₂]
    · cases he

/-- An environment chooses, part by part, which of its commands fail, and the deletion succeeds. -/
theorem exists_accountDelete (X₁ X₂ X₃ : Cmd → Prop) (h₁ : ∀ c, X₁ c → F c) (h₂ : ∀ c, X₂ c → F c)
    (h₃ : ∀ c, X₃ c → F c) {a : AccountRecord} (hfinite : p.Finite pages)
    (hnormal : cp.normalizeEmail (cp.normalizeEmail email) = cp.normalizeEmail email)
    (ha : w.accounts (cp.normalizeEmail email) = some (.json a)) :
    ∃ x y w', Parts w w' p pages (Paged p (Exactly X₁)) (Paged p (Exactly X₂)) (Paged p (Exactly X₃))
        (cp.normalizeEmail email) a.uuid x y ∧
      (cp.accountDelete email pages).Runs Cmd.exec (Paged p (FailsOnly F)) w (.ok ()) w' := by
  have hnone : ∀ {c}, ¬CanFail (Paged p (Exactly fun _ => False)) c := fun h => canFail_exactly h
  have hpass : ∀ c, CanPass (Paged p (FailsOnly F)) c := by
    intro c
    obtain ⟨ch, hch⟩ := exists_exactly p (fun _ => False) c
    exact ⟨ch, failsOnly_of_exactly (fun _ => False.elim) hch, Bool.eq_false_iff.mpr hch.1.mp⟩
  -- the listing of the machines
  obtain ⟨o₁, w₁, hrun₁⟩ := Prog.exists_runs (exists_exactly p X₁)
    (Prog.attempt (cp.machinesOf (cp.normalizeEmail email)) : Edge AccountError _) w
  obtain ⟨x, rfl⟩ : ∃ x, o₁ = .ok x := by
    rcases Prog.runs_attempt.mp hrun₁ with ⟨_, -, rfl⟩ | ⟨_, -, rfl⟩ | ⟨msg, hrun, -⟩
    · exact ⟨_, rfl⟩
    · exact ⟨_, rfl⟩
    · obtain ⟨-, ⟨ho, -⟩ | ⟨⟨e, ho⟩, -⟩⟩ := runs_machinesOf_cases hnormal ha hrun
      · cases ho
      · cases ho
  obtain ⟨o₂, w₂, hrun₂⟩ := Prog.exists_runs (exists_exactly p X₂) (cp.deleteMachines (x.toOption.getD [])) w₁
  obtain rfl := (runs_deleteMachines_cases hrun₂).1
  -- the listing of the invites
  obtain ⟨o₃, w₃, hrun₃⟩ := Prog.exists_runs (exists_exactly p X₃)
    (Prog.attempt (invitesOf (cp.normalizeEmail email) pages) : Edge AccountError _) w₂
  obtain ⟨y, rfl⟩ : ∃ y, o₃ = .ok y := by
    rcases Prog.runs_attempt.mp hrun₃ with ⟨_, -, rfl⟩ | ⟨_, -, rfl⟩ | ⟨msg, hrun, -⟩
    · exact ⟨_, rfl⟩
    · exact ⟨_, rfl⟩
    · obtain ⟨-, ⟨ho, -⟩ | ⟨⟨e, ho⟩, -⟩⟩ := runs_invitesScan_cases hfinite.invites hrun
      · cases ho
      · cases ho
  -- the rest, in which nothing fails
  obtain ⟨o₄, w₄, hrun₄⟩ := Prog.exists_runs (exists_exactly p fun _ => False)
    (deleteInvites (y.toOption.getD [])) w₃
  obtain ⟨rfl, -⟩ := (runs_deleteInvites_cases hrun₄).resolve_right (by
    rintro ⟨-, c, hfail⟩
    exact hnone hfail)
  obtain ⟨o₅, w₅, hrun₅⟩ := Prog.exists_runs (exists_exactly p fun _ => False)
    (sessionsScan (cp.normalizeEmail email) pages "0") w₄
  obtain rfl := (runs_sessionsScan_end hfinite.sessions hrun₅).resolve_right (by
    rintro ⟨-, c, hfail⟩
    exact hnone hfail)
  refine ⟨x, y, _, parts_of_runs hfinite hnormal ha hrun₁ hrun₂ hrun₃ hrun₄ hrun₅, ?_⟩
  have hfalse : ∀ c ch, Paged p (Exactly fun _ => False) c ch → Paged p (FailsOnly F) c ch :=
    fun _ _ hch => failsOnly_of_exactly (fun _ => False.elim) hch
  exact runs_accountDelete_ok.mpr ⟨a, x, y, w₁, w₂, w₃, w₄, w₅, ha, hpass _,
    hrun₁.mono fun _ _ hch => failsOnly_of_exactly h₁ hch, hrun₂.mono fun _ _ hch => failsOnly_of_exactly h₂ hch,
    hrun₃.mono fun _ _ hch => failsOnly_of_exactly h₃ hch, hrun₄.mono hfalse, hrun₅.mono hfalse, hpass _, rfl⟩

/-! ## What a deletion should leave -/

variable (cp email w w') in
/-- Nothing of the account is left, and everything else is. -/
structure Deleted : Prop where
  machines : ∀ a, w.accounts (cp.normalizeEmail email) = some (.json a) →
    ∀ n m, w'.machines n = some (.json m) → m.owner ≠ some a.uuid
  invites : ∀ code r, w'.invites code = some (.json r) → r.ownerEmail ≠ cp.normalizeEmail email
  sessions : ∀ t, w'.sessions t ≠ some (cp.normalizeEmail email)
  account : w'.accounts (cp.normalizeEmail email) = none
  otherMachines : ∀ a, w.accounts (cp.normalizeEmail email) = some (.json a) →
    ∀ n, (∀ m, w.machines n = some (.json m) → m.owner ≠ some a.uuid) → w'.machines n = w.machines n
  otherInvites : ∀ code, (∀ r, w.invites code = some (.json r) → r.ownerEmail ≠ cp.normalizeEmail email) →
    w'.invites code = w.invites code
  otherSessions : ∀ t, w.sessions t ≠ some (cp.normalizeEmail email) → w'.sessions t = w.sessions t
  otherAccounts : ∀ e, e ≠ cp.normalizeEmail email → w'.accounts e = w.accounts e

variable (cp F p email pages w) in
/-- A deletion that succeeds can miss nothing. -/
structure Deletable : Prop where
  /-- A stored machine of the account is listed under its name, and neither the listing nor the deletion of
  its record can fail. -/
  machines : ∀ a, w.accounts (cp.normalizeEmail email) = some (.json a) →
    ∀ n m, w.machines n = some (.json m) → m.owner = some a.uuid →
      (∀ c ∈ machineReads w (cp.normalizeEmail email), ¬F c) ∧ Decodes w ∧
      (∃ m' ∈ listed w, m'.owner = some a.uuid ∧ m'.name = n) ∧
      ¬F (.redis (.machine n .get)) ∧ ¬F (.redis (.machine n .del))
  /-- Nobody else's machine has the name of one that is listed. -/
  names : ∀ a, w.accounts (cp.normalizeEmail email) = some (.json a) →
    ∀ m ∈ listed w, m.owner = some a.uuid → ∀ x, w.machines m.name = some x →
      ∃ m', x = .json m' ∧ m'.owner = some a.uuid
  /-- If an invite of the account is stored, the listing of the invites cannot fail. -/
  invites : ∀ a, w.accounts (cp.normalizeEmail email) = some (.json a) →
    ∀ code r, w.invites code = some (.json r) → r.ownerEmail = cp.normalizeEmail email →
      (∀ c ∈ inviteReads p pages "0", ¬F c) ∧ ∀ k ∈ p.keysFrom .invite pages "0", ¬Unreadable w k

/-- A scan that has come to an end has returned every key. -/
theorem Pages.mem_keysFrom {f : Family} {n : ℕ} {key : String} (hends : p.EndsBy f pages cursor)
    (hkey : key ∈ p.keysFrom f n cursor) : key ∈ p.keysFrom f pages cursor := by
  induction pages generalizing n cursor with
  | zero => exact absurd hends not_false
  | succ pages ih =>
    rcases n with _ | n
    · cases hkey
    rw [Pages.keysFrom] at hkey ⊢
    by_cases hend : (p f cursor).1 = "0"
    · rw [if_pos hend] at hkey ⊢
      exact hkey
    · rw [if_neg hend] at hkey ⊢
      rcases List.mem_append.mp hkey with hkey | hkey
      · exact List.mem_append_left _ hkey
      · exact List.mem_append_right _ (ih (hends.resolve_left hend) hkey)

theorem toOption_getD_mem {β : Type} {x : Except ε (List β)} {b : β} (h : b ∈ x.toOption.getD []) :
    ∃ bs, x = .ok bs ∧ b ∈ bs := by
  cases x with
  | ok bs => exact ⟨bs, rfl, h⟩
  | error e => cases h

/-- A machine that the listing returned is listed, and the account's. -/
theorem ListsMachines.mem {uuid : String} {x : Except InviteError (List Machine)}
    (h : ListsMachines good w email uuid x) {m : Machine} (hm : m ∈ x.toOption.getD []) :
    m ∈ listed w ∧ m.owner = some uuid := by
  obtain ⟨ms, rfl, hmem⟩ := toOption_getD_mem hm
  rcases h with ⟨ho, -⟩ | ⟨⟨e, ho⟩, -⟩
  · obtain rfl := Except.ok.inj ho
    simpa using hmem
  · cases ho

/-- An invite that the listing returned is the account's. -/
theorem ListsInvites.mem {y : Except InviteError (List (String × InviteRecord))}
    (h : ListsInvites p good w email pages y) {code : String}
    (hcode : code ∈ (y.toOption.getD []).map Prod.fst) :
    ∃ r, w.invites code = some (.json r) ∧ r.ownerEmail = email := by
  obtain ⟨⟨code', r⟩, hmem, rfl⟩ := List.mem_map.mp hcode
  obtain ⟨invites, rfl, hmem⟩ := toOption_getD_mem hmem
  rcases h with ⟨ho, -⟩ | ⟨⟨e, ho⟩, -⟩
  · obtain rfl := Except.ok.inj ho
    obtain ⟨k, -, hk⟩ := List.mem_filterMap.mp hmem
    obtain ⟨rfl, hr, howner⟩ := ownInvite_eq_some.mp hk
    exact ⟨r, hr, howner⟩
  · cases ho

section Iff

variable (hfinite : p.Finite pages)
  (hnormal : cp.normalizeEmail (cp.normalizeEmail email) = cp.normalizeEmail email)
include hfinite hnormal

/-- A deletion that can miss nothing misses nothing. -/
theorem deleted_of_deletable (hcomplete : p.Complete w) (hd : Deletable cp w F p email pages)
    (h : (cp.accountDelete email pages).Runs Cmd.exec (Paged p (FailsOnly F)) w (.ok ()) w') :
    Deleted cp w w' email := by
  obtain ⟨-, -, hthin, ⟨hnot, -⟩ | ⟨-, haccounts, hgone⟩⟩ := runs_accountDelete h
  · exact absurd rfl (hnot ())
  obtain ⟨a, x, y, w₁, w₂, w₃, w₄, w₅, ha, -, hlist, hmachines, hinvites, hdelete, hscan, -, rfl⟩ :=
    runs_accountDelete_ok.mp h
  have hparts := parts_of_runs hfinite hnormal ha hlist hmachines hinvites hdelete hscan
  have haccount : ∀ {a'}, w.accounts (cp.normalizeEmail email) = some (.json a') → a' = a := by
    intro a' ha'
    cases ha.symm.trans ha'
    rfl
  refine ⟨fun a' ha' n m hm hown => ?_, fun code r hr hown => ?_, fun t ht => ?_, ?_,
    fun a' ha' n hother => ?_, fun code hother => ?_, fun t ht => ?_, fun e he => ?_⟩
  · obtain rfl := haccount ha'
    rcases hparts.leavesMachines n with ⟨hsame, hwhy⟩ | ⟨hnone, -⟩
    swap
    · cases hnone.symm.trans hm
    obtain ⟨hreads, hdec, ⟨m', hm', howner, hname⟩, hget, hdel⟩ :=
      hd.machines _ ha n m (hsame.symm.trans hm) hown
    rcases hwhy with hnone | hfail | hfail | hnone
    · rcases hparts.listsMachines with ⟨rfl, -⟩ | ⟨-, ⟨c, hc, hfail⟩ | hnot⟩
      · exact hnone m' (List.mem_filter.mpr ⟨hm', decide_eq_true howner⟩) hname
      · exact hreads c hc (canFail_failsOnly hfail)
      · exact hnot hdec
    · exact hget (canFail_failsOnly hfail)
    · exact hdel (canFail_failsOnly hfail)
    · cases (hsame.trans hnone).symm.trans hm
  · have hcode := hparts.invites code
    rw [hr] at hcode
    split_ifs at hcode with hmem
    obtain ⟨hreads, hreadable⟩ := hd.invites a ha code r hcode.symm hown
    rcases hparts.listsInvites with ⟨rfl, -⟩ | ⟨-, ⟨c, hc, hfail⟩ | ⟨k, hk, hunreadable⟩⟩
    · obtain ⟨n, hn⟩ := hcomplete.invites code (by rw [← hcode]; exact Option.some_ne_none _)
      refine hmem (List.mem_map.mpr ⟨(code, r), List.mem_filterMap.mpr
        ⟨code, Pages.mem_keysFrom hfinite.invites hn, ?_⟩, rfl⟩)
      exact ownInvite_eq_some.mpr ⟨rfl, hcode.symm, hown⟩
    · exact hreads c hc (canFail_failsOnly hfail)
    · exact hreadable k hk hunreadable
  · rcases hthin t with hsame | ⟨-, hnone⟩
    · obtain ⟨n, hn⟩ := hcomplete.sessions t (by rw [← hsame, ht]; exact Option.some_ne_none _)
      exact hgone n t hn ht
    · cases hnone.symm.trans ht
  · rw [haccounts, Function.update_self]
  · obtain rfl := haccount ha'
    rcases hparts.leavesMachines n with ⟨hsame, -⟩ | ⟨hnone, ⟨m, hm, rfl⟩, -⟩
    · exact hsame
    · obtain ⟨hlisted, howner⟩ := hparts.listsMachines.mem hm
      rcases hx : w.machines m.name with _ | x
      · exact hnone
      · obtain ⟨m', rfl, howner'⟩ := hd.names _ ha m hlisted howner x hx
        exact absurd howner' (hother m' hx)
  · rw [hparts.invites code, if_neg]
    intro hmem
    obtain ⟨r, hr, howner⟩ := hparts.listsInvites.mem hmem
    exact hother r hr howner
  · rcases hthin t with hsame | ⟨hmine, -⟩
    · exact hsame
    · exact absurd hmine ht
  · rw [haccounts, Function.update_of_ne he]

/-- A deletion that misses nothing could miss nothing: if one of its commands can fail, the environment can
let it fail. -/
theorem deletable_of_deleted (h : ∀ w', (cp.accountDelete email pages).Runs Cmd.exec (Paged p (FailsOnly F)) w
    (.ok ()) w' → Deleted cp w w' email) : Deletable cp w F p email pages := by
  have hfalse : ∀ c : Cmd, False → F c := fun _ => False.elim
  have hmachines : ∀ a, w.accounts (cp.normalizeEmail email) = some (.json a) →
      ∀ n m, w.machines n = some (.json m) → m.owner = some a.uuid →
        (∀ c ∈ machineReads w (cp.normalizeEmail email), ¬F c) ∧ Decodes w ∧
        (∃ m' ∈ listed w, m'.owner = some a.uuid ∧ m'.name = n) ∧
        ¬F (.redis (.machine n .get)) ∧ ¬F (.redis (.machine n .del)) := by
    intro a ha n m hm hown
    obtain ⟨x, y, w', hparts, hrun⟩ :=
      exists_accountDelete F F (fun _ => False) (fun _ => id) (fun _ => id) hfalse hfinite hnormal ha
    rcases hparts.leavesMachines n with ⟨hsame, -⟩ | ⟨-, ⟨m', hm', hname⟩, hget, hdel⟩
    · exact absurd hown ((h w' hrun).machines a ha n m (hsame.trans hm))
    · obtain ⟨hlisted, howner⟩ := hparts.listsMachines.mem hm'
      rcases hparts.listsMachines with ⟨-, hpasses, hdec⟩ | ⟨⟨e, rfl⟩, -⟩
      · exact ⟨fun c hc => canPass_exactly (hpasses c hc), hdec, ⟨m', hlisted, howner, hname⟩,
          canPass_exactly hget, canPass_exactly hdel⟩
      · cases hm'
  refine ⟨hmachines, fun a ha m hlisted howner x hx => ?_, fun a ha code r hr hown => ?_⟩
  · obtain ⟨x', y, w', hparts, hrun⟩ := exists_accountDelete (fun _ => False) (fun _ => False)
      (fun _ => False) hfalse hfalse hfalse hfinite hnormal ha
    obtain ⟨k, -, hk⟩ := List.mem_filterMap.mp hlisted
    obtain ⟨-, hdec, -⟩ := hmachines a ha k m (machineAt_eq_some.mp hk) howner
    by_contra hnot
    have hsame := (h w' hrun).otherMachines a ha m.name fun m' hm' hown =>
      hnot ⟨m', Option.some.inj (hx.symm.trans hm'), hown⟩
    rcases hparts.leavesMachines m.name with ⟨-, hwhy⟩ | ⟨hnone, -⟩
    · rcases hwhy with hname | hfail | hfail | hnone
      · rcases hparts.listsMachines with ⟨rfl, -⟩ | ⟨-, ⟨c, -, hfail⟩ | hundec⟩
        · exact hname m (List.mem_filter.mpr ⟨hlisted, decide_eq_true howner⟩) rfl
        · exact canFail_exactly hfail
        · exact hundec hdec
      · exact canFail_exactly hfail
      · exact canFail_exactly hfail
      · cases hnone.symm.trans hx
    · cases (hnone.symm.trans hsame).trans hx
  · obtain ⟨x, y, w', hparts, hrun⟩ := exists_accountDelete (fun _ => False) (fun _ => False) F
      hfalse hfalse (fun _ => id) hfinite hnormal ha
    have hcode := hparts.invites code
    split_ifs at hcode with hmem
    · rcases hparts.listsInvites with ⟨-, hpasses, hreadable⟩ | ⟨⟨e, rfl⟩, -⟩
      · exact ⟨fun c hc => canPass_exactly (hpasses c hc), hreadable⟩
      · cases hmem
    · exact absurd hown ((h w' hrun).invites code r (hcode.trans hr))

end Iff

/-- **When a deletion that succeeds has deleted everything**, and nothing else: exactly for the stores and
the failures for which it can miss nothing. -/
theorem accountDelete_deleted_iff (hfinite : p.Finite pages) (hcomplete : p.Complete w)
    (hnormal : cp.normalizeEmail (cp.normalizeEmail email) = cp.normalizeEmail email) :
    (∀ w', (cp.accountDelete email pages).Runs Cmd.exec (Paged p (FailsOnly F)) w (.ok ()) w' →
      Deleted cp w w' email) ↔ Deletable cp w F p email pages :=
  ⟨deletable_of_deleted hfinite hnormal,
    fun hd _ hrun => deleted_of_deletable hfinite hnormal hcomplete hd hrun⟩

/-! ## A store with a record that does not decode -/

def ownerAccount : AccountRecord := ⟨"00000000-0000-4000-8000-000000000000", .active, "", none⟩

/-- The owner's machine. -/
def attic : Machine := ⟨"attic", some ownerAccount.uuid, "attic.example.net", "2a01:4f8:c17:1::2", "10.10.0.2",
  keyA, none⟩

/-- The owner has a machine. -/
def atticWorld : World :=
  { World.empty with
    accounts := Function.update World.empty.accounts "owner@example.net" (some (.json ownerAccount))
    machines := Function.update World.empty.machines "attic" (some (.json attic))
    index := ["attic"] }

/-- Somebody else has a machine too, whose record does not decode. -/
def spoiltWorld : World :=
  { atticWorld with
    machines := Function.update atticWorld.machines "shed" (some (.corrupt "\x7b" "EOF while parsing an object"))
    index := ["attic", "shed"] }

/-- Scans of a store without invites and sessions. -/
def onePage : Pages := fun _ _ => ("0", [])

theorem onePage_finite : onePage.Finite 1 := ⟨.inl rfl, .inl rfl⟩

theorem onePage_complete (hinvites : ∀ code, w.invites code = none) (hsessions : ∀ t, w.sessions t = none) :
    onePage.Complete w where
  invites code hcode := absurd (hinvites code) hcode
  sessions t ht := absurd (hsessions t) ht

theorem onePage_good (c : Cmd) : Paged onePage (FailsOnly fun _ => False) c default := by
  refine ⟨?_, fun _ _ _ => rfl⟩
  intro h
  cases h

/-- What a program computes when no command fails is one of its runs. -/
theorem runs_onePage {prog : Prog Cmd Cmd.Resp ε α} {out : Outcome ε α}
    (h : (prog.eval Cmd.exec [] w).1 = out) :
    prog.Runs Cmd.exec (Paged onePage (FailsOnly fun _ => False)) w out
      (prog.eval Cmd.exec [] w).2 := by
  rw [← h]
  exact Prog.runs_eval onePage_good fun _ _ hch => absurd hch List.not_mem_nil

/-- In a store whose records decode, the deletion succeeds, and the owner's machine is gone. -/
theorem accountDelete_deleted_attic :
    (∃ w', (sample.accountDelete "owner@example.net" 1).Runs Cmd.exec
      (Paged onePage (FailsOnly fun _ => False)) atticWorld (.ok ()) w') ∧
    ∀ w', (sample.accountDelete "owner@example.net" 1).Runs Cmd.exec
      (Paged onePage (FailsOnly fun _ => False)) atticWorld (.ok ()) w' →
        Deleted sample atticWorld w' "owner@example.net" := by
  have hend : ((sample.accountDelete "owner@example.net" 1).eval Cmd.exec [] atticWorld).1 = .ok () := by
    decide
  refine ⟨⟨_, runs_onePage hend⟩, ?_⟩
  have hnormal : sample.normalizeEmail "owner@example.net" = "owner@example.net" := by decide
  have hmachine : ∀ {n m}, atticWorld.machines n = some (.json m) → n = "attic" ∧ m = attic := by
    intro n m hm
    rcases update_cases hm with ⟨rfl, heq⟩ | ⟨-, hnone⟩
    · cases heq
      exact ⟨rfl, rfl⟩
    · cases hnone
  have hlisted : attic ∈ listed atticWorld := by decide
  refine (accountDelete_deleted_iff onePage_finite (onePage_complete (fun _ => rfl) fun _ => rfl)
    (by rw [hnormal, hnormal])).mpr ⟨fun a ha n m hm hown => ?_, fun a ha m hm hown x hx => ?_,
      fun a ha code r hr => ?_⟩
  · obtain ⟨rfl, rfl⟩ := hmachine hm
    refine ⟨fun _ _ => not_false, ?_, ⟨attic, hlisted, hown, rfl⟩, not_false, not_false⟩
    intro n hn text err hcorrupt
    rcases update_cases hcorrupt with ⟨-, heq⟩ | ⟨-, hnone⟩
    · cases heq
    · cases hnone
  · obtain ⟨k, -, hk⟩ := List.mem_filterMap.mp hm
    obtain ⟨-, rfl⟩ := hmachine (machineAt_eq_some.mp hk)
    have hx' : x = .json attic := by
      have hattic : atticWorld.machines attic.name = some (.json attic) := by decide
      exact Option.some.inj (hx.symm.trans hattic)
    exact ⟨attic, hx', hown⟩
  · cases hr

/-- A record of somebody else that does not decode hides the owner's machine, and the account goes without
it. -/
theorem accountDelete_leaves_attic : onePage.Finite 1 ∧ onePage.Complete spoiltWorld ∧
    ∃ w', (sample.accountDelete "owner@example.net" 1).Runs Cmd.exec
        (Paged onePage (FailsOnly fun _ => False)) spoiltWorld (.ok ()) w' ∧
      w'.accounts "owner@example.net" = none ∧ w'.machines "attic" = some (.json attic) ∧
      ¬Deleted sample spoiltWorld w' "owner@example.net" := by
  refine ⟨onePage_finite, onePage_complete (fun _ => rfl) fun _ => rfl, ?_⟩
  have hend : ((sample.accountDelete "owner@example.net" 1).eval Cmd.exec [] spoiltWorld).1 = .ok () ∧
      ((sample.accountDelete "owner@example.net" 1).eval Cmd.exec [] spoiltWorld).2.accounts
        "owner@example.net" = none ∧
      ((sample.accountDelete "owner@example.net" 1).eval Cmd.exec [] spoiltWorld).2.machines "attic" =
        some (.json attic) := by
    decide
  refine ⟨_, runs_onePage hend.1, hend.2.1, hend.2.2, fun hdeleted => ?_⟩
  exact hdeleted.machines ownerAccount (by decide) "attic" attic hend.2.2 rfl

end ControlPlane
end Cococoir
