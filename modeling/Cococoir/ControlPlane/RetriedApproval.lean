import Cococoir.Concurrency.Faults
import Cococoir.ControlPlane.Approval
import Cococoir.ControlPlane.Fleet
import Cococoir.ControlPlane.Moves

/-!
# An approval that is tried again

The store fails once during an approval, and the owner approves again under the same name.  An
approval issues up to ten Redis commands: it reads the invite, the account and the name, takes a
host index with two commands, stores the record, lists the name, stores the record with the
token's hash, stores the payload, and records the approval.  Whatever was done before the
failure stays.

* `FailedApproval`: what an approval leaves, by the number of the command that fails.
* `retry_enrolls_iff`: when the second approval enrols the machine.

## Counting the commands

Which command fails is said by its number, so the world gets a counter of the commands that are
still to succeed; `Concurrency.Faults` has this for any world.  A program is followed as if
nothing failed, and at each of its Redis commands there is the case that this one fails.  What is
left behind then is one of a few worlds: `FailedFresh` for the allocation, `FailedApproval` for
the whole.

The second approval runs without failures from such a world.  If the failing command came before
the machine's record was stored, the name is free and the approval goes as the first should have
gone, with the next index at worst.  If it came later the name is taken, and an approval under a
taken name is refused, for good.  The theorem goes through the ten numbers, and for each says
which.
-/

namespace Cococoir
namespace ControlPlane

open Concurrency

/-- The commands that go to Redis. -/
def Cmd.isRedis : Cmd → Bool
  | .redis _ | .scan _ _ => true
  | _ => false

/-- The world with one failure of Redis to come. -/
abbrev failing : Choice → (c : Cmd) → World × Option ℕ → c.Resp × (World × Option ℕ) :=
  faulty Cmd.exec Cmd.isRedis fun ch => { ch with fails := true }

/-- Besides, neither Redis nor `wg` nor a listener fails. -/
def Up (c : Cmd) (ch : Choice) : Prop := Reliable c ch ∧ ∀ fwd, c = .addForward fwd → ch.fails = false

variable {cp : ControlPlane} {w w' : World} {t : Option ℕ} {s : World × Option ℕ} {ε ε' α β : Type}

theorem up_default (c : Cmd) : Up c default := by
  refine ⟨?_, fun _ _ => rfl⟩
  cases c <;> first | rfl | trivial

/-! ## Commands -/

/-- A Redis command is the one that fails, or a step of the run. -/
theorem runs_redis_failing [FromRedis ε] {op : RedisOp} {f : op.Resp → Edge ε α} {o : Outcome ε α}
    (h : (redis op >>= f).Runs failing Up (w, t) o s) :
    (t = some 0 ∧ (∃ e, o = .err e) ∧ s = (w, none)) ∨
      (t ≠ some 0 ∧ (f (op.exec w).1).Runs failing Up ((op.exec w).2, countdown t) o s) := by
  obtain ⟨ch, ⟨hch, -⟩, h⟩ := h
  by_cases ht : t = some 0
  · subst ht
    have hexec : failing ch (.redis op) (w, some 0) = (.error (.server ch.text), (w, none)) := rfl
    rw [hexec] at h
    obtain ⟨rfl, rfl⟩ := h
    exact Or.inl ⟨rfl, ⟨_, rfl⟩, rfl⟩
  · have hch : ch.fails = false := hch
    have hexec : failing ch (.redis op) (w, t) =
        (.ok (op.exec w).1, ((op.exec w).2, countdown t)) := by
      simp [failing, faulty, struck_of_ne ht, exec_redis_of_not_fails hch, Cmd.isRedis]
    rw [hexec] at h
    exact Or.inr ⟨ht, h⟩

theorem runs_redis_last_failing [FromRedis ε] {op : RedisOp} {o : Outcome ε op.Resp}
    (h : (redis op).Runs failing Up (w, t) o s) :
    (t = some 0 ∧ (∃ e, o = .err e) ∧ s = (w, none)) ∨
      (t ≠ some 0 ∧ o = .ok (op.exec w).1 ∧ s = ((op.exec w).2, countdown t)) := by
  rw [← Prog.bind_pure (redis op)] at h
  exact runs_redis_failing h

/-- Another command is executed as ever. -/
theorem runs_issue_failing {c : Cmd} (hc : c.isRedis = false) {f : c.Resp → Edge ε α}
    {o : Outcome ε α} (h : (Prog.issue c >>= f).Runs failing Up (w, t) o s) :
    ∃ ch, Up c ch ∧ (f (Cmd.exec ch c w).1).Runs failing Up ((Cmd.exec ch c w).2, t) o s :=
  (runs_faulty_uncounted hc).mp h

/-! ## A new route -/

/-- The host index is handed out: it is that of a host, within both subnets. -/
def Hosts (cp : ControlPlane) (i : ℤ) : Prop := 2 ≤ i ∧ (cp.hostStrings i.toNat).isSome

instance (i : ℤ) : Decidable (Hosts cp i) := inferInstanceAs (Decidable (_ ∧ _))

theorem exec_addForward_up {ch : Choice} (hch : ch.fails = false) {fwd : Forward} :
    Cmd.exec ch (.addForward fwd) w =
      (.ok (), { w with forwards := bindForward w.forwards fwd }) := by
  unfold bindForward
  simp only [Cmd.exec]
  split_ifs with hlive hfails
  · rfl
  · rw [hch] at hfails
    cases hfails
  · rfl

theorem runs_addForwards_failing {name : String} {m : Machine} {ports : List (ℕ × ℕ)}
    {o : Outcome ControlPlaneError Unit}
    (h : (addForwards name m ports).Runs failing Up (w, t) o s) :
    o = .ok () ∧ s = ({ w with forwards := bindAll m ports w.forwards }, t) := by
  induction ports generalizing w with
  | nil => exact h
  | cons p ports ih =>
    obtain ⟨ch, hch, h⟩ := runs_issue_failing rfl h
    rw [exec_addForward_up (hch.2 _ rfl)] at h
    exact ih h

/-- Wiring succeeds. -/
theorem runs_wire_failing {m : Machine} {o : Outcome ControlPlaneError Unit}
    (h : (cp.wire m).Runs failing Up (w, t) o s) :
    o = .ok () ∧ ∃ dns, s = ({ w with
      peers := setPeer w.peers m.wgIp m.wgPublicKey
      forwards := bindAll m edgeForwards w.forwards
      dns := dns }, t) := by
  obtain ⟨ch, ⟨hch, -⟩, h⟩ := runs_issue_failing rfl h
  have hch : ch.fails = false := hch
  rw [Cmd.exec, if_neg (by simp [hch])] at h
  rcases Prog.runs_bind.mp h with ⟨_, s₁, hbind, h⟩ | ⟨e, hbind, -⟩ | ⟨msg, hbind, -⟩
  · obtain ⟨-, rfl⟩ := runs_addForwards_failing hbind
    have hdns := (runs_faulty_of_all (by exact ⟨rfl, fun _ => ⟨rfl, fun _ => trivial⟩⟩)).mp h
    obtain ⟨r, dns, rfl, hs⟩ := runs_upsertMachine hdns.1
    exact ⟨rfl, dns, Prod.ext hs hdns.2⟩
  · cases (runs_addForwards_failing hbind).1
  · cases (runs_addForwards_failing hbind).1

/-- What an allocation of a free name leaves when one of its commands fails, or none. -/
inductive FailedFresh (cp : ControlPlane) (owner : Option String) (name key : String) (w : World) :
    Option ℕ → Outcome ControlPlaneError Machine → World → Option ℕ → Prop
  /-- No index was taken. -/
  | uncounted {n : ℕ} {o : Outcome ControlPlaneError Machine} {left : Option ℕ} (alloc : Option ℤ)
      (hn : n ≤ 1) (hnot : ∀ m, o ≠ .ok m) (hnext : alloc.getD 1 + 1 = nextIndex w) :
    FailedFresh cp owner name key w (some n) o { w with alloc := alloc } left
  /-- An index was taken and is lost. -/
  | lost {t left : Option ℕ} {o : Outcome ControlPlaneError Machine}
      (hwhy : t = some 2 ∨ t ≠ some 0 ∧ t ≠ some 1 ∧ ¬Hosts cp (nextIndex w))
      (hnot : ∀ m, o ≠ .ok m) :
    FailedFresh cp owner name key w t o { w with alloc := some (nextIndex w) } left
  /-- The record is stored, and nothing more. -/
  | unlisted {o : Outcome ControlPlaneError Machine} {left : Option ℕ} (ips : String × String)
      (hhosts : Hosts cp (nextIndex w)) (hnot : ∀ m, o ≠ .ok m) :
    FailedFresh cp owner name key w (some 3) o
      { enlisted (cp.freshMachine owner name key ips.1 ips.2) w with index := w.index } left
  | created {t : Option ℕ} {dns : String → Option String} (ips : String × String)
      (ht : ∀ n ≤ 3, t ≠ some n) (hhosts : Hosts cp (nextIndex w)) :
    FailedFresh cp owner name key w t (.ok (cp.freshMachine owner name key ips.1 ips.2))
      { routed (cp.freshMachine owner name key ips.1 ips.2) w with dns := dns }
      (countdown (countdown (countdown (countdown t))))

theorem runs_allocateFresh_failing {owner : Option String} {name key : String}
    {o : Outcome ControlPlaneError Machine} (hfree : w.machines name = none)
    (h : (cp.allocateFresh owner name key).Runs failing Up (w, t) o s) :
    FailedFresh cp owner name key w t o s.1 s.2 := by
  rw [allocateFresh] at h
  rcases runs_redis_failing h with ⟨rfl, ⟨e, rfl⟩, rfl⟩ | ⟨h0, h⟩
  · exact .uncounted w.alloc (by omega) (fun _ => Outcome.err_ne_ok) rfl
  rw [exec_seed] at h
  rcases runs_redis_failing h with ⟨h1, ⟨e, rfl⟩, rfl⟩ | ⟨h1, h⟩
  · rw [countdown_eq_some] at h1
    subst h1
    exact .uncounted (some (w.alloc.getD 1)) le_rfl (fun _ => Outcome.err_ne_ok) rfl
  simp only [ne_eq, countdown_eq_some] at h1
  rw [exec_takeIndex (z := w.alloc.getD 1) rfl] at h
  change (if nextIndex w < 2 then _ else _ : Edge _ _).Runs _ _
    ({ w with alloc := some (nextIndex w) }, _) _ _ at h
  split_ifs at h with htwo
  · obtain ⟨rfl, rfl⟩ := h
    exact .lost (Or.inr ⟨h0, h1, fun hh => absurd hh.1 (not_le.mpr htwo)⟩) fun _ => Outcome.err_ne_ok
  have htwo := not_lt.mp htwo
  rcases runs_expect.mp h with ⟨ips, hips, h⟩ | ⟨hips, rfl, rfl⟩
  swap
  · refine .lost (Or.inr ⟨h0, h1, fun hh => ?_⟩) fun _ => Outcome.panic_ne_ok
    have hsome : (cp.hostStrings (nextIndex w).toNat).isSome := hh.2
    rw [show cp.hostStrings (nextIndex w).toNat = none from hips] at hsome
    cases hsome
  have hips : cp.hostStrings (nextIndex w).toNat = some ips := hips
  have hhosts : Hosts cp (nextIndex w) := ⟨htwo, by rw [hips]; rfl⟩
  rcases runs_redis_failing h with ⟨h2, ⟨e, rfl⟩, rfl⟩ | ⟨h2, h⟩
  · simp only [countdown_eq_some] at h2
    exact .lost (Or.inl h2) fun _ => Outcome.err_ne_ok
  simp only [ne_eq, countdown_eq_some] at h2
  rw [exec_claim (w := { w with alloc := some (nextIndex w) }) hfree, if_pos rfl] at h
  rcases runs_redis_failing h with ⟨h3, ⟨e, rfl⟩, rfl⟩ | ⟨h3, h⟩
  · simp only [countdown_eq_some] at h3
    subst h3
    exact .unlisted ips hhosts fun _ => Outcome.err_ne_ok
  simp only [ne_eq, countdown_eq_some] at h3
  rcases Prog.runs_bind.mp h with ⟨_, s₁, hwire, h⟩ | ⟨e, hwire, -⟩ | ⟨msg, hwire, -⟩
  · obtain ⟨-, dns, rfl⟩ := runs_wire_failing hwire
    obtain ⟨rfl, rfl⟩ := h
    refine .created ips (fun n hn => ?_) hhosts
    obtain rfl | rfl | rfl | rfl : n = 0 ∨ n = 1 ∨ n = 2 ∨ n = 3 := by omega
    all_goals assumption
  · cases (runs_wire_failing hwire).1
  · cases (runs_wire_failing hwire).1

/-! ## The approval -/

/-- The store still has the invite and the account as they were, and the name is not freed. -/
structure Undecided (name : String) (w w' : World) : Prop where
  invites : w'.invites = w.invites
  accounts : w'.accounts = w.accounts
  taken : (w.machines name).isSome → (w'.machines name).isSome

theorem Undecided.refl (name : String) (w : World) : Undecided name w w := ⟨rfl, rfl, id⟩

/-- The existing record keeps its name, whatever fails. -/
theorem runs_ensureKey_failing {name key : String} {m : Machine} {o : Outcome ControlPlaneError Machine}
    (h : (ensureKey name key m).Runs failing Up (w, t) o s) : Undecided name w s.1 := by
  unfold ensureKey at h
  split_ifs at h with hkey
  · obtain ⟨ch, ⟨hch, -⟩, h⟩ := runs_issue_failing rfl h
    have hch : ch.fails = false := hch
    rw [Cmd.exec, if_neg (by simp [hch])] at h
    obtain ⟨rfl, rfl⟩ := h
    exact ⟨rfl, rfl, id⟩
  · obtain ⟨ch, ⟨hch, -⟩, h⟩ := runs_issue_failing rfl h
    have hch : ch.fails = false := hch
    rw [Cmd.exec, if_neg (by simp [hch])] at h
    obtain ⟨ch', ⟨hch', -⟩, h⟩ := runs_issue_failing rfl h
    have hch' : ch'.fails = false := hch'
    rw [Cmd.exec, if_neg (by simp [hch'])] at h
    rcases runs_redis_failing h with ⟨-, -, rfl⟩ | ⟨-, h⟩
    · exact ⟨rfl, rfl, id⟩
    · obtain ⟨rfl, rfl⟩ := h
      refine ⟨rfl, rfl, fun _ => ?_⟩
      rw [exec_machine_set]
      simp

/-- An allocation that does not pass its checks leaves the world, whatever fails. -/
theorem runs_allocateMachine_unpassed {owner : Option String} {name key : String}
    (hgate : ∀ edge, allocationGate cp name key ≠ .ok edge)
    {o : Outcome ControlPlaneError SignupOutcome}
    (h : (cp.allocateMachine owner name key).Runs failing Up (w, t) o s) :
    s.1 = w ∧ ∀ outcome, o ≠ .ok outcome := by
  obtain ⟨oe, hedge⟩ := cp.edgePublicKey_done
  rw [allocateMachine] at h
  rcases runs_ofExcept.mp h with ⟨u, hname, h⟩ | ⟨e, -, rfl, rfl⟩
  swap
  · exact ⟨rfl, fun _ => Outcome.err_ne_ok⟩
  rcases runs_ofExcept.mp h with ⟨u', hkey, h⟩ | ⟨e, -, rfl, rfl⟩
  swap
  · exact ⟨rfl, fun _ => Outcome.err_ne_ok⟩
  have hgate' : allocationGate cp name key = oe := by simp [allocationGate, hname, hkey, hedge]
  rcases runs_redis_failing h with ⟨-, ⟨e, rfl⟩, rfl⟩ | ⟨-, h⟩
  · exact ⟨rfl, fun _ => Outcome.err_ne_ok⟩
  rw [exec_machine_get, hedge] at h
  cases oe with
  | ok edge => exact absurd hgate' (hgate edge)
  | err e =>
    obtain ⟨rfl, rfl⟩ := h
    exact ⟨rfl, fun _ => Outcome.err_ne_ok⟩
  | panic msg =>
    obtain ⟨rfl, rfl⟩ := h
    exact ⟨rfl, fun _ => Outcome.panic_ne_ok⟩

theorem ok_existing_ne_created {existing created : SignupResponse} :
    (.ok (.existing existing) : Outcome ControlPlaneError SignupOutcome) ≠ .ok (.created created) :=
  nofun

/-- An allocation when one of its commands fails, or none: it is refused or stopped, it finds the
name taken, or it goes on to a new route. -/
theorem runs_allocateMachine_failing {owner : Option String} {name key : String}
    {o : Outcome ControlPlaneError SignupOutcome}
    (h : (cp.allocateMachine owner name key).Runs failing Up (w, t) o s) :
    (t = some 0 ∨ (∀ edge, allocationGate cp name key ≠ .ok edge) ∨ (w.machines name).isSome) ∧
        Undecided name w s.1 ∧ (t = some 0 → s.1 = w) ∧ (∀ resp, o ≠ .ok (.created resp)) ∨
      t ≠ some 0 ∧ w.machines name = none ∧ ∃ edge o', allocationGate cp name key = .ok edge ∧
        o = o'.bimap id (fun m => .created ⟨m, edge⟩) ∧
        FailedFresh cp owner name key w (countdown t) o' s.1 s.2 := by
  cases hgate : allocationGate cp name key with
  | ok edge =>
    rw [allocateMachine_passed hgate] at h
    rcases runs_redis_failing h with ⟨rfl, ⟨e, rfl⟩, rfl⟩ | ⟨h0, h⟩
    · exact Or.inl ⟨Or.inl rfl, .refl name w, fun _ => rfl, fun _ => Outcome.err_ne_ok⟩
    rw [exec_machine_get] at h
    rcases hm : w.machines name with _ | (m | ⟨text, err⟩)
    · rw [hm] at h
      refine Or.inr ⟨h0, rfl, edge, ?_⟩
      rcases Prog.runs_bind.mp h with ⟨m, s₁, hfresh, rfl, rfl⟩ | ⟨e, hfresh, rfl⟩ |
        ⟨msg, hfresh, rfl⟩
      all_goals exact ⟨_, rfl, rfl, runs_allocateFresh_failing hm hfresh⟩
    · rw [hm] at h
      simp only [machineFromJson, Prog.ofExcept_ok, Prog.pure_bind] at h
      have hstop : Undecided name w s.1 ∧ ∀ resp, o ≠ .ok (.created resp) := by
        rcases Prog.runs_bind.mp h with ⟨m', s₁, hkey, rfl, rfl⟩ | ⟨e, hkey, rfl⟩ |
          ⟨msg, hkey, rfl⟩
        · exact ⟨runs_ensureKey_failing hkey, fun _ => ok_existing_ne_created⟩
        · exact ⟨runs_ensureKey_failing hkey, fun _ => Outcome.err_ne_ok⟩
        · exact ⟨runs_ensureKey_failing hkey, fun _ => Outcome.panic_ne_ok⟩
      exact Or.inl ⟨Or.inr (Or.inr rfl), hstop.1, fun ht => absurd ht h0, hstop.2⟩
    · rw [hm] at h
      obtain ⟨rfl, rfl⟩ := h
      exact Or.inl ⟨Or.inr (Or.inr rfl), .refl name w, fun ht => absurd ht h0,
        fun _ => Outcome.err_ne_ok⟩
  | _ =>
    have hgate' : ∀ edge, allocationGate cp name key ≠ .ok edge := by simp [hgate]
    obtain ⟨hs, ho⟩ := runs_allocateMachine_unpassed hgate' h
    rw [hs]
    exact Or.inl ⟨Or.inr (Or.inl (hgate ▸ hgate')), .refl name w, fun _ => rfl, fun _ => ho _⟩

theorem runs_mapErr_redis_failing [FromRedis ε] {g : ε → ε'} {op : RedisOp}
    {f : op.Resp → Edge ε' α} {o : Outcome ε' α}
    (h : (Prog.mapErr g (redis op) >>= f).Runs failing Up (w, t) o s) :
    (t = some 0 ∧ (∃ e, o = .err e) ∧ s = (w, none)) ∨
      (t ≠ some 0 ∧ (f (op.exec w).1).Runs failing Up ((op.exec w).2, countdown t) o s) := by
  rcases Prog.runs_mapErr_bind.mp h with ⟨a, s₁, hop, h⟩ | ⟨e, hop, rfl⟩ | ⟨msg, hop, -⟩
  · rcases runs_redis_last_failing hop with ⟨-, ⟨e, he⟩, -⟩ | ⟨h0, ha, rfl⟩
    · cases he
    · cases Outcome.ok.inj ha
      exact Or.inr ⟨h0, h⟩
  · rcases runs_redis_last_failing hop with ⟨h0, -, rfl⟩ | ⟨-, he, -⟩
    · exact Or.inl ⟨h0, ⟨_, rfl⟩, rfl⟩
    · cases he
  · rcases runs_redis_last_failing hop with ⟨-, ⟨e, he⟩, -⟩ | ⟨-, he, -⟩
    · cases he
    · cases he

/-- Enrolling the machine that was allocated: one of the last three commands fails, or the invite
is approved. -/
theorem runs_enroll_failing (name : String) {c : String} {m : Machine} {r : InviteRecord}
    {o : Outcome InviteError Machine}
    (h : (do
      cp.issueToken c m
      redis (.invite c (.setEx (.json { r with status := .approved }) INVITE_TTL_SECS))
      return m : Edge InviteError Machine).Runs failing Up (w, t) o s) :
    (∃ n ≤ 2, t = some n) ∧ Undecided name w s.1 ∨
      (∀ n ≤ 2, t ≠ some n) ∧ ∃ token, IsToken token ∧
        s.1 = approvedWith c r (issued cp c m token w) := by
  rw [issueToken, randomTokenHex, Prog.bind_assoc, Prog.bind_assoc] at h
  obtain ⟨ch, -, h⟩ := runs_issue_failing rfl h
  rw [Prog.pure_bind, Prog.bind_assoc] at h
  rcases runs_mapErr_redis_failing h with ⟨rfl, -, rfl⟩ | ⟨h0, h⟩
  · exact Or.inl ⟨⟨0, by omega, rfl⟩, .refl name w⟩
  rw [exec_machine_set] at h
  have hstored : ∀ {x : Stored Machine}, (w.machines name).isSome →
      (Function.update w.machines m.name (some x) name).isSome := by
    intro x hname
    by_cases hn : name = m.name
    · subst hn
      simp
    · rwa [Function.update_of_ne hn]
  rcases runs_redis_failing h with ⟨h1, -, rfl⟩ | ⟨h1, h⟩
  · simp only [countdown_eq_some] at h1
    exact Or.inl ⟨⟨1, by omega, h1⟩, rfl, rfl, hstored⟩
  rcases runs_redis_failing h with ⟨h2, -, rfl⟩ | ⟨h2, h⟩
  · simp only [countdown_eq_some] at h2
    exact Or.inl ⟨⟨2, by omega, h2⟩, rfl, rfl, hstored⟩
  simp only [ne_eq, countdown_eq_some] at h1 h2
  obtain ⟨rfl, rfl⟩ := h
  refine Or.inr ⟨fun n hn => ?_, _, ⟨_, (Cmd.exec ch (.fillBytes 32) w).1.2, rfl⟩, rfl⟩
  obtain rfl | rfl | rfl : n = 0 ∨ n = 1 ∨ n = 2 := by omega
  all_goals assumption

/-- Reading the owner's account: the command fails, there is no account, or it is read. -/
theorem runs_accountUuid_failing {email : String} {f : String → Edge InviteError α}
    {o : Outcome InviteError α}
    (h : (do
      let uuid ← Prog.mapErr InviteError.account (cp.accountUuid email)
      let accountUuid ← Prog.expect "invite owner email resolves to an active account" uuid
      f accountUuid).Runs failing Up (w, t) o s) :
    (t = some 0 ∧ s.1 = w) ∨
      (t ≠ some 0 ∧ (∀ a, w.accounts (cp.normalizeEmail email) ≠ some (.json a)) ∧ s.1 = w) ∨
      t ≠ some 0 ∧ ∃ a, w.accounts (cp.normalizeEmail email) = some (.json a) ∧
        (f a.uuid).Runs failing Up (w, countdown t) o s := by
  have hread : ∀ {o' s₁}, (cp.accountUuid email).Runs failing Up (w, t) o' s₁ →
      (t = some 0 ∧ (∃ e, o' = .err e) ∧ s₁ = (w, none)) ∨
      t ≠ some 0 ∧ s₁ = (w, countdown t) ∧ o' = match w.accounts (cp.normalizeEmail email) with
          | none => .ok none
          | some (.json a) => .ok (some a.uuid)
          | some (.corrupt _ err) => .err (.corrupt err) := by
    intro o' s₁ h
    rcases runs_redis_failing h with h | ⟨h0, h⟩
    · exact Or.inl h
    rw [exec_account_get] at h
    refine Or.inr ⟨h0, ?_⟩
    match hx : w.accounts (cp.normalizeEmail email) with
    | none =>
      rw [hx] at h
      exact h.symm
    | some (.corrupt text err) =>
      rw [hx] at h
      exact h.symm
    | some (.json a) =>
      rw [hx] at h
      exact h.symm
  rcases Prog.runs_mapErr_bind.mp h with ⟨uuid, s₁, hrun, h⟩ | ⟨e, hrun, -⟩ | ⟨msg, hrun, -⟩
  · rcases hread hrun with ⟨-, ⟨e, he⟩, -⟩ | ⟨h0, rfl, ho⟩
    · cases he
    match hx : w.accounts (cp.normalizeEmail email) with
    | none =>
      rw [hx] at ho
      cases ho
      obtain ⟨-, rfl⟩ := h
      exact Or.inr (Or.inl ⟨h0, nofun, rfl⟩)
    | some (.corrupt text err) =>
      rw [hx] at ho
      cases ho
    | some (.json a) =>
      rw [hx] at ho
      cases ho
      exact Or.inr (Or.inr ⟨h0, a, rfl, h⟩)
  · rcases hread hrun with ⟨h0, -, rfl⟩ | ⟨h0, rfl, ho⟩
    · exact Or.inl ⟨h0, rfl⟩
    · refine Or.inr (Or.inl ⟨h0, fun a ha => ?_, rfl⟩)
      rw [ha] at ho
      cases ho
  · rcases hread hrun with ⟨-, ⟨e, he⟩, -⟩ | ⟨-, -, ho⟩
    · cases he
    · split at ho <;> cases ho

/-- Reading the invite and the account: one of the two commands fails, or the owner may not
approve, or the approval goes on. -/
theorem runs_inviteApprove_reads {email code name : String} {o : Outcome InviteError Machine}
    (h : (cp.inviteApprove email code name).Runs failing Up (w, t) o s) :
    s.1 = w ∧ (t = some 0 ∨ t = some 1 ∨ ∀ c r key a, ¬Approvable cp w email code c r key a) ∨
      t ≠ some 0 ∧ t ≠ some 1 ∧ ∃ c r key a, Approvable cp w email code c r key a ∧
        (approveAllocated cp c name key r a).Runs failing Up (w, countdown (countdown t)) o s := by
  rw [inviteApprove] at h
  have hstop : (∀ c r key a, ¬Approvable cp w email code c r key a) → s.1 = w →
      s.1 = w ∧ (t = some 0 ∨ t = some 1 ∨ ∀ c r key a, ¬Approvable cp w email code c r key a) :=
    fun hnot hs => ⟨hs, Or.inr (Or.inr hnot)⟩
  rcases runs_ofExcept.mp h with ⟨c, hc, h⟩ | ⟨e, hc, -, rfl⟩
  swap
  · refine Or.inl (hstop (fun c' r key a hmay => ?_) rfl)
    rw [canonical_of_some hmay.canonical] at hc
    cases hc
  have hc := canonical_eq_ok hc
  rw [readOwnInvite, readInvite, Prog.bind_assoc, Prog.bind_assoc] at h
  rcases runs_redis_failing h with ⟨rfl, -, rfl⟩ | ⟨h0, h⟩
  · exact Or.inl ⟨rfl, Or.inl rfl⟩
  rw [exec_invite_get] at h
  -- what is stored for the code decides whether the owner may approve
  have hread : ∀ {x}, w.invites c = x → (∀ r, x ≠ some (.json r)) →
      ∀ c' r key a, ¬Approvable cp w email code c' r key a := by
    intro x hx hnot c' r key a hmay
    obtain rfl : c = c' := Option.some.inj (hc.symm.trans hmay.canonical)
    exact hnot r (hx.symm.trans hmay.stored)
  rcases hr : w.invites c with _ | (r | ⟨text, err⟩)
  · rw [hr] at h
    obtain ⟨-, rfl⟩ := h
    exact Or.inl (hstop (hread hr fun _ => (Option.some_ne_none _).symm) rfl)
  swap
  · rw [hr] at h
    obtain ⟨-, rfl⟩ := h
    exact Or.inl (hstop (hread hr fun _ => Stored.some_corrupt_ne_json) rfl)
  · have hown : ∀ {c' r' key a}, Approvable cp w email code c' r' key a → r' = r := by
      intro c' r' key a hmay
      obtain rfl : c = c' := Option.some.inj (hc.symm.trans hmay.canonical)
      cases hmay.stored.symm.trans hr
      rfl
    rw [hr] at h
    simp only [recordFromJson, Prog.ofExcept_ok, Prog.pure_bind] at h
    split_ifs at h with howner
    swap
    · obtain ⟨-, rfl⟩ := h
      exact Or.inl (hstop (fun _ _ _ _ hmay => howner (hown hmay ▸ hmay.owner)) rfl)
    rw [Prog.pure_bind] at h
    rcases runs_ofExcept.mp h with ⟨_, hw, h⟩ | ⟨e, hw, -, rfl⟩
    swap
    · refine Or.inl (hstop (fun _ _ _ _ hmay => ?_) rfl)
      rw [← hown hmay, hmay.waiting] at hw
      cases hw
    have hwaiting := requireWaiting_eq_ok hw
    cases hkey : r.devicePubkey with
    | none =>
      rw [hkey] at h
      obtain ⟨-, rfl⟩ := h
      refine Or.inl (hstop (fun _ _ _ _ hmay => ?_) rfl)
      have := hmay.begun
      rw [hown hmay, hkey] at this
      cases this
    | some key =>
      rw [hkey] at h
      rcases runs_accountUuid_failing h with ⟨ht, hs⟩ | ⟨ht, hnone, hs⟩ | ⟨ht, a, ha, h⟩
      · simp only [countdown_eq_some] at ht
        exact Or.inl ⟨hs, Or.inr (Or.inl ht)⟩
      · exact Or.inl (hstop (fun _ _ _ a hmay => hnone a hmay.account) hs)
      · simp only [ne_eq, countdown_eq_some] at ht
        refine Or.inr ⟨h0, ht, c, r, key, a, ⟨hc, hr, howner, hwaiting, hkey, ha⟩, ?_⟩
        rw [approveAllocated]
        rw [← hkey] at h
        exact h

/-- Nothing but a failure or the want of a host index keeps the owner from a new machine. -/
structure Grantable (cp : ControlPlane) (w : World) (email code name c : String) (r : InviteRecord)
    (key : String) (a : AccountRecord) (edge : String) : Prop where
  may : Approvable cp w email code c r key a
  gate : allocationGate cp name key = .ok edge
  free : w.machines name = none

/-- What an approval leaves when one of its commands fails, or none. -/
inductive FailedApproval (cp : ControlPlane) (name c key : String) (r : InviteRecord)
    (a : AccountRecord) (w : World) : Option ℕ → World → Prop
  /-- No index was taken. -/
  | uncounted {n : ℕ} (alloc : Option ℤ) (hn : n ≤ 4) (hnext : alloc.getD 1 + 1 = nextIndex w) :
    FailedApproval cp name c key r a w (some n) { w with alloc := alloc }
  /-- An index was taken and is lost. -/
  | lost {t : Option ℕ} (hwhy : t = some 5 ∨ (∀ n ≤ 4, t ≠ some n) ∧ ¬Hosts cp (nextIndex w)) :
    FailedApproval cp name c key r a w t { w with alloc := some (nextIndex w) }
  /-- The name is taken and the invite waits. -/
  | half {n : ℕ} {w' : World} (hn : 6 ≤ n ∧ n ≤ 9) (hhosts : Hosts cp (nextIndex w))
      (hundecided : Undecided name w w') (htaken : (w'.machines name).isSome) :
    FailedApproval cp name c key r a w (some n) w'
  | enrolled {t : Option ℕ} {token : String} {dns : String → Option String} (ips : String × String)
      (ht : ∀ n ≤ 9, t ≠ some n) (hhosts : Hosts cp (nextIndex w)) (htoken : IsToken token) :
    FailedApproval cp name c key r a w t (approvedWith c r
      (issued cp c (cp.freshMachine (some a.uuid) name key ips.1 ips.2) token
        { routed (cp.freshMachine (some a.uuid) name key ips.1 ips.2) w with dns := dns }))

variable {email code name c key edge : String} {r : InviteRecord} {a : AccountRecord}
  {o : Outcome InviteError Machine}

theorem approvable_unique {c' key' : String} {r' : InviteRecord} {a' : AccountRecord}
    (h : Approvable cp w email code c r key a) (h' : Approvable cp w email code c' r' key' a') :
    c = c' ∧ r = r' ∧ key = key' ∧ a = a' := by
  obtain rfl : c = c' := Option.some.inj (h.canonical.symm.trans h'.canonical)
  cases h.stored.symm.trans h'.stored
  obtain rfl : key = key' := Option.some.inj (h.begun.symm.trans h'.begun)
  cases h.account.symm.trans h'.account
  exact ⟨rfl, rfl, rfl, rfl⟩

/-- What the allocation leaves, the approval leaves that ends with it. -/
theorem FailedFresh.failedApproval {o : Outcome ControlPlaneError Machine} {left : Option ℕ}
    (h : FailedFresh cp (some a.uuid) name key w (countdown (countdown (countdown t))) o w' left)
    (hnot : ∀ m, o ≠ .ok m) (ht : ∀ n ≤ 2, t ≠ some n) : FailedApproval cp name c key r a w t w' := by
  generalize hv : countdown (countdown (countdown t)) = v at h
  cases h with
  | uncounted alloc hn _ hnext =>
    simp only [countdown_eq_some] at hv
    subst hv
    exact .uncounted alloc (by omega) hnext
  | lost hwhy _ =>
    refine .lost ?_
    rcases hwhy with rfl | ⟨h0, h1, hhosts⟩
    · exact Or.inl (by simpa using hv)
    · subst hv
      refine Or.inr ⟨fun n hn => ?_, hhosts⟩
      rintro rfl
      obtain hn | rfl | rfl : n ≤ 2 ∨ n = 3 ∨ n = 4 := by omega
      · exact ht n hn rfl
      · exact h0 rfl
      · exact h1 rfl
  | unlisted ips hhosts _ =>
    simp only [countdown_eq_some] at hv
    subst hv
    refine .half (by omega) hhosts ⟨rfl, rfl, fun _ => ?_⟩ ?_
    all_goals
      rw [enlisted, freshMachine]
      simp
  | created ips _ _ => exact absurd rfl (hnot _)

/-- **An approval that nothing else keeps from a new machine.** -/
theorem Grantable.runs_failing (hg : Grantable cp w email code name c r key a edge)
    (h : (cp.inviteApprove email code name).Runs failing Up (w, t) o s) :
    FailedApproval cp name c key r a w t s.1 := by
  rcases runs_inviteApprove_reads h with ⟨hs, ht⟩ | ⟨h0, h1, c', r', key', a', hmay, h⟩
  · obtain ⟨n, rfl, hn⟩ : ∃ n, t = some n ∧ n ≤ 4 := by
      rcases ht with rfl | rfl | hnot
      · exact ⟨0, rfl, by omega⟩
      · exact ⟨1, rfl, by omega⟩
      · exact absurd hg.may (hnot c r key a)
    rw [hs]
    exact .uncounted w.alloc hn rfl
  obtain ⟨rfl, rfl, rfl, rfl⟩ := approvable_unique hmay hg.may
  have halloc : ∀ {o' s₁}, (cp.allocateMachine (some a'.uuid) name key').Runs failing Up
      (w, countdown (countdown t)) o' s₁ →
      t = some 2 ∧ s₁.1 = w ∧ (∀ resp, o' ≠ .ok (.created resp)) ∨
        (∀ n ≤ 2, t ≠ some n) ∧ ∃ o'', o' = o''.bimap id (fun m => .created ⟨m, edge⟩) ∧
          FailedFresh cp (some a'.uuid) name key' w (countdown (countdown (countdown t))) o'' s₁.1
            s₁.2 := by
    intro o' s₁ halloc
    rcases runs_allocateMachine_failing halloc with ⟨ht, -, hw, hnot⟩ |
      ⟨ht, -, edge', o'', hgate, ho, hfresh⟩
    · rcases ht with ht | hgate | htaken
      · exact Or.inl ⟨by simpa using ht, hw ht, hnot⟩
      · exact absurd hg.gate (hgate edge)
      · rw [hg.free] at htaken
        cases htaken
    · rw [hg.gate] at hgate
      cases hgate
      simp only [ne_eq, countdown_eq_some] at ht
      refine Or.inr ⟨fun n hn => ?_, o'', ho, hfresh⟩
      obtain rfl | rfl | rfl : n = 0 ∨ n = 1 ∨ n = 2 := by omega
      all_goals assumption
  -- an approval that creates nothing leaves what its allocation left
  have hstopped : ∀ {o' : Outcome ControlPlaneError SignupOutcome},
      (cp.allocateMachine (some a'.uuid) name key').Runs failing Up
        (w, countdown (countdown t)) o' s → (∀ resp, o' ≠ .ok (.created resp)) →
      FailedApproval cp name c' key' r' a' w t s.1 := by
    intro o' hrun hnot
    rcases halloc hrun with ⟨rfl, hs, -⟩ | ⟨ht, o'', rfl, hfresh⟩
    · rw [hs]
      exact .uncounted w.alloc (by omega) rfl
    · refine hfresh.failedApproval (fun m hm => ?_) ht
      rw [hm] at hnot
      exact hnot _ rfl
  rcases Prog.runs_mapErr_bind.mp h with ⟨outcome, s₁, hrun, h⟩ | ⟨e, hrun, -⟩ | ⟨msg, hrun, -⟩
  · cases outcome with
    | existing resp =>
      obtain ⟨-, rfl⟩ := h
      exact hstopped hrun fun _ => ok_existing_ne_created
    | created resp =>
      rcases halloc hrun with ⟨-, -, hnot⟩ | ⟨ht, o'', ho, hfresh⟩
      · exact absurd rfl (hnot resp)
      obtain ⟨w₁, left⟩ := s₁
      dsimp only at hfresh
      generalize hv : countdown (countdown (countdown t)) = v at hfresh
      cases hfresh with
      | uncounted _ _ hnot _ | lost _ hnot | unlisted _ _ hnot =>
        cases o'' with
        | ok m => exact absurd rfl (hnot m)
        | _ => cases ho
      | @created _ dns ips ht' hhosts =>
        cases ho
        subst hv
        have hlate : ∀ n ≤ 6, t ≠ some n := by
          rintro n hn rfl
          obtain hn' | hn' : n ≤ 2 ∨ 3 ≤ n := by omega
          · exact ht n hn' rfl
          · obtain ⟨k, rfl⟩ := Nat.exists_eq_add_of_le' hn'
            exact ht' k (by omega) rfl
        rcases runs_enroll_failing name h with ⟨⟨n, hn, hk⟩, hundecided⟩ |
          ⟨hk, token, htoken, hs⟩
        · simp only [countdown_eq_some] at hk
          subst hk
          have htaken : (s.1.machines name).isSome := by
            refine hundecided.taken ?_
            rw [routed, enlisted, freshMachine]
            simp
          exact .half (by omega) hhosts
            ⟨hundecided.invites, hundecided.accounts, fun _ => htaken⟩ htaken
        · rw [hs]
          refine .enrolled ips (fun n hn => ?_) hhosts htoken
          rintro rfl
          obtain hn' | hn' : n ≤ 6 ∨ 7 ≤ n := by omega
          · exact hlate n hn' rfl
          · obtain ⟨k, rfl⟩ := Nat.exists_eq_add_of_le' hn'
            exact hk k (by omega) rfl
  · exact hstopped hrun fun _ => Outcome.err_ne_ok
  · exact hstopped hrun fun _ => Outcome.panic_ne_ok

/-- Any other approval leaves the invite and the account, and does not free the name. -/
theorem undecided_of_not_grantable
    (hnot : ∀ c r key a edge, ¬Grantable cp w email code name c r key a edge)
    (h : (cp.inviteApprove email code name).Runs failing Up (w, t) o s) : Undecided name w s.1 := by
  rcases runs_inviteApprove_reads h with ⟨hs, -⟩ | ⟨-, -, c, r, key, a, hmay, h⟩
  · rw [hs]
    exact .refl name w
  have hstop : ∀ {o' s₁}, (cp.allocateMachine (some a.uuid) name key).Runs failing Up
      (w, countdown (countdown t)) o' s₁ →
      Undecided name w s₁.1 ∧ ∀ resp, o' ≠ .ok (.created resp) := by
    intro o' s₁ halloc
    rcases runs_allocateMachine_failing halloc with ⟨-, hundecided, -, hno⟩ |
      ⟨-, hfree, edge, -, hgate, -, -⟩
    · exact ⟨hundecided, hno⟩
    · exact absurd ⟨hmay, hgate, hfree⟩ (hnot c r key a edge)
  rcases Prog.runs_mapErr_bind.mp h with ⟨outcome, s₁, hrun, h⟩ | ⟨e, hrun, -⟩ | ⟨msg, hrun, -⟩
  · cases outcome with
    | existing resp =>
      obtain ⟨-, rfl⟩ := h
      exact (hstop hrun).1
    | created resp => exact absurd rfl ((hstop hrun).2 resp)
  · exact (hstop hrun).1
  · exact (hstop hrun).1

/-! ## The second approval -/

/-- The invite is approved, the one machine that was added is the one that waited, the hash of its
token is stored, and a poll collects the token. -/
def Enrolled (cp : ControlPlane) (w w' : World) (code c name : String) : Prop :=
  ∃ r m token, w'.invites c = some (.json r) ∧ r.status = .approved ∧
    r.devicePubkey = some m.wgPublicKey ∧ w.machines name = none ∧
    w'.machines = Function.update w.machines name (some (.json m)) ∧ w'.index = w.index ++ [name] ∧
    m.deviceTokenHash = some (cp.tokenHash token) ∧
    ∀ o w'', (cp.invitePoll code).Runs Cmd.exec Up w' o w'' →
      o = .ok ⟨"approved", some m, some token⟩

/-- Whatever an approval leaves whose `k`-th command fails, the same approval again enrols. -/
def Survives (cp : ControlPlane) (w : World) (email code name c : String) (k : ℕ) : Prop :=
  ∀ o₁ w₁ left, (cp.inviteApprove email code name).Runs failing Up (w, some k) o₁ (w₁, left) →
    ∀ o₂ w₂, (cp.inviteApprove email code name).Runs Cmd.exec Up w₁ o₂ w₂ →
      Enrolled cp w w₂ code c name

theorem not_enrolled (hr : w.invites c = some (.json r)) (hwaiting : r.status = .waiting)
    (hinvites : w'.invites = w.invites) : ¬Enrolled cp w w' code c name := by
  rintro ⟨r', -, -, hr', happroved, -⟩
  rw [hinvites, hr] at hr'
  cases hr'
  rw [hwaiting] at happroved
  cases happroved

/-- A machine that is allocated, from whatever index, is enrolled. -/
theorem enrolled_of_approved {alloc : Option ℤ} {owner : Option String} {token : String}
    {ips : String × String} {dns : String → Option String} (hmay : Approvable cp w email code c r key a)
    (hfree : w.machines name = none) :
    Enrolled cp w (approvedWith c r (issued cp c (cp.freshMachine owner name key ips.1 ips.2) token
      { routed (cp.freshMachine owner name key ips.1 ips.2) { w with alloc := alloc } with
        dns := dns })) code c name := by
  set w' := approvedWith c r (issued cp c (cp.freshMachine owner name key ips.1 ips.2) token
      { routed (cp.freshMachine owner name key ips.1 ips.2) { w with alloc := alloc } with
        dns := dns }) with hw'
  have hinvite : w'.invites c = some (.json { r with status := .approved }) := by
    simp [hw', approvedWith]
  have hpayload : w'.deliveries c =
      some (.json ⟨enrolledWith cp (cp.freshMachine owner name key ips.1 ips.2) token, token⟩) := by
    simp [hw', approvedWith, issued]
  refine ⟨_, enrolledWith cp (cp.freshMachine owner name key ips.1 ips.2) token, token, hinvite,
    rfl, hmay.begun, hfree, ?_, rfl, rfl, fun o w'' h => ?_⟩
  · simp [hw', approvedWith, issued, routed, enlisted, freshMachine]
  · cases runs_invitePoll (h.mono fun _ _ hup => hup.1) with
    | stopped hwhy => exact absurd hinvite (hwhy _ _ hmay.canonical)
    | told hcode hr hempty =>
      cases hmay.canonical.symm.trans hcode
      cases hinvite.symm.trans hr
      rw [hempty rfl] at hpayload
      cases hpayload
    | spoiled hcode _ _ hd =>
      cases hmay.canonical.symm.trans hcode
      rw [hpayload] at hd
      cases hd
    | delivered hcode _ _ hd =>
      cases hmay.canonical.symm.trans hcode
      rw [hpayload] at hd
      cases hd
      rfl

/-- An approval without failures, from whatever index: it enrols when there is a host for it. -/
theorem Grantable.runs_again (hg : Grantable cp w email code name c r key a edge)
    {alloc : Option ℤ} (h : (cp.inviteApprove email code name).Runs Cmd.exec Up
      { w with alloc := alloc } o w') :
    Hosts cp (alloc.getD 1 + 1) ∧ Enrolled cp w w' code c name ∨
      ¬Hosts cp (alloc.getD 1 + 1) ∧ w'.invites = w.invites := by
  have hg' : Grantable cp { w with alloc := alloc } email code name c r key a edge :=
    ⟨⟨hg.may.canonical, hg.may.stored, hg.may.owner, hg.may.waiting, hg.may.begun, hg.may.account⟩,
      hg.gate, hg.free⟩
  have hrun : (cp.inviteApprove email code name).Runs failing Up ({ w with alloc := alloc }, none) o
      (w', none) := runs_faulty_none.mpr ⟨h, rfl⟩
  have hleft := hg'.runs_failing hrun
  generalize ht : (none : Option ℕ) = t at hleft
  cases hleft with
  | uncounted => cases ht
  | lost hwhy =>
    subst ht
    rcases hwhy with hwhy | ⟨-, hhosts⟩
    · cases hwhy
    · exact Or.inr ⟨hhosts, rfl⟩
  | half => cases ht
  | enrolled ips _ hhosts _ => exact Or.inl ⟨hhosts, enrolled_of_approved hg.may hg.free⟩

/-- The store fails when the name is to be listed, after its record was stored.  The second
approval finds the name taken. -/
theorem halfApproved :
    ¬Survives sample waitingWorld "owner@example.net" sampleCode "kitchen" sampleCode 6 := by
  intro h
  set p := sample.inviteApprove "owner@example.net" sampleCode "kitchen"
  have hrun : p.Runs failing Up (waitingWorld, some 6) (p.eval failing [] (waitingWorld, some 6)).1
      (p.eval failing [] (waitingWorld, some 6)).2 :=
    Prog.runs_eval up_default fun _ _ hch => by cases hch
  set w₁ := (p.eval failing [] (waitingWorld, some 6)).2.1
  have hagain : p.Runs Cmd.exec Up w₁ (p.eval Cmd.exec [] w₁).1 (p.eval Cmd.exec [] w₁).2 :=
    Prog.runs_eval up_default fun _ _ hch => by cases hch
  obtain ⟨r, -, -, hr, happroved, -⟩ := h _ _ _ hrun _ _ hagain
  have hwaits : (p.eval Cmd.exec [] w₁).2.invites sampleCode =
      some (.json ⟨"owner@example.net", .waiting, some keyA⟩) := by decide +kernel
  cases hwaits.symm.trans hr
  cases happroved

/-- **An approval survives a failure before its record is stored.**  When the `k`-th of the ten
Redis commands of an approval fails, the same approval again enrols the machine exactly when nothing
but the failure kept the first from doing so and it was one of the first six; the sixth costs a
host index. -/
theorem retry_enrolls_iff {k : ℕ} (hk : k < 10) (hc : cp.canonicalInviteCode code = some c)
    (hr : w.invites c = some (.json r)) (hwaiting : r.status = .waiting) :
    Survives cp w r.ownerEmail code name c k ↔
      (∃ key a edge, Grantable cp w r.ownerEmail code name c r key a edge) ∧
        (k ≤ 4 ∧ Hosts cp (nextIndex w) ∨
          5 ≤ k ∧ Hosts cp (nextIndex w + 1) ∧ (k = 5 ∨ ¬Hosts cp (nextIndex w))) := by
  have hnext : (some (nextIndex w)).getD 1 + 1 = nextIndex w + 1 := rfl
  constructor
  · intro h
    obtain ⟨o₁, ⟨w₁, left⟩, hfirst⟩ := Prog.exists_runs (fun c => ⟨default, up_default c⟩)
      (cp.inviteApprove r.ownerEmail code name) (w, some k)
    obtain ⟨o₂, w₂, hagain⟩ := Prog.exists_runs (fun c => ⟨default, up_default c⟩)
      (cp.inviteApprove r.ownerEmail code name) w₁
    have hsecond : (cp.inviteApprove r.ownerEmail code name).Runs failing Up (w₁, none) o₂
        (w₂, none) := runs_faulty_none.mpr ⟨hagain, rfl⟩
    have henrolled := h _ _ _ hfirst _ _ hagain
    -- an approval that finds the name taken, or may not be made, leaves the invite waiting
    have hdead : Undecided name w w₁ → (∀ c' r' key a edge,
        ¬Grantable cp w₁ r.ownerEmail code name c' r' key a edge) → False := by
      intro hundecided hnot
      have hsame : Undecided name w₁ w₂ := undecided_of_not_grantable hnot hsecond
      exact not_enrolled hr hwaiting (hsame.invites.trans hundecided.invites) henrolled
    by_cases hgrant : ∃ key a edge, Grantable cp w r.ownerEmail code name c r key a edge
    · obtain ⟨key, a, edge, hg⟩ := hgrant
      refine ⟨⟨key, a, edge, hg⟩, ?_⟩
      have hleft : FailedApproval cp name c key r a w (some k) w₁ := hg.runs_failing hfirst
      generalize ht : some k = t at hleft
      cases hleft with
      | @uncounted n alloc hn hindex =>
        cases ht
        rcases hg.runs_again hagain with ⟨hhosts, -⟩ | ⟨-, hinvites⟩
        · exact Or.inl ⟨hn, hindex ▸ hhosts⟩
        · exact absurd henrolled (not_enrolled hr hwaiting hinvites)
      | lost hwhy =>
        subst ht
        rcases hg.runs_again hagain with ⟨hhosts, -⟩ | ⟨-, hinvites⟩
        · refine Or.inr ⟨?_, hhosts, ?_⟩
          · rcases hwhy with hwhy | ⟨hlate, -⟩
            · cases hwhy
              omega
            · by_contra hlt
              exact hlate k (by omega) rfl
          · rcases hwhy with hwhy | ⟨-, hnone⟩
            · exact Or.inl (Option.some.inj hwhy)
            · exact Or.inr hnone
        · exact absurd henrolled (not_enrolled hr hwaiting hinvites)
      | half _ _ hundecided htaken =>
        refine (hdead hundecided fun c' r' key' a' edge' hg' => ?_).elim
        rw [hg'.free] at htaken
        cases htaken
      | enrolled _ hlate _ _ =>
        subst ht
        exact absurd rfl (hlate k (by omega))
    · have hnot : ∀ c' r' key a edge, ¬Grantable cp w r.ownerEmail code name c' r' key a edge := by
        intro c' r' key a edge hg
        obtain rfl : c = c' := Option.some.inj (hc.symm.trans hg.may.canonical)
        cases hr.symm.trans hg.may.stored
        exact hgrant ⟨key, a, edge, hg⟩
      have hundecided : Undecided name w w₁ := undecided_of_not_grantable hnot hfirst
      refine (hdead hundecided fun c' r' key a edge hg => hnot c' r' key a edge ?_).elim
      refine ⟨⟨hg.may.canonical, ?_, hg.may.owner, hg.may.waiting, hg.may.begun, ?_⟩, hg.gate, ?_⟩
      · rw [← hundecided.invites]
        exact hg.may.stored
      · rw [← hundecided.accounts]
        exact hg.may.account
      · by_contra hsome
        have htaken := hundecided.taken (Option.isSome_iff_ne_none.mpr hsome)
        rw [hg.free] at htaken
        cases htaken
  · rintro ⟨⟨key, a, edge, hg⟩, hwhen⟩ o₁ w₁ left hfirst o₂ w₂ hagain
    have hleft : FailedApproval cp name c key r a w (some k) w₁ := hg.runs_failing hfirst
    generalize ht : some k = t at hleft
    cases hleft with
    | @uncounted n alloc hn hindex =>
      cases ht
      have hhosts : Hosts cp (alloc.getD 1 + 1) := by
        rw [hindex]
        rcases hwhen with ⟨-, hhosts⟩ | ⟨hlate, -⟩
        · exact hhosts
        · omega
      rcases hg.runs_again hagain with ⟨-, henrolled⟩ | ⟨hnone, -⟩
      · exact henrolled
      · exact absurd hhosts hnone
    | lost hwhy =>
      subst ht
      have hhosts : Hosts cp (nextIndex w + 1) := by
        rcases hwhen with ⟨hearly, hhosts⟩ | ⟨-, hhosts, -⟩
        · rcases hwhy with hwhy | ⟨hlate, -⟩
          · cases hwhy
            omega
          · exact absurd rfl (hlate k hearly)
        · exact hhosts
      rcases hg.runs_again hagain with ⟨-, henrolled⟩ | ⟨hnone, -⟩
      · exact henrolled
      · exact absurd hhosts hnone
    | half hn hhosts _ _ =>
      cases ht
      rcases hwhen with ⟨hearly, -⟩ | ⟨-, -, rfl | hnone⟩
      · omega
      · omega
      · exact absurd hhosts hnone
    | enrolled _ hlate _ _ =>
      subst ht
      exact absurd rfl (hlate k (by omega))

/-- The store fails when the counter is to be counted up. -/
theorem retry_enrolls_iff_counter :
    Survives sample waitingWorld "owner@example.net" sampleCode "kitchen" sampleCode 4 :=
  (@retry_enrolls_iff sample waitingWorld sampleCode "kitchen" sampleCode
    ⟨"owner@example.net", .waiting, some keyA⟩ 4 (by decide) (by decide +kernel) rfl rfl).mpr
    ⟨⟨keyA, ⟨"00000000-0000-4000-8000-000000000000", .pending,
        "$2b$12$......................c6NUmNtSfCoPDzIaypW6/Wln2nnLdpi", none⟩, _,
        ⟨⟨by decide +kernel, rfl, rfl, rfl, rfl, by decide⟩, gate_kitchen, rfl⟩⟩,
      Or.inl ⟨by decide, by decide⟩⟩

end ControlPlane
end Cococoir
