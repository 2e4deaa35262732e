import Cococoir.ControlPlane.Approval
import Cococoir.ControlPlane.Fleet

/-!
# The peers of the interface, one operation at a time

The interface knows a machine by its key and the store by its name, and nothing keeps two
machines from enrolling one key: the later one then takes the earlier one's peer.

* `sharedKey`: two allocations with one key, after which the first machine has no peer.
* `peers_exact`: in every sequential run in which a machine is given a key only while no other
  stored machine has it, the peers are exactly those of the stored machines.

## The defect and the law

A WireGuard interface has one entry for each key, so a key that two machines enroll ends in one
entry, with the address of the later one; the earlier machine is stored and cannot be reached.  An
allocation checks its name against the store and its key against nothing.  The law is therefore
about runs in which each operation that gives a machine a key finds no other machine with it.
`KeysApart` is this condition, on the state before the operation, and `PeersExact` the invariant:
a key has an entry exactly when a stored machine has the key, and then with that machine's
address.  Every step is one of three: the entry of a key is set for a machine that is stored with
it, a machine goes with its entry, or nothing changes.
-/

namespace Cococoir
namespace ControlPlane

open Concurrency

variable {cp : ControlPlane} {w w' : World}

/-- The peers are those of the stored machines: each key with its machine's tunnel address. -/
def PeersExact (w : World) : Prop :=
  ∀ k ip, w.peers k = some ip ↔
    ∃ n m, w.machines n = some (.json m) ∧ m.wgPublicKey = k ∧ m.wgIp = ip

/-! ## Giving a key to a machine -/

/-- No machine but the named one has the key. -/
def KeyFree (w : World) (name key : String) : Prop :=
  ∀ n m, w.machines n = some (.json m) → m.wgPublicKey = key → n = name

/-- An allocation of the name with the key gets as far as the interface. -/
def Wires (cp : ControlPlane) (w : World) (name key : String) : Prop :=
  (∃ edge, allocationGate cp name key = .ok edge) ∧
    (w.machines name = none → (cp.hostStrings (nextIndex w).toNat).isSome)

/-- The call gives the named machine a key. -/
inductive Enrolls (cp : ControlPlane) (w : World) : Call → String → String → Prop
  | allocate {owner : Option String} {name key : String} (h : Wires cp w name key) :
    Enrolls cp w (.allocate owner name key) name key
  | register {token key : String} {target : Machine}
      (hfind : (listed w).find? (·.deviceTokenHash = some (cp.tokenHash token)) = some target)
      (h : Wires cp w target.name key) :
    Enrolls cp w (.deviceRegister token key) target.name key

/-- A machine operation alone, without failures of Redis and of the interface. -/
def MachineOp (cp : ControlPlane) (w : World) (call : Call) (o : Outcome EdgeError Reply)
    (w' : World) : Prop :=
  call.routes = true ∧ (cp.body call).Runs Cmd.exec Reliable w o w'

/-- The same, giving a machine a key only while no other machine has it. -/
def KeysApart (cp : ControlPlane) (w : World) (call : Call) (o : Outcome EdgeError Reply)
    (w' : World) : Prop :=
  MachineOp cp w call o w' ∧ ∀ name key, Enrolls cp w call name key → KeyFree w name key

/-! ## What each operation does to the peers -/

theorem setPeer_eq_some {peers : String → Option String} {ip key k a : String} :
    setPeer peers ip key k = some a ↔ k = key ∧ a = ip ∨ k ≠ key ∧ a ≠ ip ∧ peers k = some a := by
  unfold setPeer
  split_ifs with hk hip
  · simp [hk, eq_comm]
  · simp only [hk, hip, false_and, ne_eq, not_false_eq_true, true_and, false_or,
      Option.some.injEq, false_iff, not_and]
    exact fun ha h => ha h.symm
  · simp only [hk, false_and, ne_eq, not_false_eq_true, true_and, false_or]
    refine ⟨fun h => ⟨?_, h⟩, And.right⟩
    rintro rfl
    exact hip h

/-- Machines with one key are one. -/
theorem PeersExact.eq_of_key (hp : PeersExact w) (hw : Fleet cp w) {n n' : String} {m m' : Machine}
    (hm : w.machines n = some (.json m)) (hm' : w.machines n' = some (.json m'))
    (hkey : m.wgPublicKey = m'.wgPublicKey) : n = n' := by
  have h := (hp _ _).mpr ⟨n, m, hm, rfl, rfl⟩
  have h' := (hp _ _).mpr ⟨n', m', hm', rfl, rfl⟩
  rw [hkey, h'] at h
  exact hw.eq_of_wgIp hm hm' (Option.some.inj h).symm

theorem PeersExact.empty : PeersExact World.empty := by
  refine fun k ip => ⟨nofun, ?_⟩
  rintro ⟨_, _, h, -⟩
  cases h

/-- A key without a peer is free. -/
theorem PeersExact.keyFree (hp : PeersExact w) {name key : String} (hnone : w.peers key = none) :
    KeyFree w name key := by
  intro n m hm hkey
  have h := (hp key m.wgIp).mpr ⟨n, m, hm, hkey, rfl⟩
  rw [hnone] at h
  cases h

theorem PeersExact.same (hp : PeersExact w) (hpeers : w'.peers = w.peers)
    (hmachines : w'.machines = w.machines) : PeersExact w' := by
  rw [PeersExact, hpeers, hmachines]
  exact hp

/-- A machine is stored, or stored again with the key, and its peer is set. -/
theorem PeersExact.set (hp : PeersExact w) {m : Machine}
    (hfree : KeyFree w m.name m.wgPublicKey)
    (hip : ∀ n x, w.machines n = some (.json x) → x.wgIp = m.wgIp → n = m.name)
    (hold : ∀ x, w.machines m.name = some (.json x) → x.wgIp = m.wgIp)
    (hmachines : w'.machines = Function.update w.machines m.name (some (.json m)))
    (hpeers : ∀ k a, w'.peers k = some a ↔ k = m.wgPublicKey ∧ a = m.wgIp ∨
      k ≠ m.wgPublicKey ∧ a ≠ m.wgIp ∧ w.peers k = some a) : PeersExact w' := by
  intro k a
  rw [hpeers]
  constructor
  · rintro (⟨rfl, rfl⟩ | ⟨-, ha, hk⟩)
    · exact ⟨m.name, m, by rw [hmachines, Function.update_self], rfl, rfl⟩
    · obtain ⟨n, x, hx, rfl, rfl⟩ := (hp k a).mp hk
      have hn : n ≠ m.name := by
        rintro rfl
        exact ha (hold x hx)
      exact ⟨n, x, by rw [hmachines, Function.update_of_ne hn, hx], rfl, rfl⟩
  · rintro ⟨n, x, hx, rfl, rfl⟩
    rcases stored_of_update hmachines hx with ⟨-, hxm⟩ | ⟨hn, hx⟩
    · cases hxm
      exact Or.inl ⟨rfl, rfl⟩
    · exact Or.inr ⟨fun hkey => hn (hfree n x hx hkey), fun ha => hn (hip n x hx ha),
        (hp _ _).mpr ⟨n, x, hx, rfl, rfl⟩⟩

/-- A machine and its peer are removed. -/
theorem PeersExact.remove (hp : PeersExact w) (hw : Fleet cp w) {n : String} {m : Machine}
    (hm : w.machines n = some (.json m)) (hmachines : w'.machines = Function.update w.machines n none)
    (hpeers : w'.peers = Function.update w.peers m.wgPublicKey none) : PeersExact w' := by
  intro k a
  rw [hpeers]
  constructor
  · intro h
    by_cases hk : k = m.wgPublicKey
    · subst hk
      rw [Function.update_self] at h
      cases h
    · rw [Function.update_of_ne hk] at h
      obtain ⟨n', x, hx, rfl, rfl⟩ := (hp k a).mp h
      have hn : n' ≠ n := by
        rintro rfl
        rw [hm] at hx
        cases hx
        exact hk rfl
      exact ⟨n', x, by rw [hmachines, Function.update_of_ne hn, hx], rfl, rfl⟩
  · rintro ⟨n', x, hx, rfl, rfl⟩
    rcases stored_of_update hmachines hx with ⟨-, hx⟩ | ⟨hn, hx⟩
    · cases hx
    · rw [Function.update_of_ne fun hkey => hn (hp.eq_of_key hw hx hm hkey)]
      exact (hp _ _).mpr ⟨n', x, hx, rfl, rfl⟩

/-- **An allocation** with a key that no other machine has. -/
theorem PeersExact.allocation (hp : PeersExact w) (hw : Fleet cp w) {owner : Option String}
    {name key : String} (hfree : Wires cp w name key → KeyFree w name key)
    {o : Outcome ControlPlaneError SignupOutcome} (h : AllocationRun cp owner name key w o w') :
    PeersExact w' := by
  cases h with
  | refused _ => exact hp
  | crashed _ => exact hp
  | corrupt _ _ => exact hp
  | @existing edge m hgate hname =>
    have hfree := hfree ⟨⟨edge, hgate⟩, fun hnone => by rw [hname] at hnone; cases hnone⟩
    obtain rfl := hw.named name m hname
    have hip : ∀ n x, w.machines n = some (.json x) → x.wgIp = m.wgIp → n = m.name :=
      fun n x hx => hw.eq_of_wgIp hx hname
    have hold : ∀ x, w.machines m.name = some (.json x) → x.wgIp = m.wgIp := by
      intro x hx
      rw [hname] at hx
      cases hx
      rfl
    unfold rekeyed
    split_ifs with hkey
    · subst hkey
      refine hp.set (m := m) hfree hip hold ?_ fun k a => setPeer_eq_some
      dsimp only
      rw [← hname, Function.update_eq_self]
    · refine hp.set (m := m.withKey key) hfree hip hold rfl fun k a => ?_
      dsimp only
      rw [setPeer_eq_some]
      refine or_congr_right (and_congr_right fun _ => and_congr_right fun ha => ?_)
      by_cases hk : k = m.wgPublicKey
      · subst hk
        rw [Function.update_self, (hp _ _).mpr ⟨_, m, hname, rfl, rfl⟩]
        simp only [reduceCtorEq, Option.some.injEq, false_iff]
        exact fun h => ha h.symm
      · rw [Function.update_of_ne hk]
  | @fresh edge o' _ hgate hname hfresh =>
    cases runs_allocateFresh hname hfresh with
    | exhausted _ => exact hp.same rfl rfl
    | beyond _ _ => exact hp.same rfl rfl
    | @created ips dns htwo hips =>
      have hfree := hfree ⟨⟨edge, hgate⟩, fun _ => by rw [hips]; rfl⟩
      have hhost : HostOf cp (cp.freshMachine owner name key ips.1 ips.2) (nextIndex w) :=
        ⟨htwo, hips⟩
      refine hp.set (m := cp.freshMachine owner name key ips.1 ips.2) hfree
        (fun n x hx hip => absurd hip (hw.fresh_addresses hhost hx).2) (fun x hx => ?_) rfl
        fun k a => setPeer_eq_some
      rw [show w.machines (cp.freshMachine owner name key ips.1 ips.2).name = none from hname] at hx
      cases hx
    | @undone ips why htwo hips _ =>
      have hfree := hfree ⟨⟨edge, hgate⟩, fun _ => by rw [hips]; rfl⟩
      have hhost : HostOf cp (cp.freshMachine owner name key ips.1 ips.2) (nextIndex w) :=
        ⟨htwo, hips⟩
      refine hp.same ?_ ?_
      · refine update_setPeer_eq_self.mpr ⟨?_, fun k hk => ?_⟩
        · by_contra hne
          obtain ⟨a, ha⟩ := Option.ne_none_iff_exists'.mp hne
          obtain ⟨n, x, hx, hkey, -⟩ := (hp _ _).mp ha
          rw [hfree n x hx hkey, hname] at hx
          cases hx
        · obtain ⟨n, x, hx, -, hip⟩ := (hp _ _).mp hk
          exact (hw.fresh_addresses hhost hx).2 hip
      · funext n
        by_cases hn : n = name
        · subst hn
          exact (Function.update_self ..).trans hname.symm
        · exact (Function.update_of_ne hn ..).trans (Function.update_of_ne hn ..)

/-- **Every operation** that gives a machine a key that no other has keeps the peers exact. -/
theorem PeersExact.step (hp : PeersExact w) (hw : Fleet cp w) {call : Call}
    {o : Outcome EdgeError Reply} (h : KeysApart cp w call o w') : PeersExact w' := by
  obtain ⟨⟨hcall, hrun⟩, hfree⟩ := h
  cases call with
  | allocate owner name key =>
    obtain ⟨o', hrun, -⟩ := Prog.runs_bimap.mp hrun
    exact hp.allocation hw (fun hw => hfree name key (.allocate hw)) (runs_allocateMachine hrun)
  | deviceRegister token key =>
    obtain ⟨o', hrun, -⟩ := Prog.runs_bimap.mp hrun
    have hdec : Decodes w := fun n _ text err hn => by
      obtain ⟨m, hm⟩ := hw.decoded n _ hn
      cases hm
    cases runs_deviceRegister hdec hrun with
    | blank _ => exact hp
    | refused _ => exact hp
    | unknown _ => exact hp
    | found hfind halloc =>
      exact hp.allocation hw (fun hw => hfree _ key (.register hfind hw)) halloc
  | delete name =>
    obtain ⟨o', hrun, -⟩ := Prog.runs_bimap.mp hrun
    match hm : w.machines name with
    | none =>
      obtain ⟨-, rfl⟩ := (runs_delete_missing hm).mp hrun
      exact hp
    | some (.corrupt text err) =>
      obtain ⟨m, hx⟩ := hw.decoded name _ hm
      cases hx
    | some (.json m) =>
      obtain ⟨-, dns, rfl⟩ := runs_delete hm hrun
      exact hp.remove hw hm rfl rfl
  | _ => cases hcall

/-! ## The peers in reachable states -/

/-- Runs of the sample in which nothing fails. -/
theorem machineOp_eval (call : Call) (hcall : call.routes = true) :
    MachineOp cp w call ((cp.body call).eval Cmd.exec [] w).1 ((cp.body call).eval Cmd.exec [] w).2 :=
  ⟨hcall, Prog.runs_eval reliable_default fun _ _ hch => by cases hch⟩

/-- One machine has been allocated. -/
def oneMachine : World :=
  ((sample.body (.allocate none "kitchen" keyA)).eval Cmd.exec [] World.empty).2

/-- A second machine with the first one's key takes its peer. -/
theorem sharedKey : ∃ hist w, Served (MachineOp sample) World.empty hist w ∧ ¬PeersExact w := by
  refine ⟨_, ((sample.body (.allocate none "garage" keyA)).eval Cmd.exec [] oneMachine).2,
    .snoc (.snoc .nil (machineOp_eval (.allocate none "kitchen" keyA) rfl))
      (machineOp_eval (.allocate none "garage" keyA) rfl), fun h => ?_⟩
  have hkitchen := (h keyA "10.10.0.2").mpr ⟨"kitchen", ⟨"kitchen", none, "kitchen.example.net",
    "2a01:4f8:c17:1::2", "10.10.0.2", keyA, none⟩, by decide, rfl, rfl⟩
  revert hkitchen
  decide

/-- **The peers are those of the stored machines** after every sequential run of machine
operations in which a machine is given a key only while no other stored machine has it. -/
theorem peers_exact {w₀ : World} (hw₀ : Fleet cp w₀) (hp₀ : PeersExact w₀)
    {hist : List (Call × Outcome EdgeError Reply)} (h : Served (KeysApart cp) w₀ hist w) :
    PeersExact w := by
  have hboth : Fleet cp w ∧ PeersExact w := by
    refine Served.invariant (fun w => Fleet cp w ∧ PeersExact w) ⟨hw₀, hp₀⟩ ?_ h
    rintro w call o w' ⟨hw, hp⟩ hserved
    exact ⟨hw.step (routeStep_of_runs hw hserved.1.1
      (hserved.1.2.mono fun _ _ => redisUp_of_reliable)), hp.step hw hserved⟩
  exact hboth.2

/-- A machine is allocated, and its key is rotated. -/
theorem peers_exact_rotated :
    PeersExact ((sample.body (.allocate none "kitchen" keyB)).eval Cmd.exec [] oneMachine).2 := by
  have hfirst : Served (KeysApart sample) World.empty _ oneMachine := .snoc .nil
    ⟨machineOp_eval (.allocate none "kitchen" keyA) rfl, fun _ _ _ _ _ h => by cases h⟩
  have hone := peers_exact .empty .empty hfirst
  refine peers_exact .empty .empty (hfirst.snoc
    ⟨machineOp_eval (.allocate none "kitchen" keyB) rfl, fun name key h => ?_⟩)
  cases h
  exact hone.keyFree (by decide)

end ControlPlane
end Cococoir
