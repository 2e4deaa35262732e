import Cococoir.ControlPlane.Addresses
import Cococoir.ControlPlane.Index
import Cococoir.ControlPlane.InviteRuns

/-!
# The fleet, one operation at a time

What the machine operations do to the records, the list of names, the counter and the listeners
when they run one after another, Redis does not fail, and everything else may.

* `RouteStep`: the five things that an operation can do to the routes.
* `Fleet.step`: what every step keeps: each record is that of a host index of its own.
* `routeStep_of_runs`: allocations, deletions and device registrations are such steps.

## Addresses stay apart

A machine's addresses are those of a host index.  `Fleet` says that every stored machine has an
index of its own, below the counter; and that the list has each of their names once.  From this
two machines with one address are one, and the addresses of the next index are nobody's, although
no operation ever compares addresses.

A step of the routes is one of five: nothing but the counter; a new route that was undone; a
machine with the next index; a record that is written again with the same route; a machine that is
removed.  The operations are shown to be such steps while `wg`, the listeners and the provider
fail as they like, which is why this module has run lemmas of its own next to those for operations
in which nothing fails.
-/

namespace Cococoir
namespace ControlPlane

open Concurrency

variable {cp : ControlPlane} {w w' : World} {ε α : Type}

/-! ## Routes -/

/-- The stored machines: each record decodes and is listed once, under its own name, and has the
addresses of a host index that was taken for it. -/
structure Fleet (cp : ControlPlane) (w : World) : Prop where
  named : Named w
  decoded : Decoded w
  index : IndexExact w
  hosted : ∀ n m, w.machines n = some (.json m) → ∃ i, HostOf cp m i ∧ i < nextIndex w
  apart : ∀ n n' m m' i, w.machines n = some (.json m) → w.machines n' = some (.json m') →
    HostOf cp m i → HostOf cp m' i → n = n'

theorem Fleet.empty : Fleet cp World.empty where
  named _ _ h := by cases h
  decoded _ _ h := by cases h
  index := ⟨List.nodup_nil, fun n => ⟨nofun, fun h => absurd rfl h⟩⟩
  hosted _ _ h := by cases h
  apart _ _ _ _ _ h := by cases h

/-- Machines with one tunnel address are one. -/
theorem Fleet.eq_of_wgIp (h : Fleet cp w) {n n' : String} {m m' : Machine}
    (hm : w.machines n = some (.json m)) (hm' : w.machines n' = some (.json m'))
    (hip : m.wgIp = m'.wgIp) : n = n' := by
  obtain ⟨i, hi, -⟩ := h.hosted n m hm
  obtain ⟨j, hj, -⟩ := h.hosted n' m' hm'
  obtain rfl := hi.eq_right hj hip
  exact h.apart n n' m m' i hm hm' hi hj

/-- Machines with one public address are one. -/
theorem Fleet.eq_of_ipv6 (h : Fleet cp w) {n n' : String} {m m' : Machine}
    (hm : w.machines n = some (.json m)) (hm' : w.machines n' = some (.json m'))
    (hip : m.ipv6 = m'.ipv6) : n = n' := by
  obtain ⟨i, hi, -⟩ := h.hosted n m hm
  obtain ⟨j, hj, -⟩ := h.hosted n' m' hm'
  obtain rfl := hi.eq_left hj hip
  exact h.apart n n' m m' i hm hm' hi hj

/-- A machine with the addresses of the next host index has those of no stored machine. -/
theorem Fleet.fresh_addresses (h : Fleet cp w) {m m' : Machine} (hm : HostOf cp m (nextIndex w))
    {n : String} (hm' : w.machines n = some (.json m')) :
    m'.ipv6 ≠ m.ipv6 ∧ m'.wgIp ≠ m.wgIp := by
  obtain ⟨i, hi, hlt⟩ := h.hosted n m' hm'
  refine ⟨fun hip => ?_, fun hip => ?_⟩
  · have := hi.eq_left hm hip
    omega
  · have := hi.eq_right hm hip
    omega

/-- What a machine operation does to the records, the list, the counter and the listeners. -/
inductive RouteStep (cp : ControlPlane) (w w' : World) : Prop
  | keep (hmachines : w'.machines = w.machines) (hindex : w'.index = w.index)
    (halloc : nextIndex w ≤ nextIndex w') (hforwards : w'.forwards = w.forwards)
  /-- A new route was undone: its listeners are not live, and it is not stored. -/
  | undo {m : Machine} (hhost : HostOf cp m (nextIndex w)) (hmachines : w'.machines = w.machines)
    (hindex : w'.index = w.index) (halloc : nextIndex w ≤ nextIndex w')
    (hforwards : w'.forwards = unbindAll m edgeForwards w.forwards)
  | create {m : Machine} (hfree : w.machines m.name = none) (hhost : HostOf cp m (nextIndex w))
    (hmachines : w'.machines = Function.update w.machines m.name (some (.json m)))
    (hindex : w'.index = w.index ++ [m.name]) (halloc : nextIndex w < nextIndex w')
    (hforwards : w'.forwards = bindAll m edgeForwards w.forwards)
  | change {m m' : Machine} (hname : w.machines m.name = some (.json m)) (hroute : SameRoute m' m)
    (hmachines : w'.machines = Function.update w.machines m.name (some (.json m')))
    (hindex : w'.index = w.index) (halloc : nextIndex w ≤ nextIndex w')
    (hforwards : w'.forwards = w.forwards)
  | remove {m : Machine} (hname : w.machines m.name = some (.json m))
    (hmachines : w'.machines = Function.update w.machines m.name none)
    (hindex : w'.index = w.index.erase m.name) (halloc : nextIndex w ≤ nextIndex w')
    (hforwards : w'.forwards = unbindAll m edgeForwards w.forwards)

section Update

variable {n n' : String} {m m' : Machine} {x : Option (Stored Machine)}

/-- What is stored after one record is written. -/
theorem stored_of_update (hmachines : w'.machines = Function.update w.machines n x)
    (h : w'.machines n' = some (.json m)) :
    n' = n ∧ x = some (.json m) ∨ n' ≠ n ∧ w.machines n' = some (.json m) :=
  update_cases (hmachines ▸ h)

theorem named_update (hw : Named w) (hmachines : w'.machines = Function.update w.machines n x)
    (hx : ∀ m, x = some (.json m) → m.name = n) : Named w' := by
  intro n' m h
  rcases stored_of_update hmachines h with ⟨rfl, hx'⟩ | ⟨-, h⟩
  · exact hx m hx'
  · exact hw n' m h

end Update

/-- **Every step keeps the fleet.** -/
theorem Fleet.step (h : Fleet cp w) (hstep : RouteStep cp w w') : Fleet cp w' := by
  have hkeep : w'.machines = w.machines → w'.index = w.index → nextIndex w ≤ nextIndex w' →
      Fleet cp w' := by
    intro hmachines hindex halloc
    refine ⟨fun n m => ?_, fun n x => ?_, ?_, fun n m hm => ?_, fun n n' m m' i => ?_⟩
    · rw [hmachines]
      exact h.named n m
    · rw [hmachines]
      exact h.decoded n x
    · rw [IndexExact, hmachines, hindex]
      exact h.index
    · rw [hmachines] at hm
      obtain ⟨i, hi, hlt⟩ := h.hosted n m hm
      exact ⟨i, hi, hlt.trans_le halloc⟩
    · rw [hmachines]
      exact h.apart n n' m m' i
  cases hstep with
  | keep hmachines hindex halloc _ => exact hkeep hmachines hindex halloc
  | undo _ hmachines hindex halloc _ => exact hkeep hmachines hindex halloc
  | @create m hfree hhost hmachines hindex halloc _ =>
    have hnot : m.name ∉ w.index := fun hmem => (h.index.2 m.name).mp hmem hfree
    refine ⟨named_update h.named hmachines fun x hx => ?_,
      h.decoded.update (fun y hy => ⟨m, (Option.some.inj hy).symm⟩) hmachines, ⟨?_, fun n => ?_⟩,
      fun n x hx => ?_, fun n n' x x' i hx hx' hi hi' => ?_⟩
    · cases hx
      rfl
    · rw [hindex]
      exact List.nodup_append.mpr ⟨h.index.1, List.nodup_singleton _, fun a ha b hb => by
        rw [List.mem_singleton.mp hb]
        rintro rfl
        exact hnot ha⟩
    · rw [hindex, hmachines, List.mem_append, List.mem_singleton]
      by_cases hn : n = m.name
      · simp [hn]
      · rw [Function.update_of_ne hn, ← h.index.2 n]
        simp [hn]
    · rcases stored_of_update hmachines hx with ⟨-, hx⟩ | ⟨-, hx⟩
      · cases hx
        exact ⟨_, hhost, halloc⟩
      · obtain ⟨i, hi, hlt⟩ := h.hosted n x hx
        exact ⟨i, hi, hlt.trans halloc⟩
    · rcases stored_of_update hmachines hx with ⟨hn, hm⟩ | ⟨-, hold⟩
      · rcases stored_of_update hmachines hx' with ⟨hn', -⟩ | ⟨-, hold'⟩
        · rw [hn, hn']
        · cases hm
          exact absurd (hi'.eq_ipv6 hi) (h.fresh_addresses hhost hold').1
      · rcases stored_of_update hmachines hx' with ⟨-, hm'⟩ | ⟨-, hold'⟩
        · cases hm'
          exact absurd (hi.eq_ipv6 hi') (h.fresh_addresses hhost hold).1
        · exact h.apart n n' x x' i hold hold' hi hi'
  | @change m m' hname hroute hmachines hindex halloc _ =>
    have hsame : ∀ {n x}, w'.machines n = some (.json x) →
        ∃ y, w.machines n = some (.json y) ∧ SameRoute x y := by
      intro n x hx
      rcases stored_of_update hmachines hx with ⟨hn, hm⟩ | ⟨-, hold⟩
      · cases hm
        exact ⟨m, hn ▸ hname, hroute⟩
      · exact ⟨x, hold, rfl, rfl, rfl⟩
    refine ⟨named_update h.named hmachines fun x hx => ?_,
      h.decoded.update (fun y hy => ⟨m', (Option.some.inj hy).symm⟩) hmachines, ⟨?_, fun n => ?_⟩,
      fun n x hx => ?_, fun n n' x x' i hx hx' hi hi' => ?_⟩
    · cases hx
      exact hroute.1
    · rw [hindex]
      exact h.index.1
    · rw [hindex, hmachines, h.index.2 n]
      by_cases hn : n = m.name
      · subst hn
        simp [hname]
      · rw [Function.update_of_ne hn]
    · obtain ⟨y, hy, hxy⟩ := hsame hx
      obtain ⟨i, hi, hlt⟩ := h.hosted n y hy
      exact ⟨i, hxy.hostOf hi, hlt.trans_le halloc⟩
    · obtain ⟨y, hy, hxy⟩ := hsame hx
      obtain ⟨y', hy', hxy'⟩ := hsame hx'
      exact h.apart n n' y y' i hy hy' (hxy.symm.hostOf hi) (hxy'.symm.hostOf hi')
  | @remove m hname hmachines hindex halloc _ =>
    have hold : ∀ {n x}, w'.machines n = some (.json x) → w.machines n = some (.json x) := by
      intro n x hx
      rcases stored_of_update hmachines hx with ⟨-, hx⟩ | ⟨-, hx⟩
      · cases hx
      · exact hx
    refine ⟨fun n x hx => h.named n x (hold hx),
      h.decoded.update (fun y hy => by cases hy) hmachines, ⟨?_, fun n => ?_⟩, fun n x hx => ?_,
      fun n n' x x' i hx hx' => h.apart n n' x x' i (hold hx) (hold hx')⟩
    · rw [hindex]
      exact h.index.1.erase _
    · rw [hindex, hmachines, h.index.1.mem_erase_iff]
      by_cases hn : n = m.name
      · simp [hn]
      · rw [Function.update_of_ne hn, h.index.2 n]
        simp [hn]
    · obtain ⟨i, hi, hlt⟩ := h.hosted n x (hold hx)
      exact ⟨i, hi, hlt.trans_le halloc⟩

/-! ## Runs in which only Redis is up -/

/-- Redis does not fail; `wg`, the listeners and the provider may. -/
def RedisUp : Cmd → Choice → Prop
  | .redis _, ch => ch.fails = false
  | .scan _ _, ch => ch.fails = false
  | _, _ => True

theorem redisUp_of_reliable {c : Cmd} {ch : Choice} (h : Reliable c ch) : RedisUp c ch := by
  cases c <;> first | exact h | trivial

/-- With Redis up, a Redis command is a step of the run. -/
theorem runs_redis_up [FromRedis ε] {op : RedisOp} {f : op.Resp → Edge ε α} {o : Outcome ε α}
    (h : (redis op >>= f).Runs Cmd.exec RedisUp w o w') :
    (f (op.exec w).1).Runs Cmd.exec RedisUp (op.exec w).2 o w' := by
  rcases runs_redis.mp h with ⟨-, -, -, h⟩ | ⟨ch, hch, hf, -⟩
  · exact h
  · rw [show ch.fails = false from hch] at hf
    cases hf

section Outside

variable {o : Outcome ε α}

theorem runs_tryRedis_up {op : RedisOp} {f : Except RedisError op.Resp → Edge ε α}
    (h : (tryRedis op >>= f).Runs Cmd.exec RedisUp w o w') :
    (f (.ok (op.exec w).1)).Runs Cmd.exec RedisUp (op.exec w).2 o w' := by
  obtain ⟨ch, hch, h⟩ := h
  rw [exec_redis_of_not_fails hch] at h
  exact h

/-- Adding a peer touches the peers, if anything. -/
theorem runs_addPeer_up {good : Cmd → Choice → Prop} {ip key : String} {f : Except WgError Unit → Edge ε α}
    (h : (addPeer ip key >>= f).Runs Cmd.exec good w o w') :
    ∃ r peers, (f r).Runs Cmd.exec good { w with peers := peers } o w' := by
  obtain ⟨ch, -, h⟩ := h
  rw [Cmd.exec] at h
  split_ifs at h
  · exact ⟨_, w.peers, h⟩
  · exact ⟨_, _, h⟩

theorem runs_removePeer_up {good : Cmd → Choice → Prop} {key : String} {f : Except WgError Unit → Edge ε α}
    (h : (removePeer key >>= f).Runs Cmd.exec good w o w') :
    ∃ r peers, (f r).Runs Cmd.exec good { w with peers := peers } o w' := by
  obtain ⟨ch, -, h⟩ := h
  rw [Cmd.exec] at h
  split_ifs at h
  · exact ⟨_, w.peers, h⟩
  · exact ⟨_, _, h⟩

end Outside

/-- An undone allocation, whatever became of its peer. -/
theorem runs_rollback_up {name : String} {m : Machine} {o : Outcome ε Unit}
    (h : (rollbackAllocation name m : Edge ε Unit).Runs Cmd.exec RedisUp w o w') :
    o = .ok () ∧ ∃ peers, w' = { undo name m w with peers := peers } := by
  obtain ⟨r, peers, h⟩ := runs_removePeer_up (runs_tryRedis_up (runs_tryRedis_up h))
  obtain ⟨rfl, rfl⟩ := (runs_removeForwards fun _ _ => trivial).mp h
  exact ⟨rfl, peers, by simp [RedisOp.exec, undo]⟩

/-- The errors of wiring a machine: its peer, or a listener. -/
def ControlPlaneError.IsWiring : ControlPlaneError → Prop
  | .wg _ => True
  | .forward _ => True
  | _ => False

theorem isWiring_wg (e : WgError) : (ControlPlaneError.wg e).IsWiring := trivial

theorem isWiring_forward (why : String) : (ControlPlaneError.forward why).IsWiring := trivial

/-- Binding a machine's listeners: all of them, or the allocation is undone. -/
theorem runs_addForwards_up {name : String} {m : Machine} {ports : List (ℕ × ℕ)}
    (hports : ∀ p ∈ ports, p ∈ edgeForwards) {o : Outcome ControlPlaneError Unit}
    (h : (addForwards name m ports).Runs Cmd.exec RedisUp w o w') :
    (o = .ok () ∧ w' = { w with forwards := bindAll m ports w.forwards }) ∨
      (∃ e, e.IsWiring ∧ o = .err e) ∧ ∃ peers, w' = { undo name m w with peers := peers } := by
  induction ports generalizing w with
  | nil =>
    obtain ⟨rfl, rfl⟩ := h
    exact Or.inl ⟨rfl, rfl⟩
  | cons p ports ih =>
    have ih := fun {w} => ih (w := w) fun q hq => hports q (List.mem_cons_of_mem p hq)
    have hp := hports p List.mem_cons_self
    rcases (runs_addForward fun _ _ => trivial).mp h with ⟨hlive, h⟩ | ⟨hfree, h | ⟨text, h⟩⟩
    · rcases ih h with ⟨rfl, rfl⟩ | hundone
      · refine Or.inl ⟨rfl, ?_⟩
        rw [bindAll, bindAll, List.foldl_cons, bindForward, if_pos hlive]
      · exact Or.inr hundone
    · have hbind : bindForward w.forwards (machineForward m.ipv6 m.wgIp p) =
          Function.update w.forwards (forwardKey (machineForward m.ipv6 m.wgIp p))
            (some (machineForward m.ipv6 m.wgIp p)) := by
        rw [bindForward, if_neg (by rw [hfree]; simp)]
      rcases ih h with ⟨rfl, rfl⟩ | ⟨herr, peers, rfl⟩
      · refine Or.inl ⟨rfl, ?_⟩
        rw [bindAll, bindAll, List.foldl_cons, hbind]
      · refine Or.inr ⟨herr, peers, ?_⟩
        rw [← undo_bindForward hp (w := w), hbind]
    · rcases Prog.runs_bind.mp h with ⟨_, w₁, hroll, rfl, rfl⟩ | ⟨e, hroll, rfl⟩ | ⟨_, hroll, rfl⟩
      · exact Or.inr ⟨⟨_, isWiring_forward _, rfl⟩, (runs_rollback_up hroll).2⟩
      · cases (runs_rollback_up hroll).1
      · cases (runs_rollback_up hroll).1

/-- Wiring: the listeners are live, or the allocation is undone. -/
theorem runs_wire_up {m : Machine} {o : Outcome ControlPlaneError Unit}
    (h : (cp.wire m).Runs Cmd.exec RedisUp w o w') :
    (o = .ok () ∧ ∃ peers dns, w' = { w with
        peers := peers, forwards := bindAll m edgeForwards w.forwards, dns := dns }) ∨
      (∃ e, e.IsWiring ∧ o = .err e) ∧ ∃ peers, w' = { undo m.name m w with peers := peers } := by
  obtain ⟨r, peers, h⟩ := runs_addPeer_up h
  cases r with
  | error err =>
    rcases Prog.runs_bind.mp h with ⟨_, w₁, hroll, rfl, rfl⟩ | ⟨e, hroll, rfl⟩ | ⟨_, hroll, rfl⟩
    · exact Or.inr ⟨⟨_, isWiring_wg _, rfl⟩, (runs_rollback_up hroll).2⟩
    · cases (runs_rollback_up hroll).1
    · cases (runs_rollback_up hroll).1
  | ok u =>
    rcases Prog.runs_bind.mp h with ⟨_, w₁, hbind, h⟩ | ⟨e, hbind, rfl⟩ | ⟨msg, hbind, rfl⟩
    · rcases runs_addForwards_up (fun _ hp => hp) hbind with ⟨-, rfl⟩ | ⟨⟨e, -, h'⟩, -⟩
      · obtain ⟨_, dns, rfl, rfl⟩ := runs_upsertMachine h
        exact Or.inl ⟨rfl, peers, dns, rfl⟩
      · cases h'
    · rcases runs_addForwards_up (fun _ hp => hp) hbind with ⟨h', -⟩ | hundone
      · cases h'
      · exact Or.inr hundone
    · rcases runs_addForwards_up (fun _ hp => hp) hbind with ⟨h', -⟩ | ⟨⟨e, -, h'⟩, -⟩
      · cases h'
      · cases h'

/-- The ways a new route can go while Redis is up. -/
inductive FreshUp (cp : ControlPlane) (owner : Option String) (name key : String) (w : World) :
    Outcome ControlPlaneError Machine → World → Prop
  | exhausted (h : nextIndex w < 2) :
    FreshUp cp owner name key w (.err (.allocExhausted "allocation counter below host 2"))
      { w with alloc := some (nextIndex w) }
  | beyond {msg : String} (htwo : 2 ≤ nextIndex w)
      (hips : cp.hostStrings (nextIndex w).toNat = none) :
    FreshUp cp owner name key w (.panic msg) { w with alloc := some (nextIndex w) }
  | created {ips : String × String} {peers dns : String → Option String} (htwo : 2 ≤ nextIndex w)
      (hips : cp.hostStrings (nextIndex w).toNat = some ips) :
    FreshUp cp owner name key w (.ok (cp.freshMachine owner name key ips.1 ips.2))
      { routed (cp.freshMachine owner name key ips.1 ips.2) w with peers := peers, dns := dns }
  | undone {ips : String × String} {e : ControlPlaneError} {peers : String → Option String}
      (htwo : 2 ≤ nextIndex w) (hips : cp.hostStrings (nextIndex w).toNat = some ips)
      (hwiring : e.IsWiring) :
    FreshUp cp owner name key w (.err e)
      { undo name (cp.freshMachine owner name key ips.1 ips.2)
          (enlisted (cp.freshMachine owner name key ips.1 ips.2) w) with peers := peers }

/-- **A new route**, while Redis is up. -/
theorem runs_allocateFresh_up {owner : Option String} {name key : String}
    {o : Outcome ControlPlaneError Machine} (hfree : w.machines name = none)
    (h : (cp.allocateFresh owner name key).Runs Cmd.exec RedisUp w o w') :
    FreshUp cp owner name key w o w' := by
  replace h := runs_redis_up (runs_redis_up h)
  rw [exec_seed, exec_takeIndex (z := w.alloc.getD 1) rfl] at h
  change (if nextIndex w < 2 then _ else _ : Edge _ _).Runs _ _ { w with alloc := some (nextIndex w) }
    _ _ at h
  split_ifs at h with htwo
  · obtain ⟨rfl, rfl⟩ := h
    exact .exhausted htwo
  have htwo := not_lt.mp htwo
  rcases runs_expect.mp h with ⟨ips, hips, h⟩ | ⟨hips, rfl, rfl⟩
  swap
  · exact .beyond htwo hips
  replace h := runs_redis_up h
  rw [exec_claim (w := { w with alloc := some (nextIndex w) }) hfree] at h
  replace h := runs_redis_up h
  rcases Prog.runs_bind.mp h with ⟨_, w₁, hwire, rfl, rfl⟩ | ⟨e, hwire, rfl⟩ | ⟨msg, hwire, -⟩
  · rcases runs_wire_up hwire with ⟨-, peers, dns, rfl⟩ | ⟨⟨_, -, h'⟩, -⟩
    · exact .created htwo hips
    · cases h'
  · rcases runs_wire_up hwire with ⟨h', -⟩ | ⟨⟨_, hwiring, h'⟩, peers, rfl⟩
    · cases h'
    · cases h'
      exact .undone htwo hips hwiring
  · rcases runs_wire_up hwire with ⟨h', -⟩ | ⟨⟨_, -, h'⟩, -⟩
    · cases h'
    · cases h'

/-- An allocation that passes its checks and finds the name free goes as its new route does. -/
theorem runs_allocateMachine_free {owner : Option String} {name key edge : String}
    (hgate : allocationGate cp name key = .ok edge) (hfree : w.machines name = none)
    {o : Outcome ControlPlaneError SignupOutcome} :
    (cp.allocateMachine owner name key).Runs Cmd.exec RedisUp w o w' ↔
      ∃ o', (cp.allocateFresh owner name key).Runs Cmd.exec RedisUp w o' w' ∧
        o = o'.bimap id fun m => .created ⟨m, edge⟩ := by
  rw [allocateMachine_passed hgate]
  constructor
  · intro h
    replace h := runs_redis_up h
    rw [exec_machine_get, hfree] at h
    rcases Prog.runs_bind.mp h with ⟨m, _, hfresh, rfl, rfl⟩ | ⟨e, hfresh, rfl⟩ | ⟨msg, hfresh, rfl⟩
    · exact ⟨_, hfresh, rfl⟩
    · exact ⟨_, hfresh, rfl⟩
    · exact ⟨_, hfresh, rfl⟩
  · rintro ⟨o', hfresh, rfl⟩
    refine runs_redis.mpr (Or.inl ⟨{}, rfl, rfl, ?_⟩)
    rw [exec_machine_get, hfree]
    refine Prog.runs_bind.mpr ?_
    cases o' with
    | ok m => exact Or.inl ⟨m, w', hfresh, rfl, rfl⟩
    | err e => exact Or.inr (Or.inl ⟨e, hfresh, rfl⟩)
    | panic msg => exact Or.inr (Or.inr ⟨msg, hfresh, rfl⟩)

/-- The sample's checks pass for the first machine. -/
theorem gate_kitchen : allocationGate sample "kitchen" keyA =
    .ok "pHykwiutZie7fHPVs3FibMYr2PeSITyO28EqVgsc+WM=" := by decide

/-- Undoing an enlisted machine takes its name off the list again. -/
theorem index_undo_enlisted {name : String} {m : Machine} (hm : m.name = name)
    (hnot : name ∉ w.index) : (undo name m (enlisted m w)).index = w.index := by
  change (w.index ++ [m.name]).erase name = w.index
  rw [hm, List.erase_append_right _ hnot, List.erase_cons_head, List.append_nil]

theorem machines_undo_enlisted {name : String} {m : Machine} (hm : m.name = name)
    (hfree : w.machines name = none) : (undo name m (enlisted m w)).machines = w.machines := by
  change Function.update (Function.update w.machines m.name _) name none = w.machines
  rw [hm, Function.update_idem, ← hfree, Function.update_eq_self]

/-! ## The operations are steps of the routes -/

theorem RouteStep.same : RouteStep cp w w := .keep rfl rfl le_rfl rfl

theorem routeStep_of_ensureKey {name key : String} {m : Machine}
    (hname : w.machines name = some (.json m)) (hm : m.name = name)
    {o : Outcome ControlPlaneError Machine}
    (h : (ensureKey name key m).Runs Cmd.exec RedisUp w o w') : RouteStep cp w w' := by
  subst hm
  unfold ensureKey at h
  split_ifs at h with hkey
  · obtain ⟨r, peers, -, rfl⟩ := runs_addPeer_up h
    exact .keep rfl rfl le_rfl rfl
  · obtain ⟨r, peers, h⟩ := runs_removePeer_up h
    obtain ⟨r, peers, h⟩ := runs_addPeer_up h
    cases r with
    | error e =>
      obtain ⟨-, rfl⟩ := h
      exact .keep rfl rfl le_rfl rfl
    | ok u =>
      obtain ⟨-, rfl⟩ := runs_redis_up h
      have hroute : SameRoute (m.withKey key) m := ⟨rfl, rfl, rfl⟩
      exact .change hname hroute rfl rfl le_rfl rfl

theorem routeStep_of_allocateFresh (hw : Fleet cp w) {owner : Option String} {name key : String}
    {o : Outcome ControlPlaneError Machine} (hfree : w.machines name = none)
    (h : (cp.allocateFresh owner name key).Runs Cmd.exec RedisUp w o w') : RouteStep cp w w' := by
  have hnext : ∀ {u : World}, u.alloc = some (nextIndex w) → nextIndex w < nextIndex u := by
    intro u hu
    rw [nextIndex.eq_1 u, hu]
    exact lt_add_one _
  cases runs_allocateFresh_up hfree h with
  | exhausted _ => exact .keep rfl rfl (hnext rfl).le rfl
  | beyond _ _ => exact .keep rfl rfl (hnext rfl).le rfl
  | created htwo hips => exact .create hfree ⟨htwo, hips⟩ rfl rfl (hnext rfl) rfl
  | undone htwo hips _ =>
    have hnot : name ∉ w.index := fun hmem => (hw.index.2 name).mp hmem hfree
    exact .undo ⟨htwo, hips⟩ (machines_undo_enlisted rfl hfree) (index_undo_enlisted rfl hnot)
      (hnext rfl).le rfl

theorem routeStep_of_allocateMachine (hw : Fleet cp w) {owner : Option String} {name key : String}
    {o : Outcome ControlPlaneError SignupOutcome}
    (h : (cp.allocateMachine owner name key).Runs Cmd.exec RedisUp w o w') : RouteStep cp w w' := by
  rcases runs_ofExcept.mp h with ⟨_, -, h⟩ | ⟨e, -, -, rfl⟩
  swap
  · exact .same
  rcases runs_ofExcept.mp h with ⟨_, -, h⟩ | ⟨e, -, -, rfl⟩
  swap
  · exact .same
  replace h := runs_redis_up h
  obtain ⟨edge, hedge⟩ := cp.edgePublicKey_done
  rw [exec_machine_get] at h
  dsimp only at h
  cases edge with
  | err e =>
    rw [hedge] at h
    obtain ⟨-, rfl⟩ := h
    exact .same
  | panic msg =>
    rw [hedge] at h
    obtain ⟨-, rfl⟩ := h
    exact .same
  | ok edge =>
    rw [show cp.edgePublicKey = pure edge from hedge, Prog.pure_bind] at h
    match hm : w.machines name with
    | none =>
      rw [hm] at h
      rcases Prog.runs_bind.mp h with ⟨m, w₁, hfresh, -, rfl⟩ | ⟨e, hfresh, -⟩ | ⟨msg, hfresh, -⟩
      · exact routeStep_of_allocateFresh hw hm hfresh
      · exact routeStep_of_allocateFresh hw hm hfresh
      · exact routeStep_of_allocateFresh hw hm hfresh
    | some (.corrupt text err) =>
      obtain ⟨m, hx⟩ := hw.decoded name _ hm
      cases hx
    | some (.json m) =>
      rw [hm] at h
      simp only [machineFromJson, Prog.ofExcept_ok, Prog.pure_bind] at h
      rcases Prog.runs_bind.mp h with ⟨m', w₁, hkey, -, rfl⟩ | ⟨e, hkey, -⟩ | ⟨msg, hkey, -⟩
      · exact routeStep_of_ensureKey hm (hw.named name m hm) hkey
      · exact routeStep_of_ensureKey hm (hw.named name m hm) hkey
      · exact routeStep_of_ensureKey hm (hw.named name m hm) hkey

theorem routeStep_of_delete (hw : Fleet cp w) {name : String} {o : Outcome ControlPlaneError Unit}
    (h : (cp.delete name).Runs Cmd.exec RedisUp w o w') : RouteStep cp w w' := by
  replace h := runs_redis_up h
  rw [exec_machine_get] at h
  dsimp only at h
  match hm : w.machines name with
  | none =>
    rw [hm] at h
    obtain ⟨-, rfl⟩ := h
    exact .same
  | some (.corrupt text err) =>
    obtain ⟨m, hx⟩ := hw.decoded name _ hm
    cases hx
  | some (.json m) =>
    obtain rfl := hw.named name m hm
    rw [hm] at h
    obtain ⟨r, peers, h⟩ := runs_removePeer_up h
    rcases Prog.runs_bind.mp h with ⟨_, w₁, hfw, h⟩ | ⟨e, hfw, -⟩ | ⟨msg, hfw, -⟩
    · obtain ⟨-, rfl⟩ := (runs_removeForwards fun _ _ => trivial).mp hfw
      obtain ⟨r, dns, h⟩ := runs_removeMachine h
      obtain ⟨-, rfl⟩ := runs_redis_up (runs_redis_up h)
      exact .remove hm (by simp [RedisOp.exec]) (by simp [RedisOp.exec]) le_rfl
        (by simp [RedisOp.exec])
    · cases ((runs_removeForwards fun _ _ => trivial).mp hfw).1
    · cases ((runs_removeForwards fun _ _ => trivial).mp hfw).1

theorem routeStep_of_deviceRegister (hw : Fleet cp w) {token key : String}
    {o : Outcome ControlPlaneError Machine}
    (h : (cp.deviceRegister token key).Runs Cmd.exec RedisUp w o w') : RouteStep cp w w' := by
  unfold deviceRegister at h
  split_ifs at h
  · obtain ⟨-, rfl⟩ := h
    exact .same
  rcases runs_ofExcept.mp h with ⟨_, -, h⟩ | ⟨e, -, -, rfl⟩
  swap
  · exact .same
  have hlist : ∀ {o' w₁}, list.Runs Cmd.exec RedisUp w o' w₁ → w₁ = w := by
    intro o' w₁ hrun
    refine ((runs_list fun n _ text err hn => ?_).mp (onlyRedis_list.runs_mono (fun c ch hc hgood => ?_)
      hrun)).2
    · obtain ⟨m, hx⟩ := hw.decoded n _ hn
      cases hx
    · obtain ⟨op, rfl⟩ := hc
      exact hgood
  rcases Prog.runs_bind.mp h with ⟨ms, w₁, hrun, hrest⟩ | ⟨e, hrun, -⟩ | ⟨msg, hrun, -⟩
  · obtain rfl := hlist hrun
    split at hrest
    · obtain ⟨-, rfl⟩ := hrest
      exact .same
    · rcases Prog.runs_bind.mp hrest with ⟨outcome, w₂, halloc, hend⟩ | ⟨e, halloc, -⟩ |
        ⟨msg, halloc, -⟩
      · obtain rfl : w' = w₂ := by
          cases outcome with
          | created resp => exact hend.2
          | existing resp => exact hend.2
        exact routeStep_of_allocateMachine hw halloc
      · exact routeStep_of_allocateMachine hw halloc
      · exact routeStep_of_allocateMachine hw halloc
  · obtain rfl := hlist hrun
    exact .same
  · obtain rfl := hlist hrun
    exact .same

/-- The machine operations: allocation with its rotation, registration, and deletion. -/
def Call.routes : Call → Bool
  | .allocate _ _ _ => true
  | .deviceRegister _ _ => true
  | .delete _ => true
  | _ => false

/-- **Every machine operation is a step of the routes.** -/
theorem routeStep_of_runs (hw : Fleet cp w) {call : Call} (hcall : call.routes = true)
    {o : Outcome EdgeError Reply} (h : (cp.body call).Runs Cmd.exec RedisUp w o w') :
    RouteStep cp w w' := by
  cases call with
  | allocate owner name key =>
    obtain ⟨o', hrun, -⟩ := Prog.runs_bimap.mp h
    exact routeStep_of_allocateMachine hw hrun
  | deviceRegister token key =>
    obtain ⟨o', hrun, -⟩ := Prog.runs_bimap.mp h
    exact routeStep_of_deviceRegister hw hrun
  | delete name =>
    obtain ⟨o', hrun, -⟩ := Prog.runs_bimap.mp h
    exact routeStep_of_delete hw hrun
  | _ => cases hcall

end ControlPlane
end Cococoir
