import Cococoir.ControlPlane.Fleet

/-!
# What a failed allocation leaves behind

An allocation takes its host index first and wires the machine last.  When the peer or a listener
cannot be created the record and its index entry are removed again, but the counter is not
lowered, so the index is lost: the next allocation gets the one after it.

* `runs_failedFresh`: the store after a new route that could not be created.
* `burnedIndex`: an allocation whose first listener does not bind moves the counter.
* `failedAllocation_burns`: every allocation of a free name that fails does.

## The argument

An allocation takes its index by `INCR` before it claims the name, and gives it back by `DECR` in
one case only, when the name was taken meanwhile.  A rollback removes the record, the name and the
peer, and does not touch the counter.  So after a failure behind the claim the records are as
before and the counter is not, and the index is gone for good: the next machine has the one after
it.

This holds of every allocation of a free name that fails and of everything that may have made it
fail, so there is no condition under which the source does what it says.  The proof reads it off
the ways that a new route can go, in one of which each failing run is.
-/

namespace Cococoir
namespace ControlPlane

open Concurrency

variable {cp : ControlPlane} {w w' : World} {owner : Option String} {name key edge : String}

/-- A failed allocation is undone: the records, the index, the counter, the peers of the stored
machines and the listeners are as they were. -/
structure Restored (w w' : World) : Prop where
  machines : w'.machines = w.machines
  index : w'.index = w.index
  alloc : w'.alloc = w.alloc
  peers : ∀ n m, w.machines n = some (.json m) → w'.peers m.wgPublicKey = w.peers m.wgPublicKey
  forwards : w'.forwards = w.forwards

theorem alloc_ne_nextIndex : w.alloc ≠ some (nextIndex w) := by
  unfold nextIndex
  cases h : w.alloc with
  | none => exact nofun
  | some k =>
    intro heq
    have hk : k = k + 1 := Option.some.inj heq
    omega

/-- **A new route that fails**, whatever fails but Redis: the name is free again and is not
listed, and the index is spent. -/
theorem runs_failedFresh (hfree : w.machines name = none) {e : ControlPlaneError}
    (h : (cp.allocateFresh owner name key).Runs Cmd.exec RedisUp w (.err e) w') :
    w'.machines = w.machines ∧ (name ∉ w.index → w'.index = w.index) ∧
      w'.alloc = some (nextIndex w) := by
  cases runs_allocateFresh_up hfree h with
  | exhausted _ => exact ⟨rfl, fun _ => rfl, rfl⟩
  | undone _ _ _ =>
    -- the rollback drops the record and its entry and leaves the counter
    exact ⟨machines_undo_enlisted rfl hfree, index_undo_enlisted rfl, rfl⟩

/-- An allocation that fails after its checks has spent its index. -/
theorem runs_failedAllocation (hgate : allocationGate cp name key = .ok edge)
    (hfree : w.machines name = none) {e : ControlPlaneError}
    (h : (cp.allocateMachine owner name key).Runs Cmd.exec RedisUp w (.err e) w') :
    w'.machines = w.machines ∧ (name ∉ w.index → w'.index = w.index) ∧
      w'.alloc = some (nextIndex w) := by
  obtain ⟨o, hfresh, ho⟩ := (runs_allocateMachine_free hgate hfree).mp h
  cases o with
  | ok m => cases ho
  | err e' => exact runs_failedFresh hfree hfresh
  | panic msg => cases ho

/-- The first allocation of all, with a listener that does not bind. -/
theorem exists_burnedIndex : ∃ e w', (sample.allocateMachine none "kitchen" keyA).Runs Cmd.exec
    RedisUp World.empty (.err e) w' := by
  have hips : sample.hostStrings (nextIndex World.empty).toNat =
      some ("2a01:4f8:c17:1::2", "10.10.0.2") := by decide
  have hfresh : ∃ why, (sample.allocateFresh none "kitchen" keyA).Runs Cmd.exec Reliable World.empty
      (.err (.forward why)) _ :=
    exists_undone rfl le_rfl hips ⟨(80, 8080), List.mem_cons_self, rfl⟩
  obtain ⟨why, hfresh⟩ := hfresh
  exact ⟨_, _, (exists_fresh gate_kitchen rfl hfresh).mono fun _ _ => redisUp_of_reliable⟩

/-- The counter is not what it was. -/
theorem burnedIndex : ¬∀ e w', (sample.allocateMachine none "kitchen" keyA).Runs Cmd.exec RedisUp
    World.empty (.err e) w' → Restored World.empty w' := by
  intro h
  obtain ⟨e, w', hrun⟩ := exists_burnedIndex
  have halloc := (runs_failedAllocation gate_kitchen rfl hrun).2.2
  rw [(h e w' hrun).alloc] at halloc
  cases halloc

/-- **Every failed allocation spends its index**, whatever failed: the name is free again, and the
counter is one past where it was. -/
theorem failedAllocation_burns (hgate : allocationGate cp name key = .ok edge)
    (hfree : w.machines name = none) {e : ControlPlaneError}
    (h : (cp.allocateMachine owner name key).Runs Cmd.exec RedisUp w (.err e) w') :
    w'.machines = w.machines ∧ w'.alloc = some (nextIndex w) ∧ ¬Restored w w' := by
  obtain ⟨hmachines, -, halloc⟩ := runs_failedAllocation hgate hfree h
  refine ⟨hmachines, halloc, fun hrestored => ?_⟩
  exact alloc_ne_nextIndex (hrestored.alloc.symm.trans halloc)

/-- The first allocation of all fails, and the next one gets host 3. -/
theorem failedAllocation_burns_first : ∃ w', w'.alloc = some 2 ∧ ¬Restored World.empty w' := by
  obtain ⟨e, w', hrun⟩ := exists_burnedIndex
  obtain ⟨-, halloc, hnot⟩ := failedAllocation_burns gate_kitchen rfl hrun
  exact ⟨w', halloc, hnot⟩

end ControlPlane
end Cococoir
