import Cococoir.ControlPlane.Fleet

/-!
# The capacity of the two subnets

One index gives a machine both its addresses, and the subnets need not have the same number of
hosts.  The allocation counter is compared with neither: an index beyond either subnet is a panic,
after the counter was moved, and the last index of the tunnel network is its broadcast address.

* `overflowing`: with a tunnel network of 254 hosts the allocation after host 254 gets the
  broadcast address.
* `allocation_fits_iff`: exactly when every allocation of a free name gets two addresses that
  a customer may have, or is refused.

## The argument

An allocation takes the next index and asks for the address of that host in two subnets.  It
succeeds in both as long as the index is at most the capacity of each, and what it gets is an
address of the subnet other than the network and the edge.  What the source does not ask is
whether it is the broadcast address of the tunnel network, which is the greatest host; and beyond
the greatest host it asks nothing, it asserts.  The condition is therefore a bound on the counter,
from both subnets, and one less where the broadcast address counts.
-/

namespace Cococoir
namespace ControlPlane

open Concurrency Net

variable {cp : ControlPlane} {w w' : World} {owner : Option String} {name key edge : String}

/-- The printed address is one that a customer may have. -/
def Customer {A : Type} [AddrBytes A] (s : Subnet A) (text : String) : Prop :=
  ∃ a : A, AddrBytes.display a = text ∧ s.Assignable a

/-- The printed address is the broadcast address. -/
def Broadcast (s : WgSubnet) (text : String) : Prop :=
  ∃ a : Ipv4Addr, AddrBytes.display a = text ∧ AddrBytes.octets a = s.broadcast

/-- How an allocation of a free name should end: with a stored machine that has two addresses of
its own, or with an error and nothing stored. -/
def Allocated (cp : ControlPlane) (name : String) (w : World) :
    Outcome ControlPlaneError SignupOutcome → World → Prop
  | .ok (.created resp), w' => w'.machines name = some (.json resp.machine) ∧
      Customer cp.subnet resp.machine.ipv6 ∧ Customer cp.wgSubnet resp.machine.wgIp ∧
      ¬Broadcast cp.wgSubnet resp.machine.wgIp
  | .ok (.existing _), _ => False
  | .err e, w' => (e.IsWiring ∨ (∃ text, e = .allocExhausted text) ∧ w'.index = w.index) ∧
      w'.machines = w.machines
  | .panic _, _ => False

/-- The next index is refused, or it is a host of both subnets and not the last one of the tunnel
network. -/
def HasRoom (cp : ControlPlane) (w : World) : Prop :=
  nextIndex w < 2 ∨
    (nextIndex w).toNat ≤ cp.subnet.maxHost ∧ (nextIndex w).toNat < cp.wgSubnet.maxHost

/-! ## The addresses of an index -/

section Index

variable {i : ℕ} {ips : String × String}

theorem hostStrings_eq_none : cp.hostStrings i = none ↔
    cp.subnet.maxHost < i ∨ cp.wgSubnet.maxHost < i := by
  unfold hostStrings Subnet.hostString Subnet.host
  split_ifs with h₁ h₂ <;> simp <;> omega

theorem exists_hosts (h : cp.hostStrings i = some ips) :
    (∃ a, cp.subnet.host i = some a ∧ AddrBytes.display a = ips.1) ∧
      ∃ a, cp.wgSubnet.host i = some a ∧ AddrBytes.display a = ips.2 := by
  obtain ⟨h₁, h₂⟩ := hostStrings_eq_some.mp h
  exact ⟨Option.map_eq_some_iff.mp h₁, Option.map_eq_some_iff.mp h₂⟩

theorem customers_of_hostStrings (h : cp.hostStrings i = some ips) (htwo : 2 ≤ i) :
    Customer cp.subnet ips.1 ∧ Customer cp.wgSubnet ips.2 := by
  obtain ⟨⟨a, ha, hshow⟩, ⟨b, hb, hshow'⟩⟩ := exists_hosts h
  exact ⟨⟨a, hshow, Subnet.assignable_of_host (fun _ => rfl) ha htwo⟩,
    ⟨b, hshow', Subnet.assignable_of_host (fun _ => rfl) hb htwo⟩⟩

/-- The tunnel address of an index is the broadcast address when the index is the last one. -/
theorem broadcast_iff (h : cp.hostStrings i = some ips) :
    Broadcast cp.wgSubnet ips.2 ↔ i = cp.wgSubnet.maxHost := by
  obtain ⟨-, b, hb, hshow⟩ := exists_hosts h
  have hbits : cp.wgSubnet.hostBits ≤ 64 := (Nat.sub_le _ _).trans (by decide)
  rw [← Subnet.broadcast_of_host (fun _ => rfl) hbits hb]
  constructor
  · rintro ⟨b', hshow', hb'⟩
    rwa [AddrBytes.display_injective (hshow.trans hshow'.symm)]
  · exact fun hb' => ⟨b, hshow, hb'⟩

end Index

/-! ## Runs that exist -/

/-- An index beyond a subnet is a panic. -/
theorem exists_beyond (hfree : w.machines name = none) (htwo : 2 ≤ nextIndex w)
    (hips : cp.hostStrings (nextIndex w).toNat = none) :
    ∃ msg w', (cp.allocateFresh owner name key).Runs Cmd.exec Reliable w (.panic msg) w' :=
  ⟨_, _, (runs_allocateFresh_iff hfree).mpr (Or.inr ⟨htwo, Or.inr ⟨hips, rfl, rfl⟩⟩)⟩

/-- A new route whose index has addresses can be created. -/
theorem exists_created {ips : String × String} (hfree : w.machines name = none)
    (htwo : 2 ≤ nextIndex w) (hips : cp.hostStrings (nextIndex w).toNat = some ips) :
    ∃ w', (cp.allocateFresh owner name key).Runs Cmd.exec Reliable w
      (.ok (cp.freshMachine owner name key ips.1 ips.2)) w' := by
  -- the records are published, and whether they are does not matter
  have hpublish : ∃ w', (upsertMachine name ips.1 cp.rootDomain >>= fun _ => pure () :
      Edge ControlPlaneError Unit).Runs Cmd.exec Reliable
        (routed (cp.freshMachine owner name key ips.1 ips.2) w) (.ok ()) w' :=
    ⟨_, {}, trivial, {}, trivial, rfl, rfl⟩
  obtain ⟨w', hpublish⟩ := hpublish
  refine ⟨w', (runs_allocateFresh_iff hfree).mpr (Or.inr ⟨htwo, Or.inl ⟨ips, hips, ?_⟩⟩)⟩
  refine Prog.runs_bind.mpr (Or.inl ⟨(), w', ?_, rfl, rfl⟩)
  rw [wire, runs_addPeer]
  exact Prog.runs_bind.mpr (Or.inl ⟨(), _, exists_bound, hpublish⟩)

/-! ## Capacity -/

/-- An allocation ends as it should when its index has room. -/
theorem HasRoom.allocated (h : HasRoom cp w) (hgate : allocationGate cp name key = .ok edge)
    (hfree : w.machines name = none) {o : Outcome ControlPlaneError SignupOutcome}
    (hrun : (cp.allocateMachine owner name key).Runs Cmd.exec RedisUp w o w') :
    Allocated cp name w o w' := by
  obtain ⟨o, hfresh, rfl⟩ := (runs_allocateMachine_free hgate hfree).mp hrun
  cases runs_allocateFresh_up hfree hfresh with
  | exhausted _ => exact ⟨Or.inr ⟨⟨_, rfl⟩, rfl⟩, rfl⟩
  | beyond htwo hips =>
    have := hostStrings_eq_none.mp hips
    rcases h with hlow | ⟨h₁, h₂⟩ <;> omega
  | created htwo hips =>
    obtain ⟨hipv6, hwgIp⟩ := customers_of_hostStrings hips (by omega)
    refine ⟨Function.update_self .., hipv6, hwgIp, fun hlast => ?_⟩
    have := (broadcast_iff hips).mp hlast
    rcases h with hlow | ⟨h₁, h₂⟩ <;> omega
  | undone _ _ hwiring => exact ⟨Or.inl hwiring, machines_undo_enlisted rfl hfree⟩

/-- An allocation that always ends as it should has room. -/
theorem hasRoom_of_allocated (hgate : allocationGate cp name key = .ok edge)
    (hfree : w.machines name = none)
    (h : ∀ o w', (cp.allocateMachine owner name key).Runs Cmd.exec RedisUp w o w' →
      Allocated cp name w o w') : HasRoom cp w := by
  by_contra hroom
  rw [HasRoom, not_or, not_and_or, not_lt, not_le, not_lt] at hroom
  obtain ⟨htwo, hbeyond⟩ := hroom
  have hfresh : ∀ {o w'}, (cp.allocateFresh owner name key).Runs Cmd.exec Reliable w o w' →
      Allocated cp name w (o.bimap id fun m => .created ⟨m, edge⟩) w' := fun hrun =>
    h _ _ ((runs_allocateMachine_free hgate hfree).mpr
      ⟨_, hrun.mono fun _ _ => redisUp_of_reliable, rfl⟩)
  cases hips : cp.hostStrings (nextIndex w).toNat with
  | none =>
    obtain ⟨_, _, hrun⟩ := exists_beyond hfree htwo hips
    exact hfresh hrun
  | some ips =>
    obtain ⟨w', hrun⟩ := exists_created hfree htwo hips
    have hfits : ¬(_ ∨ _) := fun hnone => by
      rw [hostStrings_eq_none.mpr hnone] at hips
      cases hips
    exact (hfresh hrun).2.2.2 ((broadcast_iff hips).mpr (by omega))

/-- The tunnel network of the sample has 254 hosts, and the counter is at the last. -/
def fullHouse : World := { World.empty with alloc := some 254 }

/-- The next machine gets `10.10.0.255`. -/
theorem overflowing : ¬∀ o w', (sample.allocateMachine none "kitchen" keyA).Runs Cmd.exec RedisUp
    fullHouse o w' → Allocated sample "kitchen" fullHouse o w' := by
  intro h
  have hroom : nextIndex fullHouse < 2 ∨ (nextIndex fullHouse).toNat ≤ sample.subnet.maxHost ∧
      (nextIndex fullHouse).toNat < sample.wgSubnet.maxHost :=
    hasRoom_of_allocated gate_kitchen rfl h
  revert hroom
  decide

/-- **An allocation of a free name** always ends with two addresses that a customer may have, or
with an error and nothing stored, exactly when the next index is refused or fits both subnets. -/
theorem allocation_fits_iff (hgate : allocationGate cp name key = .ok edge)
    (hfree : w.machines name = none) :
    (∀ o w', (cp.allocateMachine owner name key).Runs Cmd.exec RedisUp w o w' →
      Allocated cp name w o w') ↔ HasRoom cp w :=
  ⟨hasRoom_of_allocated hgate hfree, fun h _ _ => h.allocated hgate hfree⟩

/-- The first allocation of all has room. -/
theorem allocation_fits_first : (nextIndex World.empty).toNat = 2 ∧
    ∀ o w', (sample.allocateMachine none "kitchen" keyA).Runs Cmd.exec RedisUp World.empty o w' →
      Allocated sample "kitchen" World.empty o w' := by
  have hroom : (nextIndex World.empty).toNat ≤ sample.subnet.maxHost ∧
      (nextIndex World.empty).toNat < sample.wgSubnet.maxHost := by decide
  exact ⟨rfl, (allocation_fits_iff gate_kitchen rfl).mpr (Or.inr hroom)⟩

end ControlPlane
end Cococoir
