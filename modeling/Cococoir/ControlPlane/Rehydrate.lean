import Cococoir.ControlPlane.Peers
import Cococoir.Net.Parse
import Mathlib.Data.Set.Card

/-!
# The live forwards and their reconstruction

The operations bind and remove listeners one machine at a time; at boot the listeners are bound
from the stored machines.  Both give the same set.

* `Derived`: the listeners are those of a set of machines, and of which set they are after a
  machine's are bound or removed.
* `ForwardsExact.step`: every machine operation keeps the live forwards those of the stored
  machines, whatever fails outside Redis.
* `forwards_rehydrated`: after every run of them, rehydration into an empty forwarder rebuilds
  the live forwards.

## Two ways to one set

`Derived` says that the live listeners are those of a set of machines: for each of them the two
public ports on its address, relayed to its own ports.  The set determines the listeners, and only
the routes of its machines matter, not their keys.  Binding the listeners of a machine whose
address nobody in the set has adds the machine to the set, and removing them takes it out.  So the
operations keep `Derived` of the stored machines, step by step; and a rehydration, which binds for
one listed machine after the other, starts with the empty set and ends with all of them.  Since
the set determines the listeners, both came to the same.

Addresses have to be apart for this, which is the invariant of `ControlPlane.Fleet`; and a stored
address has to parse, which it does since it was printed from one.
-/

namespace Cococoir
namespace ControlPlane

open Concurrency
open Net (Ipv6Addr)

variable {cp : ControlPlane} {w w' : World} {ε : Type}

/-! ## Rehydration -/

/-- Bind a machine's listeners; a bind that fails is only logged. -/
def rebindForwards (machine : Machine) : List (ℕ × ℕ) → Edge ε Unit
  | [] => pure ()
  | ports :: rest => do
    let _ ← addForward (machineForward machine.ipv6 machine.wgIp ports)
    rebindForwards machine rest

/-- The machine's public address parses. -/
def Machine.parses (machine : Machine) : Bool := (Ipv6Addr.fromStr machine.ipv6).isSome

/-- Rebuild the peers and the listeners of the machines; how many there were. -/
def rehydrateFrom : List Machine → Edge ControlPlaneError ℕ
  | [] => pure 0
  | machine :: rest =>
    if machine.parses then do
      -- a peer that cannot be added is only logged
      let _ ← addPeer machine.wgIp machine.wgPublicKey
      rebindForwards machine edgeForwards
      let count ← rehydrateFrom rest
      return count + 1
    else rehydrateFrom rest

/-- Boot-time reconciliation: rebuild the live forwards from the durable store. -/
def rehydrate : Edge ControlPlaneError ℕ := do
  let machines ← list
  rehydrateFrom machines

/-! ## The listeners of a set of machines -/

/-- The listeners are those of the machines: the two public ports on each address, relayed to
the machine's own ports on its tunnel address. -/
def Derived (S : Machine → Prop) (forwards : String → Option Forward) : Prop :=
  ∀ k f, forwards k = some f ↔
    ∃ m p, S m ∧ p ∈ edgeForwards ∧ f = machineForward m.ipv6 m.wgIp p ∧ k = forwardKey f

/-- A listener's key gives its address and its ports. -/
theorem forwardKey_inj {a a' b b' : String} {p p' : ℕ × ℕ} (hp : p ∈ edgeForwards)
    (hp' : p' ∈ edgeForwards)
    (h : forwardKey (machineForward a b p) = forwardKey (machineForward a' b' p')) :
    a = a' ∧ p = p' := by
  have hchars : ∀ {a b : String} {p : ℕ × ℕ},
      (forwardKey (machineForward a b p)).toList =
        "tcp://[".toList ++ (a.toList ++ ([']', ':'] ++ (toString p.1).toList)) := by
    intro a b p
    have hself : ∀ s : String, toString s = s := fun _ => rfl
    simp [forwardKey, machineForward, hself]
  replace h := congrArg String.toList h
  rw [hchars, hchars] at h
  replace h := List.append_cancel_left h
  -- the two ports do not end alike
  have hports : ∀ q ∈ edgeForwards, ∀ r ∈ edgeForwards,
      ([']', ':'] ++ (toString q.1).toList).getLast? =
        ([']', ':'] ++ (toString r.1).toList).getLast? → q = r := by
    decide
  have hlast : ∀ (a : String) (q : ℕ × ℕ), (a.toList ++ ([']', ':'] ++ (toString q.1).toList)).getLast? =
      ([']', ':'] ++ (toString q.1).toList).getLast? := by
    intro a q
    exact List.getLast?_append_of_ne_nil _ (by simp)
  obtain rfl := hports p hp p' hp' (by rw [← hlast a, ← hlast a', h])
  exact ⟨String.toList_injective (List.append_cancel_right h), rfl⟩

section Derived

variable {S T : Machine → Prop} {forwards forwards' : String → Option Forward} {m : Machine}

/-- The machines determine the listeners. -/
theorem Derived.unique (h : Derived S forwards) (h' : Derived S forwards') : forwards = forwards' := by
  funext k
  refine Option.ext fun f => ?_
  rw [h k f, h' k f]

/-- Only the routes of the machines matter. -/
theorem Derived.congr (h : Derived S forwards)
    (hST : ∀ m, S m → ∃ m', T m' ∧ m'.ipv6 = m.ipv6 ∧ m'.wgIp = m.wgIp)
    (hTS : ∀ m, T m → ∃ m', S m' ∧ m'.ipv6 = m.ipv6 ∧ m'.wgIp = m.wgIp) : Derived T forwards := by
  intro k f
  rw [h k f]
  constructor
  · rintro ⟨m, p, hm, hp, hf, hk⟩
    obtain ⟨m', hm', hip, hwg⟩ := hST m hm
    exact ⟨m', p, hm', hp, by rw [hip, hwg, hf], hk⟩
  · rintro ⟨m, p, hm, hp, hf, hk⟩
    obtain ⟨m', hm', hip, hwg⟩ := hTS m hm
    exact ⟨m', p, hm', hp, by rw [hip, hwg, hf], hk⟩

theorem Derived.empty : Derived (fun _ => False) fun _ => none :=
  fun _ _ => ⟨nofun, fun ⟨_, _, h, _⟩ => h.elim⟩

/-- The keys of a machine whose address none of the machines has are not live. -/
theorem Derived.free (h : Derived S forwards) (hS : ∀ m', S m' → m'.ipv6 ≠ m.ipv6) :
    ∀ p ∈ edgeForwards, forwards (forwardKey (machineForward m.ipv6 m.wgIp p)) = none := by
  intro p hp
  by_contra hne
  obtain ⟨f, hf⟩ := Option.ne_none_iff_exists'.mp hne
  obtain ⟨m', q, hm', hq, rfl, hk⟩ := (h _ _).mp hf
  exact hS m' hm' (forwardKey_inj hq hp hk.symm).1

theorem bindAll_eq_some {ports : List (ℕ × ℕ)} (hports : ∀ p ∈ ports, p ∈ edgeForwards) {k : String}
    {f : Forward} : bindAll m ports forwards k = some f ↔ forwards k = some f ∨
      forwards k = none ∧ ∃ p ∈ ports, f = machineForward m.ipv6 m.wgIp p ∧ k = forwardKey f := by
  induction ports generalizing forwards with
  | nil =>
    simp only [List.not_mem_nil, false_and, exists_false, and_false, or_false]
    exact Iff.rfl
  | cons p ports ih =>
    have hp := hports p List.mem_cons_self
    rw [bindAll, List.foldl_cons]
    refine (@ih (bindForward forwards (machineForward m.ipv6 m.wgIp p))
      fun q hq => hports q (List.mem_cons_of_mem p hq)).trans ?_
    unfold bindForward
    by_cases hk : k = forwardKey (machineForward m.ipv6 m.wgIp p)
    · subst hk
      have honly : ∀ g, (∃ q ∈ p :: ports, g = machineForward m.ipv6 m.wgIp q ∧
          forwardKey (machineForward m.ipv6 m.wgIp p) = forwardKey g) ↔
            g = machineForward m.ipv6 m.wgIp p := by
        refine fun g => ⟨?_, fun hg => ⟨p, List.mem_cons_self, hg, by rw [hg]⟩⟩
        rintro ⟨q, hq, rfl, hkey⟩
        rw [(forwardKey_inj hp (hports q hq) hkey).2]
      rw [honly]
      cases hlive : forwards (forwardKey (machineForward m.ipv6 m.wgIp p)) with
      | some g =>
        rw [Option.isSome_some, if_pos rfl, hlive]
        simp
      | none =>
        rw [Option.isSome_none, if_neg (by simp), Function.update_self]
        simp [eq_comm]
    · have hcell : (if (forwards (forwardKey (machineForward m.ipv6 m.wgIp p))).isSome then forwards
          else Function.update forwards (forwardKey (machineForward m.ipv6 m.wgIp p))
            (some (machineForward m.ipv6 m.wgIp p))) k = forwards k := by
        split_ifs
        · rfl
        · exact Function.update_of_ne hk ..
      rw [hcell]
      refine or_congr_right (and_congr_right fun _ => ⟨?_, ?_⟩)
      · rintro ⟨q, hq, hf⟩
        exact ⟨q, List.mem_cons_of_mem p hq, hf⟩
      · rintro ⟨q, hq, rfl, hkey⟩
        rcases List.mem_cons.mp hq with rfl | hq
        · exact absurd hkey hk
        · exact ⟨q, hq, rfl, hkey⟩

/-- **Binding** a machine with an address of its own. -/
theorem Derived.bind (h : Derived S forwards) (hS : ∀ m', S m' → m'.ipv6 ≠ m.ipv6) :
    Derived (fun m' => S m' ∨ m' = m) (bindAll m edgeForwards forwards) := by
  have hfree := h.free hS
  intro k f
  rw [bindAll_eq_some fun _ hp => hp]
  constructor
  · rintro (hk | ⟨-, p, hp, hf, hk⟩)
    · obtain ⟨m', p, hm', hp, hf, hk⟩ := (h k f).mp hk
      exact ⟨m', p, Or.inl hm', hp, hf, hk⟩
    · exact ⟨m, p, Or.inr rfl, hp, hf, hk⟩
  · rintro ⟨m', p, hm' | rfl, hp, hf, hk⟩
    · exact Or.inl ((h k f).mpr ⟨m', p, hm', hp, hf, hk⟩)
    · refine Or.inr ⟨?_, p, hp, hf, hk⟩
      rw [hk, hf]
      exact hfree p hp

/-- **Removing** a machine's listeners. -/
theorem Derived.unbind (h : Derived S forwards) :
    Derived (fun m' => S m' ∧ m'.ipv6 ≠ m.ipv6) (unbindAll m edgeForwards forwards) := by
  intro k f
  by_cases hb : Bound m edgeForwards k
  · rw [unbindAll_apply.1 hb]
    refine ⟨nofun, ?_⟩
    rintro ⟨m', p, ⟨-, hne⟩, hp, rfl, hk⟩
    obtain ⟨q, hq, hkey⟩ := hb
    exact absurd (forwardKey_inj hp hq (hk.symm.trans hkey.symm)).1 hne
  · rw [unbindAll_apply.2 hb, h k f]
    constructor
    · rintro ⟨m', p, hm', hp, rfl, hk⟩
      refine ⟨m', p, ⟨hm', fun hip => hb ⟨p, hp, ?_⟩⟩, hp, rfl, hk⟩
      rw [hk, ← hip]
      rfl
    · rintro ⟨m', p, ⟨hm', -⟩, hp, hf, hk⟩
      exact ⟨m', p, hm', hp, hf, hk⟩

end Derived

/-! ## What the operations keep -/

/-- The live forwards are those of the stored machines. -/
def ForwardsExact (w : World) : Prop := Derived (fun m => ∃ n, w.machines n = some (.json m)) w.forwards

theorem ForwardsExact.empty : ForwardsExact World.empty :=
  fun _ _ => ⟨nofun, fun ⟨_, _, ⟨_, h⟩, _⟩ => by cases h⟩

/-- **Every step of the routes** keeps the live forwards exact. -/
theorem ForwardsExact.step (hf : ForwardsExact w) (hw : Fleet cp w) (h : RouteStep cp w w') :
    ForwardsExact w' := by
  have hsame : w'.machines = w.machines → w'.forwards = w.forwards → ForwardsExact w' := by
    intro hmachines hforwards
    rw [ForwardsExact, hmachines, hforwards]
    exact hf
  cases h with
  | keep hmachines _ _ hforwards => exact hsame hmachines hforwards
  | @undo m hhost hmachines _ _ hforwards =>
    refine hsame hmachines ?_
    rw [hforwards]
    refine unbindAll_eq_self.mpr (hf.free ?_)
    rintro x ⟨n, hx⟩
    exact (hw.fresh_addresses hhost hx).1
  | @create m hfree hhost hmachines _ _ hforwards =>
    rw [ForwardsExact, hforwards]
    refine (hf.bind (m := m) ?_).congr ?_ ?_
    · rintro x ⟨n, hx⟩
      exact (hw.fresh_addresses hhost hx).1
    · rintro x (⟨n, hx⟩ | rfl)
      · refine ⟨x, ⟨n, ?_⟩, rfl, rfl⟩
        rw [hmachines, Function.update_of_ne (by rintro rfl; rw [hfree] at hx; cases hx), hx]
      · exact ⟨x, ⟨x.name, by rw [hmachines, Function.update_self]⟩, rfl, rfl⟩
    · rintro x ⟨n, hx⟩
      rcases stored_of_update hmachines hx with ⟨-, hx⟩ | ⟨-, hx⟩
      · cases hx
        exact ⟨m, Or.inr rfl, rfl, rfl⟩
      · exact ⟨x, Or.inl ⟨n, hx⟩, rfl, rfl⟩
  | @change m m' hname hroute hmachines _ _ hforwards =>
    rw [ForwardsExact, hforwards]
    refine hf.congr ?_ ?_
    · rintro x ⟨n, hx⟩
      by_cases hn : n = m.name
      · subst hn
        rw [hname] at hx
        cases hx
        exact ⟨m', ⟨_, by rw [hmachines, Function.update_self]⟩, hroute.2⟩
      · exact ⟨x, ⟨n, by rw [hmachines, Function.update_of_ne hn, hx]⟩, rfl, rfl⟩
    · rintro x ⟨n, hx⟩
      rcases stored_of_update hmachines hx with ⟨-, hx⟩ | ⟨-, hx⟩
      · cases hx
        exact ⟨m, ⟨_, hname⟩, hroute.symm.2⟩
      · exact ⟨x, ⟨n, hx⟩, rfl, rfl⟩
  | @remove m hname hmachines _ _ hforwards =>
    rw [ForwardsExact, hforwards]
    refine (hf.unbind (m := m)).congr ?_ ?_
    · rintro x ⟨⟨n, hx⟩, hne⟩
      have hn : n ≠ m.name := by
        rintro rfl
        rw [hname] at hx
        cases hx
        exact hne rfl
      exact ⟨x, ⟨n, by rw [hmachines, Function.update_of_ne hn, hx]⟩, rfl, rfl⟩
    · rintro x ⟨n, hx⟩
      rcases stored_of_update hmachines hx with ⟨-, hx⟩ | ⟨hn, hx⟩
      · cases hx
      · exact ⟨x, ⟨⟨n, hx⟩, fun hip => hn (hw.eq_of_ipv6 hx hname hip)⟩, rfl, rfl⟩

/-! ## Rehydrating -/

/-- Redis does not fail, nor does a bind. -/
def BindsUp : Cmd → Choice → Prop
  | .redis _, ch => ch.fails = false
  | .addForward _, ch => ch.fails = false
  | _, _ => True

section Rehydrate

/-- A bind that succeeds. -/
theorem runs_addForward_up {α : Type} {fwd : Forward} {f : Except String Unit → Edge ε α}
    {o : Outcome ε α} (h : (addForward fwd >>= f).Runs Cmd.exec BindsUp w o w') :
    (f (.ok ())).Runs Cmd.exec BindsUp { w with forwards := bindForward w.forwards fwd } o w' := by
  obtain ⟨ch, hch, h⟩ := h
  rw [Cmd.exec, show ch.fails = false from hch] at h
  unfold bindForward
  by_cases hlive : (w.forwards (forwardKey fwd)).isSome
  · rw [if_pos hlive] at h ⊢
    exact h
  · rw [if_neg hlive, if_neg Bool.false_ne_true] at h
    rw [if_neg hlive]
    exact h

theorem runs_rebindForwards {m : Machine} {ports : List (ℕ × ℕ)} {o : Outcome ε Unit}
    (h : (rebindForwards m ports : Edge ε Unit).Runs Cmd.exec BindsUp w o w') :
    o = .ok () ∧ w' = { w with forwards := bindAll m ports w.forwards } := by
  induction ports generalizing w with
  | nil => exact h
  | cons p ports ih => exact ih (runs_addForward_up h)

/-- **Rehydrating** machines with addresses of their own, beside those already bound. -/
theorem runs_rehydrateFrom {ms : List Machine} {S : Machine → Prop} (hS : Derived S w.forwards)
    (hnew : ∀ m ∈ ms, ∀ x, S x → x.ipv6 ≠ m.ipv6) (hapart : ms.Pairwise (·.ipv6 ≠ ·.ipv6))
    {o : Outcome ControlPlaneError ℕ} (h : (rehydrateFrom ms).Runs Cmd.exec BindsUp w o w') :
    o = .ok (ms.countP Machine.parses) ∧
      Derived (fun x => S x ∨ x ∈ ms ∧ x.parses) w'.forwards := by
  induction ms generalizing w S o w' with
  | nil =>
    obtain ⟨rfl, rfl⟩ := h
    refine ⟨rfl, hS.congr (fun m hm => ⟨m, Or.inl hm, rfl, rfl⟩) ?_⟩
    rintro m (hm | ⟨hm, -⟩)
    · exact ⟨m, hm, rfl, rfl⟩
    · cases hm
  | cons m ms ih =>
    obtain ⟨hm, hapart⟩ := List.pairwise_cons.mp hapart
    rw [rehydrateFrom] at h
    split_ifs at h with hparse
    · obtain ⟨_, peers, h⟩ := runs_addPeer_up h
      rcases Prog.runs_bind.mp h with ⟨_, w₁, hbind, h⟩ | ⟨e, hbind, -⟩ | ⟨msg, hbind, -⟩
      · obtain ⟨-, rfl⟩ := runs_rebindForwards hbind
        have hbound : Derived (fun x => S x ∨ x = m) (bindAll m edgeForwards w.forwards) :=
          hS.bind fun x hx => hnew m List.mem_cons_self x hx
        have ih := fun o w' => @ih
          { w with peers := peers, forwards := bindAll m edgeForwards w.forwards } w'
          (fun x => S x ∨ x = m) hbound (fun x hx y hy => by
            rcases hy with hy | rfl
            · exact hnew x (List.mem_cons_of_mem m hx) y hy
            · exact hm x hx) hapart o
        rcases Prog.runs_bind.mp h with ⟨n, w₂, hrest, rfl, rfl⟩ | ⟨e, hrest, -⟩ | ⟨msg, hrest, -⟩
        · obtain ⟨hn, hd⟩ := ih _ _ hrest
          cases hn
          refine ⟨by rw [List.countP_cons_of_pos hparse], hd.congr ?_ ?_⟩
          · rintro x ((hx | rfl) | ⟨hx, hp⟩)
            · exact ⟨x, Or.inl hx, rfl, rfl⟩
            · exact ⟨x, Or.inr ⟨List.mem_cons_self, hparse⟩, rfl, rfl⟩
            · exact ⟨x, Or.inr ⟨List.mem_cons_of_mem m hx, hp⟩, rfl, rfl⟩
          · rintro x (hx | ⟨hx, hp⟩)
            · exact ⟨x, Or.inl (Or.inl hx), rfl, rfl⟩
            · rcases List.mem_cons.mp hx with rfl | hx
              · exact ⟨x, Or.inl (Or.inr rfl), rfl, rfl⟩
              · exact ⟨x, Or.inr ⟨hx, hp⟩, rfl, rfl⟩
        · cases (ih _ _ hrest).1
        · cases (ih _ _ hrest).1
      · cases (runs_rebindForwards hbind).1
      · cases (runs_rebindForwards hbind).1
    · obtain ⟨rfl, hd⟩ := ih hS (fun x hx => hnew x (List.mem_cons_of_mem m hx)) hapart h
      refine ⟨by rw [List.countP_cons_of_neg (by simpa using hparse)], hd.congr ?_ ?_⟩
      · rintro x (hx | ⟨hx, hp⟩)
        · exact ⟨x, Or.inl hx, rfl, rfl⟩
        · exact ⟨x, Or.inr ⟨List.mem_cons_of_mem m hx, hp⟩, rfl, rfl⟩
      · rintro x (hx | ⟨hx, hp⟩)
        · exact ⟨x, Or.inl hx, rfl, rfl⟩
        · rcases List.mem_cons.mp hx with rfl | hx
          · exact absurd hp hparse
          · exact ⟨x, Or.inr ⟨hx, hp⟩, rfl, rfl⟩

end Rehydrate

/-- The address of a stored machine parses. -/
theorem Fleet.parses (hw : Fleet cp w) {n : String} {m : Machine}
    (hm : w.machines n = some (.json m)) : m.parses = true := by
  obtain ⟨i, ⟨-, hips⟩, -⟩ := hw.hosted n m hm
  obtain ⟨a, -, ha⟩ := Option.map_eq_some_iff.mp (hostStrings_eq_some.mp hips).1
  rw [Machine.parses, ← ha]
  exact Option.isSome_iff_exists.mpr ⟨a, Ipv6Addr.fromStr_display a⟩

/-- The listed machines have addresses of their own. -/
theorem Fleet.pairwise_listed (hw : Fleet cp w) : (listed w).Pairwise (·.ipv6 ≠ ·.ipv6) := by
  refine List.pairwise_filterMap.mpr (hw.index.1.imp fun {n n'} hne m hm m' hm' hip => ?_)
  exact hne (hw.eq_of_ipv6 (machineAt_eq_some.mp hm) (machineAt_eq_some.mp hm') hip)

theorem Fleet.mem_listed (hw : Fleet cp w) {m : Machine} :
    m ∈ listed w ↔ ∃ n, w.machines n = some (.json m) := by
  rw [listed, List.mem_filterMap]
  constructor
  · rintro ⟨n, -, h⟩
    exact ⟨n, machineAt_eq_some.mp h⟩
  · rintro ⟨n, h⟩
    exact ⟨n, (hw.index.2 n).mpr (by rw [h]; nofun), machineAt_eq_some.mpr h⟩

/-- As many machines are listed with an address that parses as are stored with one. -/
theorem Fleet.countP_listed (hw : Fleet cp w) : (listed w).countP Machine.parses =
    {n | ∃ m, w.machines n = some (.json m) ∧ m.parses = true}.ncard := by
  set names := w.index.filter fun n => ((machineAt w n).map Machine.parses).getD false with hnames
  have hset : {n | ∃ m, w.machines n = some (.json m) ∧ m.parses = true} = names.toFinset := by
    ext n
    rw [List.coe_toFinset]
    show (∃ m, w.machines n = some (.json m) ∧ m.parses = true) ↔ n ∈ names
    rw [hnames, List.mem_filter]
    constructor
    · rintro ⟨m, hm, hp⟩
      refine ⟨(hw.index.2 n).mpr (by rw [hm]; nofun), ?_⟩
      rw [machineAt_eq_some.mpr hm]
      exact hp
    · rintro ⟨-, hp⟩
      cases hm : machineAt w n with
      | none =>
        rw [hm] at hp
        cases hp
      | some m =>
        rw [hm] at hp
        exact ⟨m, machineAt_eq_some.mp hm, hp⟩
  rw [hset, Set.ncard_coe_finset, List.toFinset_card_of_nodup (hw.index.1.filter _), listed,
    List.countP_filterMap, List.countP_eq_length_filter]

/-- A machine operation alone: Redis does not fail, and everything else may. -/
def RouteOp (cp : ControlPlane) (w : World) (call : Call) (o : Outcome EdgeError Reply)
    (w' : World) : Prop :=
  call.routes = true ∧ (cp.body call).Runs Cmd.exec RedisUp w o w'

/-- **The live forwards are those of the stored machines** after every sequential run of machine
operations, whatever peers and binds failed, and rehydration into an empty forwarder rebuilds
them and counts the machines. -/
theorem forwards_rehydrated {w₀ : World} (hw₀ : Fleet cp w₀) (hf₀ : ForwardsExact w₀)
    {hist : List (Call × Outcome EdgeError Reply)} (h : Served (RouteOp cp) w₀ hist w) :
    ForwardsExact w ∧ ∀ o w', rehydrate.Runs Cmd.exec BindsUp { w with forwards := fun _ => none } o w' →
      o = .ok {n | ∃ m, w.machines n = some (.json m) ∧ m.parses = true}.ncard ∧
        w'.forwards = w.forwards := by
  have hboth : Fleet cp w ∧ ForwardsExact w := by
    refine Served.invariant (fun w => Fleet cp w ∧ ForwardsExact w) ⟨hw₀, hf₀⟩ ?_ h
    rintro w call o w' ⟨hw, hf⟩ ⟨hcall, hrun⟩
    have hstep := routeStep_of_runs hw hcall hrun
    exact ⟨hw.step hstep, hf.step hw hstep⟩
  obtain ⟨hw, hf⟩ := hboth
  refine ⟨hf, fun o w' hrun => ?_⟩
  set w₁ : World := { w with forwards := fun _ => none }
  have hlist : ∀ {o' w₂}, list.Runs Cmd.exec BindsUp w₁ o' w₂ → o' = .ok (listed w) ∧ w₂ = w₁ := by
    intro o' w₂ hrun
    refine (runs_list fun n _ text err hn => ?_).mp (onlyRedis_list.runs_mono (fun c ch hc hgood => ?_)
      hrun)
    · obtain ⟨m, hx⟩ := hw.decoded n _ hn
      cases hx
    · obtain ⟨op, rfl⟩ := hc
      exact hgood
  rcases Prog.runs_bind.mp hrun with ⟨ms, w₂, hms, hrun⟩ | ⟨e, hms, -⟩ | ⟨msg, hms, -⟩
  · obtain ⟨hlisted, rfl⟩ := hlist hms
    obtain rfl : ms = listed w := Outcome.ok.inj hlisted
    obtain ⟨rfl, hd⟩ := runs_rehydrateFrom (w := w₁) Derived.empty (fun _ _ _ h => h.elim)
      hw.pairwise_listed hrun
    refine ⟨by rw [hw.countP_listed], (hd.congr ?_ ?_).unique hf⟩
    · rintro m (hm | ⟨hm, -⟩)
      · exact hm.elim
      · exact ⟨m, hw.mem_listed.mp hm, rfl, rfl⟩
    · rintro m ⟨n, hm⟩
      exact ⟨m, Or.inr ⟨hw.mem_listed.mpr ⟨n, hm⟩, hw.parses hm⟩, rfl, rfl⟩
  · cases (hlist hms).1
  · cases (hlist hms).1

/-- A machine is allocated and its key is rotated. -/
theorem forwards_rehydrated_rotated :
    ForwardsExact ((sample.body (.allocate none "kitchen" keyB)).eval Cmd.exec [] oneMachine).2 := by
  have hrun : ∀ {call : Call} {w : World}, call.routes = true → RouteOp sample w call
      ((sample.body call).eval Cmd.exec [] w).1 ((sample.body call).eval Cmd.exec [] w).2 :=
    fun hcall => ⟨hcall, (machineOp_eval _ hcall).2.mono fun _ _ => redisUp_of_reliable⟩
  exact (forwards_rehydrated .empty .empty (.snoc (.snoc .nil
    (@hrun (.allocate none "kitchen" keyA) _ rfl))
    (@hrun (.allocate none "kitchen" keyB) _ rfl))).1

end ControlPlane
end Cococoir
