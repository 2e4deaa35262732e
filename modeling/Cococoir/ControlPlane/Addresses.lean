import Cococoir.ControlPlane.Schedules

/-!
# No two machines share an address

A machine's addresses are those of its host index, and the index comes from a counter that
is raised before the name is claimed and lowered again by a call that lost the race for its
name.  Lowering it hands out an index twice when it has been raised in between, and then two
machines get the same addresses.

* `sharedAddress`: three allocations after which two machines share both addresses.
* `addresses_distinct`: in every schedule in which an index is given back only while it is
  still the counter's value, machines with different names have different addresses, and
  none has the edge's.

## The accounting

`DistinctHosts` looks at all records, those stored and those of which some call has a copy that it
may store, and at the indices that calls have taken and not used yet.  Records of one index have
one name; an index in hand is no record's and nobody else's; and all of them are at most the
counter.  Taking the next index keeps this because of the last part, claiming a name with it moves
it from a call to a record, and writing a record again changes no address.

The one command that can break it is the `DECR` of a call that lost its name.  If the counter
still stands at the index, it was the last one, and nothing is above it.  If another call has
taken the next index meanwhile, that one will be handed out twice, which is what the sample does
in three calls.
-/

namespace Cococoir
namespace ControlPlane

open Concurrency

variable (cp : ControlPlane)

/-- The machine's addresses are those of host `i`, a machine's host. -/
def HostOf (m : Machine) (i : ℤ) : Prop :=
  2 ≤ i ∧ cp.hostStrings i.toNat = some (m.ipv6, m.wgIp)

/-- Two versions of one machine, with the same name and addresses. -/
def SameRoute (m m' : Machine) : Prop :=
  m.name = m'.name ∧ m.ipv6 = m'.ipv6 ∧ m.wgIp = m'.wgIp

/-- The host index a call has taken and not used. -/
def HostPhase.index : HostPhase → Option ℤ
  | .pending i | .lost i => some i
  | .idle | .seeded => none

/-- The record is stored, or some call has a copy of it. -/
def Holds (w : World) (vs : List View) (m : Machine) : Prop :=
  w.machines m.name = some (.json m) ∨ ∃ v ∈ vs, m ∈ v.seen

/-- Records of one index have one name, and an index that a call has taken and not used
belongs to that call alone.  All of them are at most the counter. -/
structure DistinctHosts (w : World) (vs : List View) : Prop where
  stored : ∀ n x, w.machines n = some x → ∃ m, x = .json m
  seeded : ∀ v ∈ vs, v.host ≠ .idle → w.alloc ≠ none
  counter : ∀ k, w.alloc = some k → 1 ≤ k
  held : ∀ m, Holds w vs m → ∃ i k, HostOf cp m i ∧ w.alloc = some k ∧ i ≤ k
  unique : ∀ m m' i, Holds w vs m → Holds w vs m' → HostOf cp m i → HostOf cp m' i →
    m.name = m'.name
  taken : ∀ (j : ℕ) (v : View) (i : ℤ), vs[j]? = some v → v.host.index = some i →
    2 ≤ i ∧ ∃ k, w.alloc = some k ∧ i ≤ k
  alone : ∀ (j j' : ℕ) (v v' : View) (i : ℤ), vs[j]? = some v → vs[j']? = some v' → v.host.index = some i →
    v'.host.index = some i → j = j'
  free : ∀ (j : ℕ) (v : View) (i : ℤ) (m : Machine), vs[j]? = some v → v.host.index = some i →
    Holds w vs m → ¬HostOf cp m i

/-- An index is given back only while the counter still stands at it. -/
def GivesBackTop (σ : Server) : Tick → Prop
  | .start call => call.enrolls
  | .step j _ => ∀ t ∈ σ.pool[j]?, t.pending = some (.redis (.alloc .decr)) →
      σ.world.alloc = (view t).host.index

instance : ∀ σ e, Decidable (GivesBackTop σ e)
  | _, .start call => inferInstanceAs (Decidable (call.enrolls = true))
  | σ, .step j _ => inferInstanceAs (Decidable (∀ t ∈ σ.pool[j]?,
      t.pending = some (.redis (.alloc .decr)) → σ.world.alloc = (view t).host.index))

variable {cp}

/-! ## Addresses and indices -/

theorem hostStrings_eq_some {i : ℕ} {a b : String} :
    cp.hostStrings i = some (a, b) ↔
      cp.subnet.hostString i = some a ∧ cp.wgSubnet.hostString i = some b := by
  unfold hostStrings
  cases cp.subnet.hostString i <;> cases cp.wgSubnet.hostString i <;> simp

theorem HostOf.eq_left {m m' : Machine} {i j : ℤ} (hi : HostOf cp m i) (hj : HostOf cp m' j)
    (h : m.ipv6 = m'.ipv6) : i = j := by
  have hi' := (hostStrings_eq_some.mp hi.2).1
  have hj' := (hostStrings_eq_some.mp hj.2).1
  have := cp.subnet.hostString_injective hi' (h ▸ hj')
  have h₁ := hi.1
  have h₂ := hj.1
  omega

theorem HostOf.eq_right {m m' : Machine} {i j : ℤ} (hi : HostOf cp m i) (hj : HostOf cp m' j)
    (h : m.wgIp = m'.wgIp) : i = j := by
  have hi' := (hostStrings_eq_some.mp hi.2).2
  have hj' := (hostStrings_eq_some.mp hj.2).2
  have := cp.wgSubnet.hostString_injective hi' (h ▸ hj')
  have h₁ := hi.1
  have h₂ := hj.1
  omega

theorem SameRoute.hostOf {m m' : Machine} {i : ℤ} (h : SameRoute m m') (hm : HostOf cp m' i) :
    HostOf cp m i := by
  obtain ⟨-, h₁, h₂⟩ := h
  rw [HostOf, h₁, h₂]
  exact hm

theorem SameRoute.symm {m m' : Machine} (h : SameRoute m m') : SameRoute m' m :=
  ⟨h.1.symm, h.2.1.symm, h.2.2.symm⟩

/-- Machines of one host have one public address. -/
theorem HostOf.eq_ipv6 {m m' : Machine} {i : ℤ} (h : HostOf cp m i) (h' : HostOf cp m' i) :
    m.ipv6 = m'.ipv6 := congrArg Prod.fst (Option.some.inj (h.2.symm.trans h'.2))

/-! ## What a step keeps -/

section Keep

variable {w w' : World} {vs vs' : List View} {i : ℕ} {v v' : View}

theorem DistinctHosts.mono (h : DistinctHosts cp w vs)
    (hstored : ∀ n x, w'.machines n = some x → ∃ m, x = .json m)
    (hseeded : ∀ v' ∈ vs', v'.host ≠ .idle → w'.alloc ≠ none)
    (hcounter : ∀ k, w'.alloc = some k → 1 ≤ k)
    (halloc : ∀ k, w.alloc = some k → w'.alloc = some k)
    (hheld : ∀ m, Holds w' vs' m → ∃ m', Holds w vs m' ∧ SameRoute m' m)
    (hindex : ∀ (j : ℕ) (v' : View) (i : ℤ), vs'[j]? = some v' → v'.host.index = some i →
      ∃ v, vs[j]? = some v ∧ v.host.index = some i) :
    DistinctHosts cp w' vs' := by
  refine ⟨hstored, hseeded, hcounter, ?_, ?_, ?_, ?_, ?_⟩
  · intro m hm
    obtain ⟨m', hm', hroute⟩ := hheld m hm
    obtain ⟨i, k, hi, hk, hle⟩ := h.held m' hm'
    refine ⟨i, k, ?_, halloc k hk, hle⟩
    exact SameRoute.hostOf ⟨hroute.1.symm, hroute.2.1.symm, hroute.2.2.symm⟩ hi
  · intro m₁ m₂ i h₁ h₂ hi₁ hi₂
    obtain ⟨m₁', hm₁, hr₁⟩ := hheld m₁ h₁
    obtain ⟨m₂', hm₂, hr₂⟩ := hheld m₂ h₂
    rw [← hr₁.1, ← hr₂.1]
    exact h.unique m₁' m₂' i hm₁ hm₂ (hr₁.hostOf hi₁) (hr₂.hostOf hi₂)
  · intro j v' i hj hi
    obtain ⟨v, hv, hvi⟩ := hindex j v' i hj hi
    obtain ⟨htwo, k, hk, hle⟩ := h.taken j v i hv hvi
    exact ⟨htwo, k, halloc k hk, hle⟩
  · intro j j' u u' i hj hj' hi hi'
    obtain ⟨v₁, hv₁, hvi₁⟩ := hindex j u i hj hi
    obtain ⟨v₂, hv₂, hvi₂⟩ := hindex j' u' i hj' hi'
    exact h.alone j j' v₁ v₂ i hv₁ hv₂ hvi₁ hvi₂
  · intro j v' i m hj hi hm hhostOf
    obtain ⟨v, hv, hvi⟩ := hindex j v' i hj hi
    obtain ⟨m', hm', hroute⟩ := hheld m hm
    exact h.free j v i m' hv hvi hm' (hroute.hostOf hhostOf)

/-- One view replaced by one with the same index taken, if any. -/
theorem index_set (hvi : vs[i]? = some v)
    (hindex : ∀ z, v'.host.index = some z → v.host.index = some z) :
    ∀ (j : ℕ) (u' : View) (z : ℤ), (vs.set i v')[j]? = some u' → u'.host.index = some z →
      ∃ u, vs[j]? = some u ∧ u.host.index = some z := by
  intro j u' z hj hz
  rcases getElem?_set_cases hj with ⟨rfl, rfl⟩ | ⟨-, hj⟩
  · exact ⟨v, hvi, hindex z hz⟩
  · exact ⟨u', hj, hz⟩

theorem seeded_set (h : DistinctHosts cp w vs) (halloc : w.alloc ≠ none → w'.alloc ≠ none)
    (hv : v'.host ≠ .idle → w'.alloc ≠ none) :
    ∀ u ∈ vs.set i v', u.host ≠ .idle → w'.alloc ≠ none := by
  intro u hu hne
  rcases List.mem_or_eq_of_mem_set hu with hu | rfl
  · exact halloc (h.seeded u hu hne)
  · exact hv hne

theorem mem_seen_set {m : Machine} (h : ∃ u ∈ vs.set i v', m ∈ u.seen) :
    m ∈ v'.seen ∨ ∃ u ∈ vs, m ∈ u.seen := by
  obtain ⟨u, hu, hm⟩ := h
  rcases List.mem_or_eq_of_mem_set hu with hu | rfl
  · exact Or.inr ⟨u, hu, hm⟩
  · exact Or.inl hm

/-- A step that leaves the counter, in a call that takes no index. -/
theorem DistinctHosts.same (h : DistinctHosts cp w vs) (hvi : vs[i]? = some v)
    (hstored : ∀ n x, w'.machines n = some x → ∃ m, x = .json m) (halloc : w'.alloc = w.alloc)
    (hheld : ∀ m, Holds w' (vs.set i v') m → ∃ m', Holds w vs m' ∧ SameRoute m' m)
    (hidle : v'.host ≠ .idle → v.host ≠ .idle)
    (hindex : ∀ z, v'.host.index = some z → v.host.index = some z) :
    DistinctHosts cp w' (vs.set i v') := by
  refine h.mono hstored (seeded_set h (by rw [halloc]; exact id) fun hne => ?_)
    (by rw [halloc]; exact h.counter) (by rw [halloc]; exact fun _ hk => hk) hheld
    (index_set hvi hindex)
  rw [halloc]
  exact h.seeded v (List.mem_of_getElem? hvi) (hidle hne)

/-- A step that leaves the records, the counter, and what the call has read and taken. -/
theorem DistinctHosts.frame (h : DistinctHosts cp w vs) (hvi : vs[i]? = some v)
    (hmachines : w'.machines = w.machines) (halloc : w'.alloc = w.alloc)
    (hv : v'.seen = v.seen ∧ v'.host = v.host) : DistinctHosts cp w' (vs.set i v') := by
  refine h.same hvi (hmachines ▸ h.stored) halloc (fun m hm => ⟨m, ?_, rfl, rfl, rfl⟩)
    (fun hne => hv.2 ▸ hne) (fun z hz => hv.2 ▸ hz)
  rcases hm with hm | hm
  · exact Or.inl (hmachines ▸ hm)
  · rcases mem_seen_set hm with hm | hm
    · exact Or.inr ⟨v, List.mem_of_getElem? hvi, hv.1 ▸ hm⟩
    · exact Or.inr hm

/-- Writing a version of a record that some call has a copy of. -/
theorem DistinctHosts.write (h : DistinctHosts cp w vs) (hvi : vs[i]? = some v) (m m' : Machine)
    (hseen : m ∈ v.seen) (hroute : SameRoute m m')
    (hmachines : w'.machines = Function.update w.machines m'.name (some (.json m')))
    (halloc : w'.alloc = w.alloc) (hv : v'.seen = m' :: v.seen ∧ v'.host = v.host) :
    DistinctHosts cp w' (vs.set i v') := by
  have hm : Holds w vs m := Or.inr ⟨v, List.mem_of_getElem? hvi, hseen⟩
  refine h.same hvi (fun n x hx => ?_) halloc (fun x hx => ?_) (fun hne => hv.2 ▸ hne)
    (fun z hz => hv.2 ▸ hz)
  · rw [hmachines] at hx
    by_cases hn : n = m'.name
    · rw [hn, Function.update_self] at hx
      exact ⟨m', (Option.some.inj hx).symm⟩
    · rw [Function.update_of_ne hn] at hx
      exact h.stored n x hx
  · rcases hx with hx | hx
    · rw [hmachines] at hx
      by_cases hn : x.name = m'.name
      · rw [hn, Function.update_self] at hx
        cases hx
        exact ⟨m, hm, hroute⟩
      · rw [Function.update_of_ne hn] at hx
        exact ⟨x, Or.inl hx, rfl, rfl, rfl⟩
    · rcases mem_seen_set hx with hx | hx
      · rw [hv.1] at hx
        rcases List.mem_cons.mp hx with rfl | hx
        · exact ⟨m, hm, hroute⟩
        · exact ⟨x, Or.inr ⟨v, List.mem_of_getElem? hvi, hx⟩, rfl, rfl, rfl⟩
      · exact ⟨x, Or.inr hx, rfl, rfl, rfl⟩

/-- Claiming a free name with the index the call has taken. -/
theorem DistinctHosts.claim (h : DistinctHosts cp w vs) (hvi : vs[i]? = some v) {m : Machine}
    {z : ℤ} (hz : v.host = .pending z) (hm : HostOf cp m z)
    (hmachines : w'.machines = Function.update w.machines m.name (some (.json m)))
    (halloc : w'.alloc = w.alloc) (hv : v'.seen = m :: v.seen ∧ v'.host = .idle) :
    DistinctHosts cp w' (vs.set i v') := by
  have hindex : v.host.index = some z := by rw [hz]; rfl
  have hheld : ∀ x, Holds w' (vs.set i v') x → x = m ∨ Holds w vs x := by
    rintro x (hx | hx)
    · rw [hmachines] at hx
      by_cases hn : x.name = m.name
      · rw [hn, Function.update_self] at hx
        cases hx
        exact Or.inl rfl
      · rw [Function.update_of_ne hn] at hx
        exact Or.inr (Or.inl hx)
    · rcases mem_seen_set hx with hx | hx
      · rw [hv.1] at hx
        rcases List.mem_cons.mp hx with rfl | hx
        · exact Or.inl rfl
        · exact Or.inr (Or.inr ⟨v, List.mem_of_getElem? hvi, hx⟩)
      · exact Or.inr (Or.inr hx)
  have hother : ∀ (j : ℕ) (u : View) (y : ℤ), (vs.set i v')[j]? = some u →
      u.host.index = some y → j ≠ i ∧ vs[j]? = some u := by
    intro j u y hj hy
    rcases getElem?_set_cases hj with ⟨rfl, rfl⟩ | hj
    · rw [hv.2] at hy
      cases hy
    · exact hj
  have heq : ∀ x y, HostOf cp x z → HostOf cp x y → y = z := fun x y hx hy => hy.eq_left hx rfl
  refine ⟨?_, ?_, ?_, ?_, ?_, ?_, ?_, ?_⟩
  · intro n x hx
    rw [hmachines] at hx
    by_cases hn : n = m.name
    · rw [hn, Function.update_self] at hx
      exact ⟨m, (Option.some.inj hx).symm⟩
    · rw [Function.update_of_ne hn] at hx
      exact h.stored n x hx
  · intro u hu hne
    rw [halloc]
    rcases List.mem_or_eq_of_mem_set hu with hu | rfl
    · exact h.seeded u hu hne
    · exact absurd hv.2 hne
  · rw [halloc]
    exact h.counter
  · intro x hx
    rw [halloc]
    rcases hheld x hx with rfl | hx
    · obtain ⟨-, k, hk⟩ := h.taken i v z hvi hindex
      exact ⟨z, k, hm, hk⟩
    · exact h.held x hx
  · intro x y j hx hy hxj hyj
    rcases hheld x hx with rfl | hx <;> rcases hheld y hy with rfl | hy
    · rfl
    · exact absurd ((heq _ _ hm hxj) ▸ hyj) (h.free i v z y hvi hindex hy)
    · exact absurd ((heq _ _ hm hyj) ▸ hxj) (h.free i v z x hvi hindex hx)
    · exact h.unique x y j hx hy hxj hyj
  · intro j u y hj hy
    rw [halloc]
    exact h.taken j u y (hother j u y hj hy).2 hy
  · intro j j' u u' y hj hj' hy hy'
    exact h.alone j j' u u' y (hother j u y hj hy).2 (hother j' u' y hj' hy').2 hy hy'
  · intro j u y x hj hy hx hhost
    obtain ⟨hne, hj⟩ := hother j u y hj hy
    rcases hheld x hx with rfl | hx
    · rw [heq _ _ hm hhost] at hy
      exact hne (h.alone j i u v z hj hvi hy hindex)
    · exact h.free j u y x hj hy hx hhost

/-- Taking the next index. -/
theorem DistinctHosts.take (h : DistinctHosts cp w vs) (hvi : vs[i]? = some v) {k : ℤ}
    (hk : w.alloc = some k) (hmachines : w'.machines = w.machines)
    (halloc : w'.alloc = some (k + 1)) (hv : v'.seen = v.seen ∧ v'.host = .pending (k + 1)) :
    DistinctHosts cp w' (vs.set i v') := by
  have hheld : ∀ x, Holds w' (vs.set i v') x → Holds w vs x := by
    rintro x (hx | hx)
    · exact Or.inl (hmachines ▸ hx)
    · rcases mem_seen_set hx with hx | hx
      · exact Or.inr ⟨v, List.mem_of_getElem? hvi, hv.1 ▸ hx⟩
      · exact Or.inr hx
  have hle : ∀ x y, Holds w vs x → HostOf cp x y → y ≤ k := by
    intro x y hx hy
    obtain ⟨z, k', hz, hk', hle⟩ := h.held x hx
    rw [hk] at hk'
    cases hk'
    rw [hy.eq_left hz rfl]
    exact hle
  have hcases : ∀ (j : ℕ) (u : View) (y : ℤ), (vs.set i v')[j]? = some u →
      u.host.index = some y → j = i ∧ y = k + 1 ∨ vs[j]? = some u ∧ y ≤ k := by
    intro j u y hj hy
    rcases getElem?_set_cases hj with ⟨rfl, rfl⟩ | ⟨-, hj⟩
    · rw [hv.2] at hy
      cases hy
      exact Or.inl ⟨rfl, rfl⟩
    · obtain ⟨-, k', hk', hle⟩ := h.taken j u y hj hy
      rw [hk] at hk'
      cases hk'
      exact Or.inr ⟨hj, hle⟩
  have hone := h.counter k hk
  refine ⟨hmachines ▸ h.stored, ?_, ?_, ?_, ?_, ?_, ?_, ?_⟩
  · intro u _ _
    rw [halloc]
    exact Option.some_ne_none _
  · intro k' hk'
    rw [halloc] at hk'
    cases hk'
    omega
  · intro x hx
    obtain ⟨z, k', hz, hk', hle⟩ := h.held x (hheld x hx)
    rw [hk] at hk'
    cases hk'
    exact ⟨z, k + 1, hz, halloc, by omega⟩
  · exact fun x y j hx hy => h.unique x y j (hheld x hx) (hheld y hy)
  · intro j u y hj hy
    rcases hcases j u y hj hy with ⟨-, rfl⟩ | ⟨hj, hle⟩
    · exact ⟨by omega, k + 1, halloc, le_refl _⟩
    · exact ⟨(h.taken j u y hj hy).1, k + 1, halloc, by omega⟩
  · intro j j' u u' y hj hj' hy hy'
    rcases hcases j u y hj hy with ⟨rfl, h₁⟩ | ⟨hj, h₁⟩ <;>
      rcases hcases j' u' y hj' hy' with ⟨rfl, h₂⟩ | ⟨hj', h₂⟩
    · rfl
    · omega
    · omega
    · exact h.alone j j' u u' y hj hj' hy hy'
  · intro j u y x hj hy hx hhost
    rcases hcases j u y hj hy with ⟨-, rfl⟩ | ⟨hj, -⟩
    · have := hle x _ (hheld x hx) hhost
      omega
    · exact h.free j u y x hj hy (hheld x hx) hhost

/-- Giving back the index the counter stands at. -/
theorem DistinctHosts.giveBack (h : DistinctHosts cp w vs) (hvi : vs[i]? = some v) {k : ℤ}
    (hk : w.alloc = some k) (hlost : v.host = .lost k) (hmachines : w'.machines = w.machines)
    (halloc : w'.alloc = some (k - 1)) (hv : v'.seen = v.seen ∧ v'.host = .idle) :
    DistinctHosts cp w' (vs.set i v') := by
  have hindex : v.host.index = some k := by rw [hlost]; rfl
  have hheld : ∀ x, Holds w' (vs.set i v') x → Holds w vs x := by
    rintro x (hx | hx)
    · exact Or.inl (hmachines ▸ hx)
    · rcases mem_seen_set hx with hx | hx
      · exact Or.inr ⟨v, List.mem_of_getElem? hvi, hv.1 ▸ hx⟩
      · exact Or.inr hx
  have hother : ∀ (j : ℕ) (u : View) (y : ℤ), (vs.set i v')[j]? = some u →
      u.host.index = some y → vs[j]? = some u ∧ 2 ≤ y ∧ y ≤ k - 1 := by
    intro j u y hj hy
    rcases getElem?_set_cases hj with ⟨rfl, rfl⟩ | ⟨hne, hj⟩
    · rw [hv.2] at hy
      cases hy
    · obtain ⟨htwo, k', hk', hle⟩ := h.taken j u y hj hy
      rw [hk] at hk'
      cases hk'
      have hy' : y ≠ k := by
        rintro rfl
        exact hne (h.alone j i u v y hj hvi hy hindex)
      exact ⟨hj, htwo, by omega⟩
  have htwo := (h.taken i v k hvi hindex).1
  refine ⟨hmachines ▸ h.stored, ?_, ?_, ?_, ?_, ?_, ?_, ?_⟩
  · intro u _ _
    rw [halloc]
    exact Option.some_ne_none _
  · intro k' hk'
    rw [halloc] at hk'
    cases hk'
    omega
  · intro x hx
    obtain ⟨z, k', hz, hk', hle⟩ := h.held x (hheld x hx)
    rw [hk] at hk'
    cases hk'
    have hne : z ≠ k := by
      rintro rfl
      exact h.free i v z x hvi hindex (hheld x hx) hz
    exact ⟨z, k - 1, hz, halloc, by omega⟩
  · exact fun x y j hx hy => h.unique x y j (hheld x hx) (hheld y hy)
  · intro j u y hj hy
    obtain ⟨-, htwo, hle⟩ := hother j u y hj hy
    exact ⟨htwo, k - 1, halloc, hle⟩
  · intro j j' u u' y hj hj' hy hy'
    exact h.alone j j' u u' y (hother j u y hj hy).1 (hother j' u' y hj' hy').1 hy hy'
  · intro j u y x hj hy hx
    exact h.free j u y x (hother j u y hj hy).1 hy (hheld x hx)

end Keep

theorem mem_seen_of_known {v : View} {n : String} {m : Machine} (h : v.known n = some m) :
    m ∈ v.seen := List.mem_of_find?_eq_some h

/-- Making sure that the counter exists. -/
theorem DistinctHosts.seed {w w' : World} {vs : List View} {i : ℕ} {v v' : View}
    (h : DistinctHosts cp w vs) (hvi : vs[i]? = some v) (hmachines : w'.machines = w.machines)
    (halloc : w'.alloc = some (w.alloc.getD 1)) (hv : v'.seen = v.seen ∧ v'.host = .seeded) :
    DistinctHosts cp w' (vs.set i v') := by
  have hsome : w'.alloc ≠ none := by rw [halloc]; exact Option.some_ne_none _
  refine h.mono (hmachines ▸ h.stored) (seeded_set h (fun _ => hsome) fun _ => hsome)
    (fun k hk => ?_) (fun k hk => ?_) (fun m hm => ⟨m, ?_, rfl, rfl, rfl⟩)
    (index_set hvi fun z hz => ?_)
  · rw [halloc, Option.some.injEq] at hk
    cases hw : w.alloc with
    | none =>
      rw [hw] at hk
      exact le_of_eq hk
    | some k' =>
      rw [hw] at hk
      exact h.counter k (hw.trans (congrArg some hk))
  · rw [halloc, hk]
    rfl
  · rcases hm with hm | hm
    · exact Or.inl (hmachines ▸ hm)
    · rcases mem_seen_set hm with hm | hm
      · exact Or.inr ⟨v, List.mem_of_getElem? hvi, hv.1 ▸ hm⟩
      · exact Or.inr hm
  · rw [hv.2] at hz
    cases hz

/-- Deleting a record. -/
theorem DistinctHosts.drop {w w' : World} {vs : List View} {i : ℕ} {v v' : View}
    (h : DistinctHosts cp w vs) (hvi : vs[i]? = some v) {n : String}
    (hmachines : w'.machines = Function.update w.machines n none) (halloc : w'.alloc = w.alloc)
    (hv : v'.seen = v.seen ∧ v'.host = v.host) : DistinctHosts cp w' (vs.set i v') := by
  have hsub : ∀ n' x, w'.machines n' = some x → w.machines n' = some x := by
    intro n' x hx
    rw [hmachines] at hx
    by_cases hn : n' = n
    · rw [hn, Function.update_self] at hx
      cases hx
    · rwa [Function.update_of_ne hn] at hx
  refine h.same hvi (fun n' x hx => h.stored n' x (hsub n' x hx)) halloc
    (fun m hm => ⟨m, ?_, rfl, rfl, rfl⟩) (fun hne => hv.2 ▸ hne) (fun z hz => hv.2 ▸ hz)
  rcases hm with hm | hm
  · exact Or.inl (hsub _ _ hm)
  · rcases mem_seen_set hm with hm | hm
    · exact Or.inr ⟨v, List.mem_of_getElem? hvi, hv.1 ▸ hm⟩
    · exact Or.inr hm

/-- Reading a record. -/
theorem DistinctHosts.read {w : World} {vs : List View} {i : ℕ} {v : View}
    (h : DistinctHosts cp w vs) (hw : Named w) (hvi : vs[i]? = some v) (n : String) :
    DistinctHosts cp ((RedisOp.machine n .get).exec w).2
      (vs.set i (v.next (.redis (.machine n .get)) (.ok (w.machines n)))) := by
  have hsame : ((RedisOp.machine n .get).exec w).2.machines = w.machines :=
    Function.update_eq_self n _
  cases hx : w.machines n with
  | none => exact h.frame hvi hsame rfl ⟨rfl, rfl⟩
  | some x =>
    cases x with
    | corrupt text err => exact h.frame hvi hsame rfl ⟨rfl, rfl⟩
    | json m =>
      refine h.same hvi (hsame ▸ h.stored) rfl (fun y hy => ⟨y, ?_, rfl, rfl, rfl⟩) id
        (fun _ => id)
      rcases hy with hy | hy
      · exact Or.inl (hsame ▸ hy)
      · rcases mem_seen_set hy with hy | hy
        · rcases List.mem_cons.mp hy with rfl | hy
          · exact Or.inl (by rw [hw n _ hx]; exact hx)
          · exact Or.inr ⟨v, List.mem_of_getElem? hvi, hy⟩
        · exact Or.inr hy

/-- **Every admitted step keeps the hosts distinct.** -/
theorem distinctHosts_checks : Checks cp GivesBackTop (DistinctHosts cp) where
  enrolls _ _ h := h
  start σ call _ h := by
    refine h.mono h.stored (fun u hu hne => ?_) h.counter (fun _ hk => hk)
      (fun m hm => ⟨m, ?_, rfl, rfl, rfl⟩) (fun j u z hj hz => ?_)
    · rcases List.mem_append.mp hu with hu | hu
      · exact h.seeded u hu hne
      · rw [List.mem_singleton.mp hu] at hne
        exact absurd rfl hne
    · rcases hm with hm | ⟨u, hu, hm⟩
      · exact Or.inl hm
      · rcases List.mem_append.mp hu with hu | hu
        · exact Or.inr ⟨u, hu, hm⟩
        · rw [List.mem_singleton.mp hu] at hm
          cases hm
    · rcases getElem?_concat_cases hj with hj | ⟨-, rfl⟩
      · exact ⟨u, hj, hz⟩
      · cases hz
  outside token _ hstore hvi h := h.frame hvi hstore.machines hstore.alloc ⟨rfl, rfl⟩
  redis σ i ch t op hallowed _ hi hpend hmove hnamed h := by
    have hvi : (views σ)[i]? = some (view t) := Protocol.getElem?_states (P := moves cp) hi
    cases hmove with
    | outside h => exact absurd rfl (h op)
    | readMachine => exact h.read hnamed hvi _
    | seed => exact h.seed hvi rfl (by simp [RedisOp.exec]) ⟨rfl, rfl⟩
    | takeIndex hseeded =>
      obtain ⟨k, hk⟩ := Option.ne_none_iff_exists'.mp
        (h.seeded (view t) (List.mem_of_getElem? hvi) (by rw [hseeded]; simp))
      refine h.take hvi hk rfl (by simp [RedisOp.exec, hk]) ⟨rfl, ?_⟩
      change HostPhase.pending (σ.world.alloc.getD 0 + 1) = _
      rw [hk]
      rfl
    | @claim z m hhost htwo hips _ _ =>
      cases hx : σ.world.machines m.name with
      | none =>
        rw [exec_claim hx]
        exact h.claim hvi hhost ⟨htwo, hips⟩ rfl rfl ⟨rfl, rfl⟩
      | some x =>
        have hnext : ((view t).next (.redis (.machine m.name (.setNx (.json m)))) (.ok false)) =
            { view t with host := .lost z } := by
          simp [View.next, hhost]
        rw [exec_claim_of_some hx, hnext]
        refine h.same hvi h.stored rfl (fun y hy => ⟨y, ?_, rfl, rfl, rfl⟩)
          (fun _ => by rw [hhost]; simp) (fun y hy => by rw [hhost]; exact hy)
        rcases hy with hy | hy
        · exact Or.inl hy
        · rcases mem_seen_set hy with hy | hy
          · exact Or.inr ⟨view t, List.mem_of_getElem? hvi, hy⟩
          · exact Or.inr hy
    | @giveBack z hlost =>
      have hk : σ.world.alloc = some z := by
        rw [hallowed t hi hpend, hlost]
        rfl
      exact h.giveBack hvi hk hlost rfl (by simp [RedisOp.exec, hk]) ⟨rfl, rfl⟩
    | @rotate m key hknown _ =>
      exact h.write hvi m { m with wgPublicKey := key } (mem_seen_of_known hknown)
        ⟨rfl, rfl, rfl⟩ rfl rfl ⟨rfl, rfl⟩
    | @attach m token hsource _ _ =>
      refine h.write hvi m { m with deviceTokenHash := some (cp.tokenHash token) } ?_
        ⟨rfl, rfl, rfl⟩ rfl rfl ⟨rfl, rfl⟩
      rcases hsource with ⟨-, hknown, -⟩ | ⟨-, hseen⟩
      · exact mem_seen_of_known hknown
      · exact hseen
    | @drop n _ => exact h.drop (n := n) hvi (by simp [RedisOp.exec]) rfl ⟨rfl, rfl⟩
    | _ => exact h.frame hvi rfl rfl (next_seen_host _ (by simp) (by simp) _)

/-! ## Addresses in reachable states -/

/-- Machines with different names have different addresses, and none has an address of
host 0 or of host 1, the edge itself. -/
def AddressesDistinct (cp : ControlPlane) (w : World) : Prop :=
  (∀ n n' m m', n ≠ n' → w.machines n = some (.json m) → w.machines n' = some (.json m') →
    m.ipv6 ≠ m'.ipv6 ∧ m.wgIp ≠ m'.wgIp) ∧
  ∀ n x, w.machines n = some x → ∃ m, x = .json m ∧ ∀ i < 2,
    cp.subnet.hostString i ≠ some m.ipv6 ∧ cp.wgSubnet.hostString i ≠ some m.wgIp

theorem DistinctHosts.addressesDistinct {w : World} {vs : List View} (hw : Named w)
    (h : DistinctHosts cp w vs) : AddressesDistinct cp w := by
  have hholds : ∀ n m, w.machines n = some (.json m) → Holds w vs m := by
    intro n m hm
    rw [Holds, hw n m hm]
    exact Or.inl hm
  refine ⟨fun n n' m m' hne hm hm' => ?_, fun n x hx => ?_⟩
  · obtain ⟨i, -, hi, -⟩ := h.held m (hholds n m hm)
    obtain ⟨j, -, hj, -⟩ := h.held m' (hholds n' m' hm')
    have hij : i ≠ j := by
      rintro rfl
      have hname := h.unique m m' i (hholds n m hm) (hholds n' m' hm') hi hj
      rw [hw n m hm, hw n' m' hm'] at hname
      exact hne hname
    exact ⟨fun he => hij (hi.eq_left hj he), fun he => hij (hi.eq_right hj he)⟩
  · obtain ⟨m, rfl⟩ := h.stored n x hx
    obtain ⟨i, -, ⟨htwo, hips⟩, -⟩ := h.held m (hholds n m hx)
    obtain ⟨hipv6, hwgIp⟩ := hostStrings_eq_some.mp hips
    refine ⟨m, rfl, fun j hj => ⟨fun he => ?_, fun he => ?_⟩⟩
    · have := cp.subnet.hostString_injective hipv6 he
      omega
    · have := cp.wgSubnet.hostString_injective hwgIp he
      omega

/-- Two allocations of one name and one of another: the first call takes index 2 and loses
its name to the second, which took index 3; it lowers the counter to 2, and the third call
takes index 3 again. -/
def lostRace : List Tick :=
  [.start (.allocate none "kitchen" keyA), .step 0 {}, .step 0 {}, .step 0 {},
    .start (.allocate none "kitchen" keyB), .step 1 {}, .step 1 {}, .step 1 {}, .step 1 {},
    .step 0 {}, .step 0 {},
    .start (.allocate none "garage" keyC), .step 2 {}, .step 2 {}, .step 2 {}, .step 2 {}]

/-- After the lost race two machines have the same addresses. -/
theorem sharedAddress :
    ¬AddressesDistinct sample (Server.run sample ⟨World.empty, []⟩ lostRace).world := by
  intro h
  have hkitchen : (Server.run sample ⟨World.empty, []⟩ lostRace).world.machines "kitchen" =
      some (.json ⟨"kitchen", none, "kitchen.example.net", "2a01:4f8:c17:1::3", "10.10.0.3",
        keyB, none⟩) := by decide
  have hgarage : (Server.run sample ⟨World.empty, []⟩ lostRace).world.machines "garage" =
      some (.json ⟨"garage", none, "garage.example.net", "2a01:4f8:c17:1::3", "10.10.0.3",
        keyC, none⟩) := by decide
  exact (h.1 _ _ _ _ (by decide) hkitchen hgarage).1 rfl

/-- **Addresses stay distinct** in every schedule, from a store without machines, in which an
index is given back only while it is the counter's value. -/
theorem addresses_distinct {w : World} (hmachines : ∀ n, w.machines n = none)
    (halloc : w.alloc = none) {ticks : List Tick}
    (hadm : Server.Admissible cp GivesBackTop ⟨w, []⟩ ticks) :
    AddressesDistinct cp (Server.run cp ⟨w, []⟩ ticks).world := by
  have hnamed : Named w := fun n m hm => by rw [hmachines n] at hm; cases hm
  have hinit : DistinctHosts cp w [] := by
    refine ⟨?_, ?_, ?_, ?_, ?_, ?_, ?_, ?_⟩
    · intro n x hx
      rw [hmachines n] at hx
      cases hx
    · intro v hv
      cases hv
    · intro k hk
      rw [halloc] at hk
      cases hk
    · rintro m (hm | ⟨v, hv, -⟩)
      · rw [hmachines] at hm
        cases hm
      · cases hv
    · rintro m m' i (hm | ⟨v, hv, -⟩)
      · rw [hmachines] at hm
        cases hm
      · cases hv
    · intro j v i hj
      cases hj
    · intro j j' v v' i hj
      cases hj
    · intro j v i m hj
      cases hj
  obtain ⟨-, hnamed', hI⟩ := distinctHosts_checks.run hnamed hinit hadm
  exact hI.addressesDistinct hnamed'

/-- Two allocations of one name, the later index losing, and one of another name. -/
theorem addresses_distinct_wonRace :
    let ticks : List Tick :=
      [.start (.allocate none "kitchen" keyA), .step 0 {}, .step 0 {}, .step 0 {},
        .start (.allocate none "kitchen" keyB), .step 1 {}, .step 1 {}, .step 1 {}, .step 0 {},
        .step 1 {}, .step 1 {},
        .start (.allocate none "garage" keyC), .step 2 {}, .step 2 {}, .step 2 {}, .step 2 {}]
    AddressesDistinct sample (Server.run sample ⟨World.empty, []⟩ ticks).world :=
  addresses_distinct (fun _ => rfl) rfl (by decide)

end ControlPlane
end Cococoir
