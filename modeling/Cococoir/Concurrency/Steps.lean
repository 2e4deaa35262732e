import Mathlib.Data.List.Basic

/-!
# Runs of guarded steps

A system that takes one event at a time: `step s e` is the state after `e`, and `none` where the event
cannot happen in `s`.  A run is a list of events that can happen one after the other.

* `runs`: the state after a run.
* `runs_invariant`, `runs_relation`: what every step keeps, every run keeps.
* `Along`, `runs_invariant_along`: the same where each event must meet a condition.
* `runs_split`: a run is divided at any of its events.
* `runs_map`, `along_map`: the runs of a system that simulates another.
* `exists_change`: what a run brought about, one of its events brought about.
* `countP_set_of_some`: how many parties have a property, after one of them went on.
* `eq_of_countP_le_one`: the one party that has a property.

## Two kinds of conditions

A system that is only partly specified, or only partly right, keeps an invariant as long as its
environment behaves.  `Along` is that: a condition on each event and the state it happens in,
along the run.  It is a hypothesis about every moment before the one that is spoken of, and about
none after, so results that use it can be joined at any point (`along_append`, `runs_split`).

A party is an element of a list, and a party's move replaces one element.  Many invariants count
the parties that have some property; `countP_set_of_some` says how the number changes when one of
them moves, by at most one.
-/

namespace Cococoir
namespace Concurrency

variable {S E : Type} (step : S → E → Option S)

/-- The state after a run, if its events can happen in this order. -/
def runs : S → List E → Option S
  | s, [] => some s
  | s, e :: es => (step s e).bind fun s' => runs s' es

variable {step} {s s' : S} {e : E} {es es' : List E}

@[simp] theorem runs_nil : runs step s [] = some s := rfl

theorem runs_cons : runs step s (e :: es) = some s' ↔ ∃ s₁, step s e = some s₁ ∧ runs step s₁ es = some s' :=
  Option.bind_eq_some_iff

theorem runs_append : runs step s (es ++ es') = some s' ↔
    ∃ s₁, runs step s es = some s₁ ∧ runs step s₁ es' = some s' := by
  induction es generalizing s with
  | nil => exact ⟨fun h => ⟨s, rfl, h⟩, fun ⟨_, h, h'⟩ => by cases h; exact h'⟩
  | cons e es ih =>
    rw [List.cons_append, runs_cons]
    constructor
    · rintro ⟨s₁, hstep, h⟩
      obtain ⟨s₂, h₁, h₂⟩ := ih.mp h
      exact ⟨s₂, runs_cons.mpr ⟨s₁, hstep, h₁⟩, h₂⟩
    · rintro ⟨s₂, h, h₂⟩
      obtain ⟨s₁, hstep, h₁⟩ := runs_cons.mp h
      exact ⟨s₁, hstep, ih.mpr ⟨s₂, h₁, h₂⟩⟩

/-- **Runs are divided** at any of their events. -/
theorem runs_split : runs step s (es ++ e :: es') = some s' ↔
    ∃ s₁ s₂, runs step s es = some s₁ ∧ step s₁ e = some s₂ ∧ runs step s₂ es' = some s' := by
  rw [runs_append]
  constructor
  · rintro ⟨s₁, h, h'⟩
    obtain ⟨s₂, hstep, h'⟩ := runs_cons.mp h'
    exact ⟨s₁, s₂, h, hstep, h'⟩
  · rintro ⟨s₁, s₂, h, hstep, h'⟩
    exact ⟨s₁, h, runs_cons.mpr ⟨s₂, hstep, h'⟩⟩

/-- **Simulation.**  A system that takes the steps of another through a map has the other's runs. -/
theorem runs_map {T : Type} {step' : T → E → Option T} (f : T → S)
    (hstep : ∀ t e, step (f t) e = (step' t e).map f) {t : T} :
    runs step (f t) es = (runs step' t es).map f := by
  induction es generalizing t with
  | nil => rfl
  | cons e es ih =>
    rw [runs, runs, hstep]
    cases step' t e with
    | none => rfl
    | some t' => exact ih

/-- **The invariant rule.**  What every step keeps, every run keeps. -/
theorem runs_invariant (Inv : S → Prop)
    (hstep : ∀ s e s', Inv s → step s e = some s' → Inv s') (hs : Inv s)
    (h : runs step s es = some s') : Inv s' := by
  induction es generalizing s with
  | nil => exact Option.some.inj h ▸ hs
  | cons e es ih =>
    obtain ⟨s₁, he, h⟩ := runs_cons.mp h
    exact ih (hstep s e s₁ hs he) h

/-- Each event of a run meets a condition in the state where it happens. -/
def Along (step : S → E → Option S) (ok : S → E → Prop) : S → List E → Prop
  | _, [] => True
  | s, e :: es => ok s e ∧ ∀ s', step s e = some s' → Along step ok s' es

theorem along_of_forall {ok : S → E → Prop} (h : ∀ e ∈ es, ∀ s, ok s e) : Along step ok s es := by
  induction es generalizing s with
  | nil => trivial
  | cons e es ih =>
    have hes : ∀ e ∈ es, ∀ s, ok s e := fun e' he' => h e' (List.mem_cons_of_mem _ he')
    exact ⟨h e List.mem_cons_self s, fun s' _ => ih hes⟩

/-- Whether a run meets a condition is computed by taking its steps. -/
instance decidableAlong {ok : S → E → Prop} [∀ s e, Decidable (ok s e)] :
    ∀ s es, Decidable (Along step ok s es)
  | _, [] => isTrue trivial
  | s, e :: es =>
    match h : step s e with
    | none => decidable_of_iff (ok s e) (by simp [Along, h])
    | some s' =>
      have : Decidable (Along step ok s' es) := decidableAlong s' es
      decidable_of_iff (ok s e ∧ Along step ok s' es) (by simp [Along, h])

/-- A condition along a run of the other system is one along the run it has. -/
theorem along_map {T : Type} {step' : T → E → Option T} {ok : S → E → Prop} (f : T → S)
    (hstep : ∀ t e, step (f t) e = (step' t e).map f) {t : T} :
    Along step ok (f t) es ↔ Along step' (fun t e => ok (f t) e) t es := by
  induction es generalizing t with
  | nil => exact Iff.rfl
  | cons e es ih =>
    rw [Along, Along, hstep]
    refine and_congr_right fun _ => ?_
    cases step' t e with
    | none => exact ⟨fun _ => nofun, fun _ => nofun⟩
    | some t' => simp [ih]

theorem along_append {ok : S → E → Prop} (h : runs step s es = some s') :
    Along step ok s (es ++ es') ↔ Along step ok s es ∧ Along step ok s' es' := by
  induction es generalizing s with
  | nil =>
    cases h
    simp [Along]
  | cons e es ih =>
    obtain ⟨s₁, he, h⟩ := runs_cons.mp h
    simp [Along, he, ih h, and_assoc]

/-- Two conditions that a run meets it meets together. -/
theorem Along.and {ok ok' : S → E → Prop} (h : Along step ok s es) (h' : Along step ok' s es) :
    Along step (fun s e => ok s e ∧ ok' s e) s es := by
  induction es generalizing s with
  | nil => trivial
  | cons e es ih => exact ⟨⟨h.1, h'.1⟩, fun s' hs' => ih (h.2 s' hs') (h'.2 s' hs')⟩

theorem Along.mono {ok ok' : S → E → Prop} (h : Along step ok s es) (hok : ∀ s e, ok s e → ok' s e) :
    Along step ok' s es := by
  induction es generalizing s with
  | nil => trivial
  | cons e es ih => exact ⟨hok s e h.1, fun s' hs' => ih (h.2 s' hs')⟩

/-- The invariant rule along a condition. -/
theorem runs_invariant_along (Inv : S → Prop) {ok : S → E → Prop}
    (hstep : ∀ s e s', Inv s → ok s e → step s e = some s' → Inv s') (hs : Inv s)
    (hok : Along step ok s es) (h : runs step s es = some s') : Inv s' := by
  induction es generalizing s with
  | nil => exact Option.some.inj h ▸ hs
  | cons e es ih =>
    obtain ⟨s₁, he, h⟩ := runs_cons.mp h
    exact ih (hstep s e s₁ hs hok.1 he) (hok.2 s₁ he) h

/-- The same rule for what relates a state to one before it. -/
theorem runs_relation (rel : S → S → Prop) (refl : ∀ s, rel s s)
    (trans : ∀ {s t u}, rel s t → rel t u → rel s u)
    (hstep : ∀ s e s', step s e = some s' → rel s s') (h : runs step s es = some s') : rel s s' :=
  runs_invariant (rel s) (fun _ _ _ hs he => trans hs (hstep _ _ _ he)) (refl s) h

/-- **What a run brought about**, one of its events brought about. -/
theorem exists_change {Q : S → Prop} (h : runs step s es = some s') (hbefore : ¬Q s) (hafter : Q s') :
    ∃ before e after s₁ s₂, es = before ++ e :: after ∧ runs step s before = some s₁ ∧
      step s₁ e = some s₂ ∧ runs step s₂ after = some s' ∧ ¬Q s₁ ∧ Q s₂ := by
  induction es generalizing s with
  | nil =>
    cases h
    exact absurd hafter hbefore
  | cons e es ih =>
    obtain ⟨t, he, h⟩ := runs_cons.mp h
    by_cases ht : Q t
    · exact ⟨[], e, es, s, t, rfl, rfl, he, h, hbefore, ht⟩
    · obtain ⟨before, e', after, s₁, s₂, rfl, h₁, he', h₂, hQ, hQ'⟩ := ih h ht
      exact ⟨e :: before, e', after, s₁, s₂, rfl, runs_cons.mpr ⟨t, he, h₁⟩, he', h₂, hQ, hQ'⟩

/-! ## A list of parties -/

variable {P : Type} {parties : List P} {i j : ℕ} {x y : P}

theorem getElem?_set_of_some (hi : parties[i]? = some x) :
    (parties.set i y)[j]? = if j = i then some y else parties[j]? := by
  obtain ⟨hlt, -⟩ := List.getElem?_eq_some_iff.mp hi
  rw [List.getElem?_set]
  by_cases hj : i = j
  · rw [if_pos hj, if_pos hlt, if_pos hj.symm]
  · rw [if_neg hj, if_neg (Ne.symm hj)]

theorem getElem?_concat_cases (h : (parties ++ [x])[i]? = some y) :
    parties[i]? = some y ∨ i = parties.length ∧ y = x := by
  by_cases hlt : i < parties.length
  · exact .inl ((List.getElem?_append_left hlt).symm.trans h)
  · rw [List.getElem?_append_right (Nat.le_of_not_lt hlt), List.getElem?_singleton] at h
    split_ifs at h with hi
    exact .inr ⟨by omega, (Option.some.inj h).symm⟩

theorem countP_set_of_some (p : P → Bool) (hi : parties[i]? = some x) :
    (parties.set i y).countP p + (if p x then 1 else 0) = parties.countP p + if p y then 1 else 0 := by
  obtain ⟨hlt, hget⟩ := List.getElem?_eq_some_iff.mp hi
  have hpos (hx : p x = true) : 0 < parties.countP p :=
    List.countP_pos_iff.mpr ⟨x, List.mem_of_getElem? hi, hx⟩
  rw [List.countP_set hlt, hget]
  split_ifs with hx hy hy
  · have := hpos hx
    omega
  · have := hpos hx
    omega
  · omega
  · omega

/-- Where at most one party has a property, two that have it are one. -/
theorem eq_of_countP_le_one {p : P → Bool} (hle : parties.countP p ≤ 1) (hi : parties[i]? = some x)
    (hx : p x = true) (hj : parties[j]? = some y) (hy : p y = true) : i = j := by
  induction parties generalizing i j with
  | nil => cases hi
  | cons z parties ih =>
    rw [List.countP_cons] at hle
    have hrest {k : ℕ} {w : P} (hk : parties[k]? = some w) (hw : p w = true) :
        0 < parties.countP p := List.countP_pos_iff.mpr ⟨w, List.mem_of_getElem? hk, hw⟩
    cases i with
    | zero =>
      cases hi
      cases j with
      | zero => rfl
      | succ j =>
        have := hrest hj hy
        rw [if_pos hx] at hle
        omega
    | succ i =>
      have := hrest hi hx
      cases j with
      | zero =>
        cases hj
        rw [if_pos hy] at hle
        omega
      | succ j => rw [ih (by omega) hi hj]

end Concurrency
end Cococoir
