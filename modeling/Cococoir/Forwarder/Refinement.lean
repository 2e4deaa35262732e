import Cococoir.Forwarder.Live

/-!
# The live forwarder as a map

The forwarder's callers see a map from listen address to destination; its state is spread over
three tables that are written one after the other, and a serve task may end without touching any.

* `acceptFailed`: a forward was added and nobody removed it, its row is bound, and no task runs.
* `forwards_refined`: in every schedule in which no accept of a live task fails, an add that finds
  its key finds its destination, a handle is registered only where there is none, and a row is
  dropped or marked unbound only while the key is not served, the state is that of a map.

## The invariant

Every running task is answered for: by the handle under its key, or by exactly one call, which has
spawned it and not registered it, or has taken its handle and not yet aborted it (`Owned`).  A key
has a bound row exactly when it is served, or a call is between the two (`Rowed`).  Both are
stated with the views of the calls, which say how far each has come; the views are the states of a
protocol, and `conforms_body` checks the programs against it once.

Two adds of one key race in between their look-up and their registration, and the later one
replaces a handle whose task then runs on with nobody to abort it.  Two removals race for a row.
The conditions are on these commands.
-/

namespace Cococoir
namespace Forwarder

open Concurrency

/-! ## What a call has done -/

/-- How far a call has come. -/
inductive Phase : Type where
  | start
  /-- The key had a handle. -/
  | found
  /-- The key had no handle. -/
  | free
  | bound (localAddr : String)
  | unbound (err : BindError)
  | recorded (localAddr : String)
  | spawned (task : ℕ)
  | added
  | failed
  /-- There was no handle to take. -/
  | absent
  | taken (task : ℕ)
  | aborted
  | removed
  /-- The environment has made its move. -/
  | ended
  deriving DecidableEq

/-- The phase after a response. -/
def Phase.next : (c : Cmd) → c.Resp → Phase
  | .abortHandlePeek _, isThere => if isThere then .found else .free
  | .bind _, .ok localAddr => .bound localAddr
  | .bind _, .error err => .unbound err
  | .recordBound _ localAddr, _ => .recorded localAddr
  | .recordBindError _ _, _ => .failed
  | .spawn _ _, task => .spawned task
  | .insertHandle _ _, _ => .added
  | .takeHandle _, none => .absent
  | .takeHandle _, some task => .taken task
  | .abort _, _ => .aborted
  | .removeStat _, _ => .removed
  | .acceptFails _, _ => .ended

/-- A call and how far it has come. -/
structure View where
  call : Call
  phase : Phase
  deriving DecidableEq

/-- The command that a call issues next. -/
inductive Permits : View → Cmd → Prop
  | peek {f : Forward} : Permits ⟨.add f, .start⟩ (.abortHandlePeek (forwardKey f))
  | bind {f : Forward} : Permits ⟨.add f, .free⟩ (.bind f)
  | recordBindError {f : Forward} {e : BindError} :
    Permits ⟨.add f, .unbound e⟩ (.recordBindError f e)
  | recordBound {f : Forward} {a : String} : Permits ⟨.add f, .bound a⟩ (.recordBound f a)
  | spawn {f : Forward} {a : String} : Permits ⟨.add f, .recorded a⟩ (.spawn f a)
  | insertHandle {f : Forward} {task : ℕ} :
    Permits ⟨.add f, .spawned task⟩ (.insertHandle (forwardKey f) task)
  | takeHandle {f : Forward} : Permits ⟨.remove f, .start⟩ (.takeHandle (forwardKey f))
  | abort {f : Forward} {task : ℕ} : Permits ⟨.remove f, .taken task⟩ (.abort task)
  | removeStat {f : Forward} : Permits ⟨.remove f, .aborted⟩ (.removeStat (forwardKey f))
  | acceptFails {task : ℕ} : Permits ⟨.acceptFails task, .start⟩ (.acceptFails task)

/-- The views of the calls of a forwarder. -/
def phases : Protocol Call Cmd Cmd.Resp View where
  init call := ⟨call, .start⟩
  next v c r := ⟨v.call, Phase.next c r⟩
  ok := Permits
  resp _ _ := True

/-- Where a call is when it returns. -/
def Ends (v : View) (o : Outcome RunError Reply) : Prop :=
  match v.call with
  | .add _ => (v.phase = .found ∨ v.phase = .added) ∧ o = .ok .unit ∨
      v.phase = .failed ∧ ∃ e, o = .err e
  | .remove _ => v.phase = .absent ∧ o = .ok (.existed false) ∨
      v.phase = .removed ∧ o = .ok (.existed true)
  | .acceptFails _ => v.phase = .ended

/-- **The programs go through the phases.** -/
theorem conforms_body (call : Call) : phases.Conforms Ends (body call) (phases.init call) := by
  cases call with
  | add f =>
    refine ⟨.peek, fun isThere _ => ?_⟩
    cases isThere with
    | true => exact Or.inl ⟨Or.inl rfl, rfl⟩
    | false =>
      refine ⟨.bind, fun r _ => ?_⟩
      cases r with
      | error e => exact ⟨.recordBindError, fun _ _ => Or.inr ⟨rfl, _, rfl⟩⟩
      | ok a =>
        exact ⟨.recordBound, fun _ _ => ⟨.spawn, fun task _ => ⟨.insertHandle, fun _ _ =>
          Or.inl ⟨Or.inr rfl, rfl⟩⟩⟩⟩
  | remove f =>
    refine ⟨.takeHandle, fun r _ => ?_⟩
    cases r with
    | none => exact Or.inl ⟨rfl, rfl⟩
    | some task => exact ⟨.abort, fun _ _ => ⟨.removeStat, fun _ _ => Or.inr ⟨rfl, rfl⟩⟩⟩
  | acceptFails task => exact ⟨.acceptFails, fun _ _ => rfl⟩

/-! ## What is asked of a schedule -/

/-- The key that a call is about. -/
def Call.key : Call → Option String
  | .add f => some (forwardKey f)
  | .remove f => some (forwardKey f)
  | .acceptFails _ => none

/-- The task that a call alone has the handle of. -/
def Phase.holds : Phase → Option ℕ
  | .spawned task => some task
  | .taken task => some task
  | _ => none

/-- The call has recorded its forward as bound and not yet registered it. -/
def View.claims (v : View) (key : String) : Bool :=
  v.call.key = some key && match v.phase with
    | .recorded _ => true
    | .spawned _ => true
    | _ => false

/-- The call has taken the key's handle and not yet dropped its row. -/
def View.unwires (v : View) (key : String) : Bool :=
  v.call.key = some key && match v.phase with
    | .taken _ => true
    | .aborted => true
    | _ => false

/-- The calls' views, oldest first. -/
def views (σ : Process) : List View := phases.states σ.pool

/-- Nobody serves the key: it has no handle and no call is about to register one. -/
def unserved (σ : State) (vs : List View) (key : String) : Bool :=
  (σ.handles key).isNone && vs.all (!·.claims key)

/-- What is asked of one command of a call. -/
def forwardStep (σ : State) (vs : List View) : Call → Cmd → Bool
  | .add f, .abortHandlePeek key =>
    (σ.handles key).all fun task => (σ.tasks task).any fun t => decide (t.fwd.destAddr = f.destAddr)
  | _, .recordBindError f _ => unserved σ vs (forwardKey f)
  | _, .insertHandle key _ => (σ.handles key).isNone
  | _, .removeStat key => unserved σ vs key
  | _, .acceptFails task => (σ.tasks task).isNone || vs.any fun v => decide (v.phase = .taken task)
  | _, _ => true

/-- A schedule's next event meets `forwardStep`. -/
def KeepsForwards (σ : Process) : Tick → Prop
  | .start _ => True
  | .step i _ => ∀ t ∈ σ.pool[i]?, ∀ c ∈ t.pending, forwardStep σ.world (views σ) t.call c

instance : ∀ σ e, Decidable (KeepsForwards σ e)
  | _, .start _ => isTrue trivial
  | σ, .step i _ => inferInstanceAs (Decidable (∀ t ∈ σ.pool[i]?, ∀ c ∈ t.pending,
      forwardStep σ.world (views σ) t.call c = true))

/-! ## The invariant -/

/-- Every running task is one that a handle or exactly one call answers for. -/
structure Owned (σ : State) (vs : List View) : Prop where
  fresh : ∀ n, σ.spawned ≤ n → σ.tasks n = none
  young : ∀ v ∈ vs, ∀ n, v.phase.holds = some n → n < σ.spawned
  held : ∀ k n, σ.handles k = some n → ∃ t, σ.tasks n = some t ∧ forwardKey t.fwd = k
  spawning : ∀ f n, ⟨.add f, .spawned n⟩ ∈ vs → ∃ t, σ.tasks n = some t ∧ t.fwd = f
  owned : ∀ n t, σ.tasks n = some t → σ.handles (forwardKey t.fwd) = some n ∨
    ∃ v ∈ vs, v.phase.holds = some n ∧ v.call.key = some (forwardKey t.fwd)
  apart : ∀ k n, σ.handles k = some n → ∀ v ∈ vs, v.phase.holds ≠ some n
  alone : ∀ (i j : ℕ) (v u : View) (n : ℕ), vs[i]? = some v → vs[j]? = some u →
    v.phase.holds = some n → u.phase.holds = some n → i = j

/-- A key has a bound row exactly when it is served or a call is in the middle of changing
that. -/
structure Rowed (σ : State) (vs : List View) : Prop where
  bound : ∀ k, (σ.handles k ≠ none ∨ ∃ v ∈ vs, v.claims k) →
    ∃ row, σ.forwards k = some row ∧ row.bound
  wired : ∀ k row, σ.forwards k = some row → row.bound →
    σ.handles k ≠ none ∨ ∃ v ∈ vs, v.claims k ∨ v.unwires k

section Keep

variable {σ σ' : State} {vs : List View} {i : ℕ} {v v' : View}

/-- A view with a task of its own is there still, if it is not the one that is replaced. -/
theorem mem_of_holds {u : View} {n : ℕ} (hu : u ∈ vs.set i v') (hholds : u.phase.holds = some n)
    (hv' : v'.phase.holds = none) : u ∈ vs := by
  rcases List.mem_or_eq_of_mem_set hu with hu | rfl
  · exact hu
  · rw [hv'] at hholds
    cases hholds

/-- A step of a call that has no task of its own before or after, and that leaves the tasks and
the handles. -/
theorem Owned.frame (h : Owned σ vs) (hvi : vs[i]? = some v) (hv : v.phase.holds = none)
    (hv' : v'.phase.holds = none) (htasks : σ'.tasks = σ.tasks) (hhandles : σ'.handles = σ.handles)
    (hspawned : σ'.spawned = σ.spawned) : Owned σ' (vs.set i v') := by
  refine ⟨?_, ?_, ?_, ?_, ?_, ?_, ?_⟩
  · rw [htasks, hspawned]
    exact h.fresh
  · intro u hu n hn
    rw [hspawned]
    exact h.young u (mem_of_holds hu hn hv') n hn
  · rw [htasks, hhandles]
    exact h.held
  · intro f n hmem
    rw [htasks]
    exact h.spawning f n (mem_of_holds hmem rfl hv')
  · intro n t ht
    rw [htasks] at ht
    rw [hhandles]
    rcases h.owned n t ht with hown | ⟨u, hu, hn, hkey⟩
    · exact Or.inl hown
    · refine Or.inr ⟨u, mem_set_of_ne hvi hu ?_, hn, hkey⟩
      rintro rfl
      rw [hv] at hn
      cases hn
  · intro k n hk u hu hn
    rw [hhandles] at hk
    exact h.apart k n hk u (mem_of_holds hu hn hv') hn
  · intro j j' u u' n hj hj' hn hn'
    rcases getElem?_set_cases hj with ⟨-, rfl⟩ | ⟨-, hj⟩
    · rw [hv'] at hn
      cases hn
    rcases getElem?_set_cases hj' with ⟨-, rfl⟩ | ⟨-, hj'⟩
    · rw [hv'] at hn'
      cases hn'
    exact h.alone j j' u u' n hj hj' hn hn'

/-- The task of one call is not the task of another. -/
theorem Owned.not_holds (h : Owned σ vs) (hvi : vs[i]? = some v) {n : ℕ}
    (hn : v.phase.holds = some n) {u : View} {j : ℕ} (hj : vs[j]? = some u)
    (hu : u.phase.holds = some n) : u = v := by
  obtain rfl := h.alone i j v u n hvi hj hn hu
  rw [hvi] at hj
  exact (Option.some.inj hj).symm

theorem Owned.spawn {f : Forward} {a : String} (h : Owned σ vs)
    (hvi : vs[i]? = some ⟨.add f, .recorded a⟩) :
    Owned { σ with tasks := Function.update σ.tasks σ.spawned (some ⟨f, a⟩),
                   spawned := σ.spawned + 1 } (vs.set i ⟨.add f, .spawned σ.spawned⟩) := by
  have hlt : ∀ n t, σ.tasks n = some t → n < σ.spawned := by
    intro n t ht
    by_contra hge
    rw [h.fresh n (not_lt.mp hge)] at ht
    cases ht
  have htask : ∀ n, n < σ.spawned →
      Function.update σ.tasks σ.spawned (some ⟨f, a⟩) n = σ.tasks n :=
    fun n hn => Function.update_of_ne hn.ne ..
  have hhandle : ∀ k n, σ.handles k = some n → n < σ.spawned := by
    intro k n hk
    obtain ⟨t, ht, -⟩ := h.held k n hk
    exact hlt n t ht
  refine ⟨?_, ?_, ?_, ?_, ?_, ?_, ?_⟩
  · intro n hn
    replace hn : σ.spawned + 1 ≤ n := hn
    show Function.update σ.tasks σ.spawned (some ⟨f, a⟩) n = none
    rw [Function.update_of_ne (by omega)]
    exact h.fresh n (by omega)
  · intro u hu n hn
    show n < σ.spawned + 1
    rcases List.mem_or_eq_of_mem_set hu with hu | rfl
    · exact (h.young u hu n hn).trans (lt_add_one _)
    · cases hn
      exact lt_add_one _
  · intro k n hk
    obtain ⟨t, ht, hkey⟩ := h.held k n hk
    exact ⟨t, (htask n (hhandle k n hk)).trans ht, hkey⟩
  · intro g n hmem
    rcases List.mem_or_eq_of_mem_set hmem with hmem | heq
    · obtain ⟨t, ht, hfwd⟩ := h.spawning g n hmem
      exact ⟨t, (htask n (hlt n t ht)).trans ht, hfwd⟩
    · cases heq
      exact ⟨⟨f, a⟩, Function.update_self .., rfl⟩
  · intro n t ht
    replace ht : Function.update σ.tasks σ.spawned (some ⟨f, a⟩) n = some t := ht
    by_cases hn : n = σ.spawned
    · subst hn
      rw [Function.update_self] at ht
      cases ht
      exact Or.inr ⟨_, List.mem_of_getElem? (List.getElem?_set_self
        (List.getElem?_eq_some_iff.mp hvi).1), rfl, rfl⟩
    · rw [Function.update_of_ne hn] at ht
      rcases h.owned n t ht with hown | ⟨u, hu, hun, hkey⟩
      · exact Or.inl hown
      · refine Or.inr ⟨u, mem_set_of_ne hvi hu ?_, hun, hkey⟩
        rintro rfl
        cases hun
  · intro k n hk u hu hn
    rcases List.mem_or_eq_of_mem_set hu with hu | rfl
    · exact h.apart k n hk u hu hn
    · cases hn
      exact absurd (hhandle k _ hk) (lt_irrefl _)
  · intro j j' u u' n hj hj' hn hn'
    rcases getElem?_set_cases hj with ⟨rfl, rfl⟩ | ⟨-, hj⟩
    · rcases getElem?_set_cases hj' with ⟨rfl, -⟩ | ⟨-, hj'⟩
      · rfl
      · cases hn
        exact absurd (h.young u' (List.mem_of_getElem? hj') _ hn') (lt_irrefl _)
    · rcases getElem?_set_cases hj' with ⟨-, rfl⟩ | ⟨-, hj'⟩
      · cases hn'
        exact absurd (h.young u (List.mem_of_getElem? hj) _ hn) (lt_irrefl _)
      · exact h.alone j j' u u' n hj hj' hn hn'

theorem Owned.insertHandle {f : Forward} {n : ℕ} (h : Owned σ vs)
    (hvi : vs[i]? = some ⟨.add f, .spawned n⟩) (hfree : σ.handles (forwardKey f) = none) :
    Owned { σ with handles := Function.update σ.handles (forwardKey f) (some n) }
      (vs.set i ⟨.add f, .added⟩) := by
  have hhandle : ∀ k m, Function.update σ.handles (forwardKey f) (some n) k = some m →
      k = forwardKey f ∧ m = n ∨ σ.handles k = some m := by
    intro k m hk
    by_cases hkey : k = forwardKey f
    · subst hkey
      rw [Function.update_self] at hk
      exact Or.inl ⟨rfl, (Option.some.inj hk).symm⟩
    · rw [Function.update_of_ne hkey] at hk
      exact Or.inr hk
  refine ⟨h.fresh, ?_, ?_, ?_, ?_, ?_, ?_⟩
  · intro u hu m hm
    exact h.young u (mem_of_holds hu hm rfl) m hm
  · intro k m hk
    rcases hhandle k m hk with ⟨rfl, rfl⟩ | hk
    · obtain ⟨t, ht, rfl⟩ := h.spawning f m (List.mem_of_getElem? hvi)
      exact ⟨t, ht, rfl⟩
    · exact h.held k m hk
  · intro g m hmem
    exact h.spawning g m (mem_of_holds hmem rfl rfl)
  · intro m t ht
    rcases h.owned m t ht with hown | ⟨u, hu, hum, hkey⟩
    · have hkey : forwardKey t.fwd ≠ forwardKey f := by
        intro hkey
        rw [hkey, hfree] at hown
        cases hown
      exact Or.inl ((Function.update_of_ne hkey ..).trans hown)
    · by_cases hm : m = n
      · subst hm
        obtain ⟨j, hj⟩ := List.getElem?_of_mem hu
        obtain rfl := h.not_holds hvi rfl hj hum
        have hkey : forwardKey f = forwardKey t.fwd := Option.some.inj hkey
        show Function.update σ.handles (forwardKey f) (some m) (forwardKey t.fwd) = some m ∨ _
        rw [← hkey, Function.update_self]
        exact Or.inl rfl
      · refine Or.inr ⟨u, mem_set_of_ne hvi hu ?_, hum, hkey⟩
        rintro rfl
        exact hm (Option.some.inj hum).symm
  · intro k m hk u hu hm
    have hu' := mem_of_holds hu hm rfl
    rcases hhandle k m hk with ⟨-, rfl⟩ | hk
    · obtain ⟨j, hj⟩ := List.getElem?_of_mem hu
      rcases getElem?_set_cases hj with ⟨-, rfl⟩ | ⟨hne, hj⟩
      · cases hm
      · exact hne (h.alone j i u _ m hj hvi hm rfl)
    · exact h.apart k m hk u hu' hm
  · intro j j' u u' m hj hj' hm hm'
    rcases getElem?_set_cases hj with ⟨-, rfl⟩ | ⟨-, hj⟩
    · cases hm
    rcases getElem?_set_cases hj' with ⟨-, rfl⟩ | ⟨-, hj'⟩
    · cases hm'
    exact h.alone j j' u u' m hj hj' hm hm'

theorem Owned.takeHandle {f : Forward} {n : ℕ} (h : Owned σ vs)
    (hvi : vs[i]? = some ⟨.remove f, .start⟩) (htook : σ.handles (forwardKey f) = some n) :
    Owned { σ with handles := Function.update σ.handles (forwardKey f) none }
      (vs.set i ⟨.remove f, .taken n⟩) := by
  have hhandle : ∀ k m, Function.update σ.handles (forwardKey f) none k = some m →
      k ≠ forwardKey f ∧ σ.handles k = some m := by
    intro k m hk
    have hkey : k ≠ forwardKey f := by
      rintro rfl
      rw [Function.update_self] at hk
      cases hk
    rw [Function.update_of_ne hkey] at hk
    exact ⟨hkey, hk⟩
  obtain ⟨task, htask, hkey⟩ := h.held _ n htook
  refine ⟨h.fresh, ?_, ?_, ?_, ?_, ?_, ?_⟩
  · intro u hu m hm
    rcases List.mem_or_eq_of_mem_set hu with hu | rfl
    · exact h.young u hu m hm
    · cases hm
      by_contra hge
      rw [h.fresh n (not_lt.mp hge)] at htask
      cases htask
  · intro k m hk
    exact h.held k m (hhandle k m hk).2
  · intro g m hmem
    rcases List.mem_or_eq_of_mem_set hmem with hmem | heq
    · exact h.spawning g m hmem
    · cases heq
  · intro m t ht
    by_cases hm : m = n
    · subst hm
      rw [htask] at ht
      cases ht
      exact Or.inr ⟨_, List.mem_of_getElem? (List.getElem?_set_self
        (List.getElem?_eq_some_iff.mp hvi).1), rfl, congrArg some hkey.symm⟩
    · rcases h.owned m t ht with hown | ⟨u, hu, hum, hkey⟩
      · have hkey : forwardKey t.fwd ≠ forwardKey f := by
          intro hkey
          rw [hkey, htook] at hown
          exact hm (Option.some.inj hown).symm
        exact Or.inl ((Function.update_of_ne hkey ..).trans hown)
      · refine Or.inr ⟨u, mem_set_of_ne hvi hu ?_, hum, hkey⟩
        rintro rfl
        cases hum
  · intro k m hk u hu hm
    obtain ⟨hne, hk⟩ := hhandle k m hk
    rcases List.mem_or_eq_of_mem_set hu with hu | rfl
    · exact h.apart k m hk u hu hm
    · cases hm
      obtain ⟨t, ht, hkt⟩ := h.held k n hk
      rw [htask] at ht
      cases ht
      exact hne (hkt.symm.trans hkey)
  · intro j j' u u' m hj hj' hm hm'
    rcases getElem?_set_cases hj with ⟨rfl, rfl⟩ | ⟨-, hj⟩
    · rcases getElem?_set_cases hj' with ⟨rfl, -⟩ | ⟨-, hj'⟩
      · rfl
      · cases hm
        exact absurd hm' (h.apart _ n htook u' (List.mem_of_getElem? hj'))
    · rcases getElem?_set_cases hj' with ⟨-, rfl⟩ | ⟨-, hj'⟩
      · cases hm'
        exact absurd hm (h.apart _ n htook u (List.mem_of_getElem? hj))
      · exact h.alone j j' u u' m hj hj' hm hm'

/-- A task ends that no handle and no add answers for. -/
theorem Owned.endTask (h : Owned σ vs) (hvi : vs[i]? = some v) {n : ℕ}
    (hhandles : ∀ k, σ.handles k ≠ some n) (hspawned : ∀ f, ⟨.add f, .spawned n⟩ ∉ vs)
    (hv : ∀ m, v.phase.holds = some m → m = n) (hv' : v'.phase.holds = none) :
    Owned { σ with tasks := Function.update σ.tasks n none } (vs.set i v') := by
  have htask : ∀ m t, Function.update σ.tasks n none m = some t → m ≠ n ∧ σ.tasks m = some t := by
    intro m t ht
    have hm : m ≠ n := by
      rintro rfl
      rw [Function.update_self] at ht
      cases ht
    rw [Function.update_of_ne hm] at ht
    exact ⟨hm, ht⟩
  refine ⟨?_, ?_, ?_, ?_, ?_, ?_, ?_⟩
  · intro m hm
    show Function.update σ.tasks n none m = none
    by_cases hmn : m = n
    · subst hmn
      exact Function.update_self ..
    · rw [Function.update_of_ne hmn]
      exact h.fresh m hm
  · intro u hu m hm
    exact h.young u (mem_of_holds hu hm hv') m hm
  · intro k m hk
    obtain ⟨t, ht, hkey⟩ := h.held k m hk
    have hm : m ≠ n := by
      rintro rfl
      exact hhandles k hk
    exact ⟨t, (Function.update_of_ne hm ..).trans ht, hkey⟩
  · intro f m hmem
    have hmem' := mem_of_holds hmem rfl hv'
    obtain ⟨t, ht, hfwd⟩ := h.spawning f m hmem'
    have hm : m ≠ n := by
      rintro rfl
      exact hspawned f hmem'
    exact ⟨t, (Function.update_of_ne hm ..).trans ht, hfwd⟩
  · intro m t ht
    obtain ⟨hm, ht⟩ := htask m t ht
    rcases h.owned m t ht with hown | ⟨u, hu, hum, hkey⟩
    · exact Or.inl hown
    · refine Or.inr ⟨u, mem_set_of_ne hvi hu ?_, hum, hkey⟩
      rintro rfl
      exact hm (hv m hum)
  · intro k m hk u hu hm
    exact h.apart k m hk u (mem_of_holds hu hm hv') hm
  · intro j j' u u' m hj hj' hm hm'
    rcases getElem?_set_cases hj with ⟨-, rfl⟩ | ⟨-, hj⟩
    · rw [hv'] at hm
      cases hm
    rcases getElem?_set_cases hj' with ⟨-, rfl⟩ | ⟨-, hj'⟩
    · rw [hv'] at hm'
      cases hm'
    exact h.alone j j' u u' m hj hj' hm hm'

/-- A step that leaves the rows. -/
theorem Rowed.frame (h : Rowed σ vs) (hvi : vs[i]? = some v) (hforwards : σ'.forwards = σ.forwards)
    (hbound : ∀ k, σ'.handles k ≠ none ∨ v'.claims k → σ.handles k ≠ none ∨ v.claims k)
    (hkept : ∀ k, σ'.handles k = none → σ.handles k = none ∨ v'.unwires k)
    (hwired : ∀ k, v.claims k ∨ v.unwires k →
      σ'.handles k ≠ none ∨ v'.claims k ∨ v'.unwires k) : Rowed σ' (vs.set i v') := by
  have hv' : v' ∈ vs.set i v' :=
    List.mem_of_getElem? (List.getElem?_set_self (List.getElem?_eq_some_iff.mp hvi).1)
  refine ⟨fun k hk => ?_, fun k row hrow hb => ?_⟩
  · rw [hforwards]
    refine h.bound k ?_
    have hself : σ'.handles k ≠ none ∨ v'.claims k → σ.handles k ≠ none ∨ ∃ u ∈ vs, u.claims k := by
      intro hself
      rcases hbound k hself with hk | hk
      · exact Or.inl hk
      · exact Or.inr ⟨v, List.mem_of_getElem? hvi, hk⟩
    rcases hk with hk | ⟨u, hu, hk⟩
    · exact hself (Or.inl hk)
    · rcases List.mem_or_eq_of_mem_set hu with hu | rfl
      · exact Or.inr ⟨u, hu, hk⟩
      · exact hself (Or.inr hk)
  · rw [hforwards] at hrow
    by_cases hk' : σ'.handles k = none
    · right
      rcases h.wired k row hrow hb with hk | ⟨u, hu, hk⟩
      · rcases hkept k hk' with hnone | hun
        · exact absurd hnone hk
        · exact ⟨v', hv', Or.inr hun⟩
      · by_cases huv : u = v
        · subst huv
          rcases hwired k hk with hk | hk
          · exact absurd hk' hk
          · exact ⟨v', hv', hk⟩
        · exact ⟨u, mem_set_of_ne hvi hu huv, hk⟩
    · exact Or.inl hk'

/-- A row is recorded as bound. -/
theorem Rowed.recordBound {f : Forward} {a : String} (h : Rowed σ vs)
    (hvi : vs[i]? = some ⟨.add f, .bound a⟩) {row : ForwardStat} (hrow : row.bound = true) :
    Rowed { σ with forwards := Function.update σ.forwards (forwardKey f) (some row) }
      (vs.set i ⟨.add f, .recorded a⟩) := by
  have hv' : (⟨.add f, .recorded a⟩ : View) ∈ vs.set i ⟨.add f, .recorded a⟩ :=
    List.mem_of_getElem? (List.getElem?_set_self (List.getElem?_eq_some_iff.mp hvi).1)
  refine ⟨fun k hk => ?_, fun k row' hrow' hb => ?_⟩
  · show ∃ x, Function.update σ.forwards (forwardKey f) (some row) k = some x ∧ x.bound
    by_cases hkey : k = forwardKey f
    · subst hkey
      exact ⟨row, Function.update_self .., hrow⟩
    · rw [Function.update_of_ne hkey]
      refine h.bound k (hk.imp_right ?_)
      rintro ⟨u, hu, hk⟩
      rcases List.mem_or_eq_of_mem_set hu with hu | rfl
      · exact ⟨u, hu, hk⟩
      · simp [View.claims, Call.key] at hk
        exact absurd hk.symm hkey
  · by_cases hkey : k = forwardKey f
    · subst hkey
      exact Or.inr ⟨_, hv', Or.inl (by simp [View.claims, Call.key])⟩
    · rcases h.wired k row' ((Function.update_of_ne hkey ..).symm.trans hrow') hb with
        hk | ⟨u, hu, hk⟩
      · exact Or.inl hk
      · refine Or.inr ⟨u, mem_set_of_ne hvi hu ?_, hk⟩
        rintro rfl
        simp [View.claims, View.unwires] at hk

/-- A row is dropped or recorded as unbound, of a key that nobody serves. -/
theorem Rowed.clear {key : String} {x : Option ForwardStat} (h : Rowed σ vs)
    (hvi : vs[i]? = some v) (hx : ∀ row, x = some row → row.bound = false)
    (hfree : unserved σ vs key) (hv : ∀ k, v.claims k ∨ v.unwires k → k = key)
    (hv' : ∀ k, v'.claims k = false) :
    Rowed { σ with forwards := Function.update σ.forwards key x } (vs.set i v') := by
  simp only [unserved, Bool.and_eq_true, Option.isNone_iff_eq_none, List.all_eq_true,
    Bool.not_eq_true'] at hfree
  refine ⟨fun k hk => ?_, fun k row hrow hb => ?_⟩
  · have hold : σ.handles k ≠ none ∨ ∃ u ∈ vs, u.claims k := by
      refine hk.imp_right ?_
      rintro ⟨u, hu, hclaims⟩
      rcases List.mem_or_eq_of_mem_set hu with hu | rfl
      · exact ⟨u, hu, hclaims⟩
      · rw [hv'] at hclaims
        cases hclaims
    have hkey : k ≠ key := by
      rintro rfl
      rcases hold with hold | ⟨u, hu, hold⟩
      · exact hold hfree.1
      · rw [hfree.2 u hu] at hold
        cases hold
    show ∃ y, Function.update σ.forwards key x k = some y ∧ y.bound
    rw [Function.update_of_ne hkey]
    exact h.bound k hold
  · replace hrow : Function.update σ.forwards key x k = some row := hrow
    by_cases hkey : k = key
    · subst hkey
      rw [Function.update_self] at hrow
      rw [hx row hrow] at hb
      cases hb
    · rw [Function.update_of_ne hkey] at hrow
      rcases h.wired k row hrow hb with hk | ⟨u, hu, hk⟩
      · exact Or.inl hk
      · refine Or.inr ⟨u, mem_set_of_ne hvi hu ?_, hk⟩
        rintro rfl
        exact hkey (hv k hk)

/-- The invariant. -/
def Sound (σ : State) (vs : List View) : Prop := Owned σ vs ∧ Rowed σ vs

/-- **Every command that meets the condition** keeps the invariant. -/
theorem Sound.step (h : Sound σ vs) (hvi : vs[i]? = some v) {c : Cmd} (hp : Permits v c)
    (hstep : forwardStep σ vs v.call c) {ch : Choice} : Sound (Cmd.exec ch c σ).2
      (vs.set i ⟨v.call, Phase.next c (Cmd.exec ch c σ).1⟩) := by
  obtain ⟨howned, hrowed⟩ := h
  have hsame : ∀ {v'}, v.phase.holds = none → v'.phase.holds = none →
      (∀ k, v.claims k = false ∧ v.unwires k = false ∧ v'.claims k = false) →
      Sound σ (vs.set i v') := by
    intro v' hv hv' hnone
    refine ⟨howned.frame hvi hv hv' rfl rfl rfl, hrowed.frame hvi rfl (fun k hk => ?_)
      (fun k hk => Or.inl hk) fun k hk => ?_⟩
    · exact Or.inl (by simpa [(hnone k).2.2] using hk)
    · simp [(hnone k).1, (hnone k).2.1] at hk
  cases hp with
  | @peek f =>
    rw [Cmd.exec]
    cases (σ.handles (forwardKey f)).isSome
    · exact hsame rfl rfl fun k => by simp [View.claims, View.unwires, Phase.next]
    · exact hsame rfl rfl fun k => by simp [View.claims, View.unwires, Phase.next]
  | @bind f =>
    rw [Cmd.exec]
    cases ch.bindError
    · exact hsame rfl rfl fun k => by simp [View.claims, View.unwires, Phase.next]
    · exact hsame rfl rfl fun k => by simp [View.claims, View.unwires, Phase.next]
  | @recordBindError f e =>
    refine ⟨howned.frame hvi rfl rfl rfl rfl rfl, hrowed.clear hvi ?_ hstep ?_ ?_⟩
    · rintro row hrow
      cases hrow
      rfl
    · intro k hk
      simp [View.claims, View.unwires] at hk
    · intro k
      simp [View.claims, Phase.next]
  | @recordBound f a =>
    exact ⟨howned.frame hvi rfl rfl rfl rfl rfl, hrowed.recordBound hvi rfl⟩
  | @spawn f a =>
    refine ⟨howned.spawn hvi, hrowed.frame hvi rfl ?_ (fun k hk => Or.inl hk) ?_⟩
    · intro k hk
      simpa [View.claims, Phase.next, Cmd.exec] using hk
    · intro k hk
      simpa [View.claims, View.unwires, Phase.next, Cmd.exec] using Or.inr hk
  | @insertHandle f n =>
    have hfree : σ.handles (forwardKey f) = none := Option.isNone_iff_eq_none.mp hstep
    refine ⟨howned.insertHandle hvi hfree, hrowed.frame hvi rfl ?_ ?_ ?_⟩
    · intro k hk
      by_cases hkey : k = forwardKey f
      · exact Or.inr (by simp [View.claims, Call.key, hkey])
      · exact Or.inl (by
          simpa [View.claims, Phase.next, Cmd.exec, Function.update_of_ne hkey] using hk)
    · intro k hk
      by_cases hkey : k = forwardKey f
      · simp [Cmd.exec, hkey] at hk
      · simpa [Cmd.exec, Function.update_of_ne hkey] using Or.inl hk
    · intro k hk
      have hkey : forwardKey f = k := by simpa [View.claims, View.unwires, Call.key] using hk
      exact Or.inl (by simp [Cmd.exec, hkey])
  | @takeHandle f =>
    rw [Cmd.exec]
    cases htook : σ.handles (forwardKey f) with
    | none =>
      have hself : ({ σ with handles := Function.update σ.handles (forwardKey f) none } : State) = σ := by
        rw [← htook, Function.update_eq_self]
      rw [hself]
      exact hsame rfl rfl fun k => by simp [View.claims, View.unwires, Phase.next]
    | some n =>
      refine ⟨howned.takeHandle hvi htook, hrowed.frame hvi rfl ?_ ?_ ?_⟩
      · intro k hk
        by_cases hkey : k = forwardKey f
        · simp [View.claims, Phase.next, hkey] at hk
        · simpa [View.claims, Phase.next, Function.update_of_ne hkey] using hk
      · intro k hk
        by_cases hkey : k = forwardKey f
        · exact Or.inr (by simp [View.unwires, Call.key, Phase.next, hkey])
        · simpa [Function.update_of_ne hkey] using Or.inl hk
      · intro k hk
        simp [View.claims, View.unwires] at hk
  | @abort f n =>
    refine ⟨howned.endTask hvi ?_ ?_ ?_ rfl, hrowed.frame hvi rfl ?_ (fun k hk => Or.inl hk) ?_⟩
    · intro k hk
      exact howned.apart k n hk _ (List.mem_of_getElem? hvi) rfl
    · intro g hmem
      obtain ⟨j, hj⟩ := List.getElem?_of_mem hmem
      cases howned.not_holds hvi rfl hj rfl
    · intro m hm
      exact (Option.some.inj hm).symm
    · intro k hk
      exact Or.inl (by simpa [View.claims, Phase.next, Cmd.exec] using hk)
    · intro k hk
      simpa [View.claims, View.unwires, Phase.next, Cmd.exec] using Or.inr hk
  | @removeStat f =>
    refine ⟨howned.frame hvi rfl rfl rfl rfl rfl, hrowed.clear hvi (fun _ h => by cases h) hstep ?_ ?_⟩
    · intro k hk
      simpa [View.claims, View.unwires, Call.key, eq_comm] using hk
    · intro k
      simp [View.claims, Phase.next]
  | @acceptFails n =>
    refine ⟨?_, hrowed.frame hvi rfl ?_ (fun k hk => Or.inl hk) ?_⟩
    · simp only [forwardStep, Bool.or_eq_true, Option.isNone_iff_eq_none, List.any_eq_true,
        decide_eq_true_eq] at hstep
      rcases hstep with hnone | ⟨u, hu, hphase⟩
      · have hself : Function.update σ.tasks n none = σ.tasks := by
          rw [← hnone, Function.update_eq_self]
        exact howned.frame hvi rfl rfl hself rfl rfl
      · have hun : u.phase.holds = some n := by
          rw [hphase]
          rfl
        refine howned.endTask hvi ?_ ?_ (fun m hm => by cases hm) rfl
        · intro k hk
          exact howned.apart k n hk u hu hun
        · intro g hmem
          obtain ⟨j, hj⟩ := List.getElem?_of_mem hu
          obtain ⟨j', hj'⟩ := List.getElem?_of_mem hmem
          have := howned.not_holds hj hun hj' rfl
          rw [← this] at hphase
          cases hphase
    · intro k hk
      exact Or.inl (by simpa [View.claims, Phase.next, Cmd.exec] using hk)
    · intro k hk
      simp [View.claims, View.unwires] at hk

theorem Owned.start {call : Call} (h : Owned σ vs) : Owned σ (vs ++ [⟨call, .start⟩]) := by
  have hmem : ∀ u ∈ vs ++ [⟨call, .start⟩], ∀ n, u.phase.holds = some n → u ∈ vs := by
    intro u hu n hn
    rcases List.mem_append.mp hu with hu | hu
    · exact hu
    · rw [List.mem_singleton.mp hu] at hn
      cases hn
  refine ⟨h.fresh, ?_, h.held, ?_, ?_, ?_, ?_⟩
  · intro u hu n hn
    exact h.young u (hmem u hu n hn) n hn
  · intro f n hu
    exact h.spawning f n (hmem _ hu n rfl)
  · intro n t ht
    refine (h.owned n t ht).imp_right ?_
    rintro ⟨u, hu, hn⟩
    exact ⟨u, List.mem_append_left _ hu, hn⟩
  · intro k n hk u hu hn
    exact h.apart k n hk u (hmem u hu n hn) hn
  · intro j j' u u' n hj hj' hn hn'
    rcases getElem?_concat_cases hj with hj | ⟨-, rfl⟩
    · rcases getElem?_concat_cases hj' with hj' | ⟨-, rfl⟩
      · exact h.alone j j' u u' n hj hj' hn hn'
      · cases hn'
    · cases hn

theorem Rowed.start {call : Call} (h : Rowed σ vs) : Rowed σ (vs ++ [⟨call, .start⟩]) := by
  refine ⟨fun k hk => h.bound k (hk.imp_right ?_), fun k row hrow hb => ?_⟩
  · rintro ⟨u, hu, hclaims⟩
    rcases List.mem_append.mp hu with hu | hu
    · exact ⟨u, hu, hclaims⟩
    · rw [List.mem_singleton.mp hu] at hclaims
      simp [View.claims] at hclaims
  · refine (h.wired k row hrow hb).imp_right ?_
    rintro ⟨u, hu, hk⟩
    exact ⟨u, List.mem_append_left _ hu, hk⟩

end Keep

theorem sound_live : Sound .live [] := by
  refine ⟨⟨fun _ _ => rfl, ?_, ?_, ?_, ?_, ?_, ?_⟩, ?_, ?_⟩
  · intro v hv
    exact absurd hv List.not_mem_nil
  · intro k n hk
    cases hk
  · intro f n hmem
    exact absurd hmem List.not_mem_nil
  · intro n t ht
    cases ht
  · intro k n hk
    cases hk
  · intro i j v u n hi
    cases hi
  · rintro k (hk | ⟨v, hv, -⟩)
    · exact absurd rfl hk
    · exact absurd hv List.not_mem_nil
  · intro k row hrow
    cases hrow

theorem state_call (t : Worker) : (phases.state t).call = t.call := by
  have hfold : ∀ (log : List (Σ c : Cmd, c.Resp)) (v : View),
      (log.foldl (fun v e => phases.next v e.1 e.2) v).call = v.call := by
    intro log
    induction log with
    | nil => exact fun v => rfl
    | cons e log ih =>
      intro v
      rw [List.foldl_cons, ih]
      rfl
  exact hfold t.log _

/-- The invariant along a schedule. -/
theorem sound_steps : phases.Steps Cmd.exec body KeepsForwards Ends Sound where
  conforms _ call _ := conforms_body call
  start _ _ _ h := ⟨h.1.start, h.2.start⟩
  step σ i ch t c k hkeep hi ht hok h := by
    have hstep : forwardStep σ.world (views σ) t.call c := by
      refine hkeep t hi c ?_
      rw [Thread.pending, ht]
      rfl
    rw [← state_call t] at hstep
    exact ⟨trivial, h.step (Protocol.getElem?_states hi) hok hstep⟩

/-! ## What a returning call leaves -/

/-- The forward is registered, with a running task that relays to its destination. -/
def Serving (σ : State) (f : Forward) : Prop :=
  ∃ n t, σ.handles (forwardKey f) = some n ∧ σ.tasks n = some t ∧ t.fwd = f

/-- The event makes the call return the reply. -/
def Returns (σ : Process) (e : Tick) (call : Call) (r : Reply) : Prop :=
  ∃ (i : ℕ) (t t' : Worker), σ.pool[i]? = some t ∧ t.result = none ∧
    (Conf.next Cmd.exec body σ e).pool[i]? = some t' ∧ t'.call = call ∧ t'.result = some (.ok r)

section Return

variable {σ : Process} {e : Tick} {call : Call} {r : Reply}

/-- What returns has issued its last command. -/
theorem Returns.command (hσ : Protocol.Keeps phases Ends Sound σ) (he : KeepsForwards σ e)
    (h : Returns σ e call r) : ∃ (v : View) (c : Cmd) (ch : Choice), v ∈ views σ ∧ v.call = call ∧
      Permits v c ∧ forwardStep σ.world (views σ) call c ∧
      (Conf.next Cmd.exec body σ e).world = (Cmd.exec ch c σ.world).2 ∧
      Ends ⟨call, Phase.next c (Cmd.exec ch c σ.world).1⟩ (.ok r) := by
  have hnext := sound_steps.next_keeps hσ he
  obtain ⟨i, t, t', hi, hbusy, hi', hcall, hret⟩ := h
  have hback : (Conf.next Cmd.exec body σ e).pool[i]? ≠ some t := by
    intro hsame
    rw [hi'] at hsame
    cases hsame
    rw [hbusy] at hret
    cases hret
  cases e with
  | start call' =>
    refine absurd ?_ hback
    rw [Conf.next_start]
    exact List.getElem?_append_left (List.getElem?_eq_some_iff.mp hi).1 ▸ hi
  | step j ch =>
    rcases Conf.next_step_cases σ j ch with hsame | ⟨u, c, k, hj, hu, hsame⟩
    · rw [hsame] at hback
      exact absurd hi hback
    · have hij : j = i := by
        by_contra hne
        rw [hsame, List.getElem?_set_ne hne] at hback
        exact hback hi
      subst hij
      rw [hi] at hj
      cases hj
      have ht' : t' = t.resume c k (Cmd.exec ch c σ.world).1 := by
        rw [hsame, List.getElem?_set_self (List.getElem?_eq_some_iff.mp hi).1] at hi'
        exact (Option.some.inj hi').symm
      have hok := hσ.conforms t (List.mem_of_getElem? hi)
      rw [hu] at hok
      have hkeep : forwardStep σ.world (views σ) t.call c := by
        refine he t hi c ?_
        rw [Thread.pending, hu]
        rfl
      have hcall' : t.call = call := by
        rw [← hcall, ht']
        rfl
      have hends := hnext.fin_of_result (List.mem_of_getElem? hi') hret
      rw [ht', Protocol.state_resume] at hends
      refine ⟨phases.state t, c, ch, List.mem_of_getElem? (Protocol.getElem?_states hi), ?_, hok.1,
        hcall' ▸ hkeep, by rw [hsame], ?_⟩
      · rw [state_call, hcall']
      · rw [← hcall', ← state_call t]
        exact hends

/-- **An add that returns** leaves its forward served. -/
theorem Returns.serving {f : Forward} {r : Reply} (hσ : Protocol.Keeps phases Ends Sound σ)
    (he : KeepsForwards σ e) (h : Returns σ e (.add f) r) :
    Serving (Conf.next Cmd.exec body σ e).world f := by
  obtain ⟨v, c, ch, hv, hcall, hp, hstep, hworld, hends⟩ := h.command hσ he
  rw [hworld]
  replace hends : (Phase.next c (Cmd.exec ch c σ.world).1 = .found ∨
      Phase.next c (Cmd.exec ch c σ.world).1 = .added) := by
    rcases hends with ⟨hphase, -⟩ | ⟨-, _, h⟩
    · exact hphase
    · cases h
  cases hp with
  | @peek g =>
    cases hcall
    cases hn : σ.world.handles (forwardKey f) with
    | none =>
      rw [Cmd.exec, hn] at hends
      simp [Phase.next] at hends
    | some n =>
      obtain ⟨t, ht, hkey⟩ := hσ.holds.1.held _ n hn
      have hdest : t.fwd.destAddr = f.destAddr := by
        simpa [forwardStep, hn, ht] using hstep
      exact ⟨n, t, hn, ht, Forward.eq_of_key hkey hdest⟩
  | @insertHandle g n =>
    cases hcall
    obtain ⟨t, ht, hfwd⟩ := hσ.holds.1.spawning f n hv
    exact ⟨n, t, Function.update_self .., ht, hfwd⟩
  | bind =>
    cases hb : ch.bindError <;> simp [Cmd.exec, hb, Phase.next] at hends
  | takeHandle => cases hcall
  | _ => simp [Phase.next] at hends

/-- **A removal that returns** leaves its key without a handle. -/
theorem Returns.unregistered {f : Forward} {r : Reply} (hσ : Protocol.Keeps phases Ends Sound σ)
    (he : KeepsForwards σ e) (h : Returns σ e (.remove f) r) :
    (Conf.next Cmd.exec body σ e).world.handles (forwardKey f) = none := by
  obtain ⟨v, c, ch, hv, hcall, hp, hstep, hworld, hends⟩ := h.command hσ he
  rw [hworld]
  replace hends : (Phase.next c (Cmd.exec ch c σ.world).1 = .absent ∨
      Phase.next c (Cmd.exec ch c σ.world).1 = .removed) := by
    rcases hends with ⟨hphase, -⟩ | ⟨hphase, -⟩
    · exact Or.inl hphase
    · exact Or.inr hphase
  cases hp with
  | @takeHandle g =>
    cases hcall
    exact Function.update_self ..
  | @removeStat g =>
    cases hcall
    simp only [forwardStep, unserved, Bool.and_eq_true, Option.isNone_iff_eq_none] at hstep
    exact hstep.1
  | abort => simp [Phase.next] at hends
  | _ => cases hcall

end Return

/-! ## Between two calls on a key -/

/-- The event does not take the key's handle. -/
def Unremoved (key : String) (σ : Process) : Tick → Prop
  | .start _ => True
  | .step i _ => ∀ t ∈ σ.pool[i]?, t.pending ≠ some (.takeHandle key)

instance (key : String) : ∀ σ e, Decidable (Unremoved key σ e)
  | _, .start _ => isTrue trivial
  | σ, .step i _ => inferInstanceAs (Decidable (∀ t ∈ σ.pool[i]?,
      t.pending ≠ some (.takeHandle key)))

/-- The event does not register a handle under the key. -/
def Unadded (key : String) (σ : Process) : Tick → Prop
  | .start _ => True
  | .step i _ => ∀ t ∈ σ.pool[i]?, ∀ n, t.pending ≠ some (.insertHandle key n)

section Between

variable {σ : Process} {e : Tick}

/-- A served forward stays served until its handle is taken. -/
theorem Serving.next {f : Forward} (hσ : Protocol.Keeps phases Ends Sound σ)
    (he : KeepsForwards σ e) (hkept : Unremoved (forwardKey f) σ e) (h : Serving σ.world f) :
    Serving (Conf.next Cmd.exec body σ e).world f := by
  cases e with
  | start call => exact h
  | step i ch =>
    rcases Conf.next_step_cases σ i ch with hsame | ⟨u, c, k, hi, hu, hsame⟩
    · rw [hsame]
      exact h
    · rw [hsame]
      have hok := hσ.conforms u (List.mem_of_getElem? hi)
      rw [hu] at hok
      have hpending : u.pending = some c := by
        rw [Thread.pending, hu]
      have hstep := he u hi c hpending
      rw [← state_call u] at hstep
      have hc := hkept u hi
      rw [hpending] at hc
      obtain ⟨howned, -⟩ := hσ.holds
      have hview : phases.state u ∈ views σ := List.mem_of_getElem? (Protocol.getElem?_states hi)
      obtain ⟨n, t, hn, ht, hfwd⟩ := h
      generalize phases.state u = v at hok hview hstep
      obtain ⟨hp, -⟩ := hok
      cases hp with
      | @spawn g a =>
        refine ⟨n, t, hn, (Function.update_of_ne ?_ ..).trans ht, hfwd⟩
        rintro rfl
        rw [howned.fresh _ le_rfl] at ht
        cases ht
      | @insertHandle g m =>
        have hfree : σ.world.handles (forwardKey g) = none := Option.isNone_iff_eq_none.mp hstep
        refine ⟨n, t, (Function.update_of_ne ?_ ..).trans hn, ht, hfwd⟩
        intro hkey
        rw [← hkey, hn] at hfree
        cases hfree
      | @takeHandle g =>
        refine ⟨n, t, (Function.update_of_ne ?_ ..).trans hn, ht, hfwd⟩
        intro hkey
        exact hc (by rw [hkey])
      | @abort g m =>
        refine ⟨n, t, hn, (Function.update_of_ne ?_ ..).trans ht, hfwd⟩
        rintro rfl
        exact howned.apart _ n hn _ hview rfl
      | @acceptFails m =>
        simp only [forwardStep, Bool.or_eq_true, Option.isNone_iff_eq_none, List.any_eq_true,
          decide_eq_true_eq] at hstep
        refine ⟨n, t, hn, (Function.update_of_ne ?_ ..).trans ht, hfwd⟩
        rintro rfl
        rcases hstep with hnone | ⟨w, hw, hphase⟩
        · rw [ht] at hnone
          cases hnone
        · exact howned.apart _ n hn w hw (by rw [hphase]; rfl)
      | bind =>
        refine ⟨n, t, ?_, ?_, hfwd⟩
        · rw [Cmd.exec]
          split <;> exact hn
        · rw [Cmd.exec]
          split <;> exact ht
      | _ => exact ⟨n, t, hn, ht, hfwd⟩

/-- A key without a handle has none until one is registered. -/
theorem handles_next {key : String} (hkept : Unadded key σ e) (h : σ.world.handles key = none) :
    (Conf.next Cmd.exec body σ e).world.handles key = none := by
  cases e with
  | start call => exact h
  | step i ch =>
    rcases Conf.next_step_cases σ i ch with hsame | ⟨u, c, k, hi, hu, hsame⟩
    · rw [hsame]
      exact h
    · rw [hsame]
      have hc := hkept u hi
      rw [Thread.pending, hu] at hc
      cases c with
      | insertHandle key' m =>
        refine (Function.update_of_ne ?_ ..).trans h
        rintro rfl
        exact hc m rfl
      | takeHandle key' =>
        by_cases hkey : key = key'
        · subst hkey
          exact Function.update_self ..
        · exact (Function.update_of_ne hkey ..).trans h
      | bind f =>
        dsimp only [Cmd.exec]
        split <;> exact h
      | _ => exact h

end Between

/-! ## The forwarder as a map -/

/-- No call on the key is in progress. -/
def Settled (σ : Process) (key : String) : Prop :=
  ∀ t ∈ σ.pool, t.call.key = some key → t.result ≠ none

/-- The key has a stats row that says it is bound. -/
def RowBound (σ : State) (key : String) : Prop := ∃ row, σ.forwards key = some row ∧ row.bound

/-- A serve task for the key runs. -/
def Serves (σ : State) (key : String) : Prop :=
  ∃ n t, σ.tasks n = some t ∧ forwardKey t.fwd = key

/-- A call that has returned is in the middle of nothing. -/
theorem Ends.idle {v : View} {o : Outcome RunError Reply} (h : Ends v o) (key : String) :
    v.claims key = false ∧ v.unwires key = false ∧ v.phase.holds = none := by
  obtain ⟨call, phase⟩ := v
  cases call with
  | add f =>
    rcases h with ⟨rfl | rfl, -⟩ | ⟨rfl, -⟩ <;> simp [View.claims, View.unwires, Phase.holds]
  | remove f =>
    rcases h with ⟨rfl, -⟩ | ⟨rfl, -⟩ <;> simp [View.claims, View.unwires, Phase.holds]
  | acceptFails n =>
    obtain rfl : phase = .ended := h
    simp [View.claims, View.unwires, Phase.holds]

section Settled

variable {σ : Process} {key : String}

/-- Where no call is in progress, the handles say which keys are served and bound. -/
theorem Settled.iff_handle (hσ : Protocol.Keeps phases Ends Sound σ) (h : Settled σ key) :
    (RowBound σ.world key ↔ σ.world.handles key ≠ none) ∧
      (Serves σ.world key ↔ σ.world.handles key ≠ none) := by
  obtain ⟨howned, hrowed⟩ := hσ.holds
  have hidle : ∀ v ∈ views σ, v.call.key = some key →
      v.claims key = false ∧ v.unwires key = false ∧ v.phase.holds = none := by
    intro v hv hkey
    obtain ⟨t, ht, rfl⟩ := List.mem_map.mp hv
    rw [state_call] at hkey
    obtain ⟨o, ho⟩ := Option.ne_none_iff_exists'.mp (h t ht hkey)
    exact (hσ.fin_of_result ht ho).idle key
  have hkey : ∀ {v : View}, v.claims key ∨ v.unwires key → v.call.key = some key := by
    rintro v (hv | hv)
    · simp only [View.claims, Bool.and_eq_true, decide_eq_true_eq] at hv
      exact hv.1
    · simp only [View.unwires, Bool.and_eq_true, decide_eq_true_eq] at hv
      exact hv.1
  refine ⟨⟨?_, fun hne => hrowed.bound key (Or.inl hne)⟩, ?_, fun hne => ?_⟩
  · rintro ⟨row, hrow, hbound⟩
    rcases hrowed.wired key row hrow hbound with hne | ⟨v, hv, hwired⟩
    · exact hne
    · obtain ⟨hclaims, hunwires, -⟩ := hidle v hv (hkey hwired)
      rw [hclaims, hunwires] at hwired
      simp at hwired
  · rintro ⟨n, t, ht, rfl⟩
    rcases howned.owned n t ht with hn | ⟨v, hv, hholds, hcall⟩
    · rw [hn]
      exact Option.some_ne_none n
    · rw [(hidle v hv hcall).2.2] at hholds
      cases hholds
  · obtain ⟨n, hn⟩ := Option.ne_none_iff_exists'.mp hne
    obtain ⟨t, ht, htkey⟩ := howned.held key n hn
    exact ⟨n, t, ht, htkey⟩

end Settled

/-! ## A task that ends by itself -/

/-- The forward of the sample. -/
def kitchen : Forward := ⟨"127.0.0.1:8080", .tcp, "10.10.0.2:80"⟩

/-- A forward is added. -/
def addKitchen : List Tick := .start (.add kitchen) :: List.replicate 5 (.step 0 {})

/-- **An accept fails**, and the forward that nobody removed is not served although its row is
bound. -/
theorem acceptFailed : ∃ evs : List Tick,
    ((Process.init.run evs).pool.map fun t => (t.call, t.result)) =
      [(.add kitchen, some (.ok .unit)), (.acceptFails 0, some (.ok .unit))] ∧
    (((Process.init.run evs).world.forwards (forwardKey kitchen)).any fun row => row.bound) = true ∧
    ¬Serves (Process.init.run evs).world (forwardKey kitchen) := by
  refine ⟨addKitchen ++ [.start (.acceptFails 0), .step 1 {}], by decide,
    by decide, ?_⟩
  rintro ⟨n, t, ht, -⟩
  have hnone : (Process.init.run (addKitchen ++ [.start (.acceptFails 0), .step 1 {}])).world.tasks n =
      none := by
    show Function.update (Function.update (fun _ => none) 0 _) 0 none n = none
    rw [Function.update_idem]
    by_cases hn : n = 0
    · rw [hn, Function.update_self]
    · exact Function.update_of_ne hn ..
  rw [hnone] at ht
  cases ht

/-! ## The forwarder as a map, along a schedule -/

section Along

variable {before after evs : List Tick} {e : Tick}

theorem keeps_run (h : Process.init.Admissible KeepsForwards evs) :
    Protocol.Keeps phases Ends Sound (Process.init.run evs) :=
  sound_steps.run_keeps (Protocol.keeps_nil sound_live) h

/-- A schedule around one of its events. -/
theorem admissible_split (h : Process.init.Admissible KeepsForwards (before ++ e :: after)) :
    Process.init.Admissible KeepsForwards before ∧ KeepsForwards (Process.init.run before) e ∧
      Process.Admissible KeepsForwards (Conf.next Cmd.exec body (Process.init.run before) e)
        after := by
  obtain ⟨hbefore, he, hafter⟩ := Conf.admissible_append.mp h
  exact ⟨hbefore, he, hafter⟩

theorem run_split : Process.init.run (before ++ e :: after) =
    Process.run (Conf.next Cmd.exec body (Process.init.run before) e) after := Conf.run_append

/-- A key whose handle is gone is not bound, unless a handle is registered again. -/
theorem not_rowBound {σ : Process} {key : String} (hσ : Protocol.Keeps phases Ends Sound σ)
    (hnone : σ.world.handles key = none) (h : σ.Admissible KeepsForwards evs)
    (hkept : σ.Admissible (Unadded key) evs) (hsettled : Settled (σ.run evs) key) :
    ¬RowBound (σ.run evs).world key := by
  have hend : (σ.run evs).world.handles key = none :=
    Conf.run_invariant (fun σ => σ.world.handles key = none)
      (fun _ _ hnone hkept => handles_next hkept hnone) hnone hkept
  rw [(hsettled.iff_handle (sound_steps.run_keeps hσ h)).1, hend]
  exact fun h => h rfl

/-- **The forwarder is a map from keys to destinations** in every schedule whose commands meet
the condition.  An added forward is served until it is removed; where no call on a key is in
progress its row is bound exactly when a task serves it; and a key that was removed, or never
registered, has no bound row. -/
theorem forwards_refined (h : Process.init.Admissible KeepsForwards evs) :
    (∀ before e after f, evs = before ++ e :: after →
      Returns (Process.init.run before) e (.add f) .unit →
      Process.Admissible (Unremoved (forwardKey f))
        (Conf.next Cmd.exec body (Process.init.run before) e) after →
      ∃ n t, (Process.init.run evs).world.tasks n = some t ∧ t.fwd = f) ∧
    (∀ key, Settled (Process.init.run evs) key →
      (RowBound (Process.init.run evs).world key ↔ Serves (Process.init.run evs).world key)) ∧
    (∀ before e after f r, evs = before ++ e :: after →
      Returns (Process.init.run before) e (.remove f) r →
      Process.Admissible (Unadded (forwardKey f))
        (Conf.next Cmd.exec body (Process.init.run before) e) after →
      Settled (Process.init.run evs) (forwardKey f) →
      ¬RowBound (Process.init.run evs).world (forwardKey f)) ∧
    ∀ key, Process.init.Admissible (Unadded key) evs → Settled (Process.init.run evs) key →
      ¬RowBound (Process.init.run evs).world key := by
  refine ⟨?_, fun key hsettled => ?_, ?_, fun key hkept hsettled => ?_⟩
  · rintro before e after f rfl hret hkept
    obtain ⟨hbefore, he, hafter⟩ := admissible_split h
    have hσ := keeps_run hbefore
    have hserving : Serving (Process.init.run (before ++ e :: after)).world f := by
      rw [run_split]
      refine (Conf.run_invariant (fun σ => Protocol.Keeps phases Ends Sound σ ∧ Serving σ.world f)
        ?_ ⟨sound_steps.next_keeps hσ he, hret.serving hσ he⟩ (hafter.and hkept)).2
      rintro σ e' ⟨hσ, hserving⟩ ⟨he', hkept'⟩
      exact ⟨sound_steps.next_keeps hσ he', hserving.next hσ he' hkept'⟩
    obtain ⟨n, t, -, ht, hfwd⟩ := hserving
    exact ⟨n, t, ht, hfwd⟩
  · obtain ⟨hrow, hserves⟩ := hsettled.iff_handle (keeps_run h)
    rw [hrow, hserves]
  · rintro before e after f r rfl hret hkept hsettled
    obtain ⟨hbefore, he, hafter⟩ := admissible_split h
    have hσ := keeps_run hbefore
    rw [run_split] at hsettled ⊢
    exact not_rowBound (sound_steps.next_keeps hσ he) (hret.unregistered hσ he) hafter hkept
      hsettled
  · exact not_rowBound (Protocol.keeps_nil sound_live) rfl h hkept hsettled

end Along

/-- A forward is added while another is removed that was never there. -/
theorem forwards_refined_added : ∃ n t, (Process.init.run
    (.start (.remove ⟨"127.0.0.1:8443", .tcp, "10.10.0.2:443"⟩) :: .start (.add kitchen) ::
      List.replicate 4 (.step 1 {}) ++ .step 1 {} :: [.step 0 {}])).world.tasks n = some t ∧
    t.fwd = kitchen :=
  (forwards_refined (by decide)).1 _ _ _ _ rfl ⟨1, _, _, rfl, rfl, rfl, rfl, rfl⟩
    (by decide)

end Forwarder
end Cococoir
