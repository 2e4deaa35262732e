import Cococoir.ControlPlane.Moves

/-!
# Schedules of enrollment operations

The protocol rule, specialized to the moves of the machine and invite operations.  A Redis
command that fails changes neither the world nor a view, and a command that does not go to
Redis changes neither the keyspace nor a view except for a random token, so an assertion
about the keyspace and the views has to be checked for successful Redis commands only:
`Checks`, and `Checks.steps`.

That records are stored under their own names is kept by every schedule and available to
every check.

## How an invariant is proved with it

An assertion `I` about the world and the views of all calls is given.  One shows that a new call
keeps it, that what is done outside Redis keeps it, and that every successful Redis command which
`Move` permits to a call with its view keeps it; of the world one may use what the command found,
of the view what `View.next` makes of it.  These are the fields of `Checks`.  Then `Checks.steps`
gives the rule of `Concurrency.Protocol` its premise, and `Checks.run` says what every admitted
schedule ends in.

A proof of such an assertion has no schedule in it and no program, and its cases are the
constructors of `Move`.  The lemmas `next_invite`, `next_delivery` and `next_seen_host` are
frames: they say what a command on one family of keys leaves of a view.
-/

namespace Cococoir
namespace ControlPlane

open Concurrency

/-- What a call in progress has learnt and done. -/
def view (t : Handler) : View := t.log.foldl (fun v e => v.next e.1 e.2) (.init t.call)

/-- The views of all calls, oldest first. -/
def views (σ : Server) : List View := σ.pool.map view

/-- Records are stored under their own names. -/
def Named (w : World) : Prop := ∀ n m, w.machines n = some (.json m) → m.name = n

/-- Two worlds with the same machines, names, counter, invites and payloads. -/
structure SameStore (w w' : World) : Prop where
  machines : w'.machines = w.machines
  index : w'.index = w.index
  alloc : w'.alloc = w.alloc
  invites : w'.invites = w.invites
  deliveries : w'.deliveries = w.deliveries

theorem sameStore_exec {ch : Choice} {c : Cmd} {w : World} (h : ∀ op, c ≠ .redis op) :
    SameStore w (Cmd.exec ch c w).2 := by
  obtain ⟨h₁, h₂, h₃, h₄, h₅, -⟩ := exec_keyspace h
  exact ⟨h₁, h₂, h₃, h₄, h₅⟩

/-! ## Views along a run -/

theorem next_call (v : View) (c : Cmd) (r : c.Resp) : (v.next c r).call = v.call := by
  unfold View.next
  split <;> rfl

theorem next_error (v : View) (op : RedisOp) (e : RedisError) :
    v.next (.redis op) (.error e) = v := by
  cases op with
  | machine n op =>
    cases op with
    | set x => cases x <;> rfl
    | setNx x => cases x <;> rfl
    | _ => rfl
  | invite code op =>
    cases op with
    | setEx x ttl => cases x <;> rfl
    | _ => rfl
  | delivery code op =>
    cases op with
    | setEx x ttl => cases x <;> rfl
    | _ => rfl
  | index op => cases op <;> rfl
  | alloc op => cases op <;> rfl
  | _ => rfl

theorem next_outside (v : View) {c : Cmd} (h : ∀ op, c ≠ .redis op) (r : c.Resp) :
    ∃ token, (v.token.isSome → token.isSome) ∧ v.next c r = { v with token := token } := by
  cases c with
  | redis op => exact absurd rfl (h op)
  | fillBytes n => exact ⟨_, fun _ => rfl, rfl⟩
  | _ => exact ⟨v.token, id, rfl⟩

/-- A command on an invite tells the call about the invite. -/
theorem next_invite (v : View) {code : String} {op : Redis.KeyOp (Stored InviteRecord)}
    (a : op.Resp) : ∃ r s gone, v.next (.redis (.invite code op)) (.ok a) =
      { v with invite := r, recorded := s, revoked := gone } := by
  cases op with
  | get =>
    match a with
    | none => exact ⟨_, _, _, rfl⟩
    | some (.json r) => exact ⟨_, _, _, rfl⟩
    | some (.corrupt _ _) => exact ⟨_, _, _, rfl⟩
  | setEx x ttl => cases x <;> exact ⟨_, _, _, rfl⟩
  | _ => exact ⟨_, _, _, rfl⟩

/-- A command on a payload tells the call about the payload. -/
theorem next_delivery (v : View) {code : String} {op : Redis.KeyOp (Stored EnrollmentDelivery)}
    (a : op.Resp) : ∃ minted got, v.next (.redis (.delivery code op)) (.ok a) =
      { v with minted := minted, got := got } := by
  cases op with
  | getDel =>
    match a with
    | none => exact ⟨_, _, rfl⟩
    | some (.json d) => exact ⟨_, _, rfl⟩
    | some (.corrupt _ _) => exact ⟨_, _, rfl⟩
  | setEx x ttl => cases x <;> exact ⟨_, _, rfl⟩
  | _ => exact ⟨_, _, rfl⟩

/-- Commands on other families than the machines' and the counter leave what the call knows
of machines. -/
theorem next_seen_host (v : View) {op : RedisOp} (hmachine : ∀ n o, op ≠ .machine n o)
    (halloc : ∀ o, op ≠ .alloc o) (a : op.Resp) :
    (v.next (.redis op) (.ok a)).seen = v.seen ∧ (v.next (.redis op) (.ok a)).host = v.host := by
  cases op with
  | machine n o => exact absurd rfl (hmachine n o)
  | alloc o => exact absurd rfl (halloc o)
  | index o => cases o <;> exact ⟨rfl, rfl⟩
  | invite code o =>
    obtain ⟨_, _, _, h⟩ := next_invite v a
    rw [h]
    exact ⟨rfl, rfl⟩
  | delivery code o =>
    obtain ⟨_, _, h⟩ := next_delivery v a
    rw [h]
    exact ⟨rfl, rfl⟩
  | _ => exact ⟨rfl, rfl⟩

theorem view_call (t : Handler) : (view t).call = t.call := by
  suffices h : ∀ (l : List (Σ c : Cmd, c.Resp)) (v : View),
      (l.foldl (fun v e => v.next e.1 e.2) v).call = v.call from h t.log _
  intro l
  induction l with
  | nil => exact fun v => rfl
  | cons e l ih => exact fun v => (ih _).trans (next_call v e.1 e.2)

theorem mem_views {σ : Server} {t : Handler} (h : t ∈ σ.pool) : view t ∈ views σ :=
  List.mem_map_of_mem h

variable {cp : ControlPlane}

/-- The programs end as their calls say. -/
theorem body_settles {call : Call} (h : call.enrolls) :
    (moves cp).Conforms Settled (cp.body call) (View.init call) :=
  ((body_conforms h).stable (Q := fun v => v.call = call)
    (fun v c r hv => (next_call v c r).trans hv) rfl).mono fun _ _ hv => hv.1 hv.2

/-! ## The rule -/

/-- What has to be checked of an assertion `I` about the world and the views. -/
structure Checks (cp : ControlPlane) (allowed : Server → Tick → Prop)
    (I : World → List View → Prop) : Prop where
  enrolls : ∀ σ call, allowed σ (.start call) → call.enrolls
  start : ∀ σ call, allowed σ (.start call) → I σ.world (views σ) →
    I σ.world (views σ ++ [View.init call])
  outside : ∀ {w w' : World} {vs : List View} {i : ℕ} {v : View} (token : Option String),
    (v.token.isSome → token.isSome) → SameStore w w' → vs[i]? = some v → I w vs →
      I w' (vs.set i { v with token := token })
  redis : ∀ (σ : Server) (i : ℕ) (ch : Choice) (t : Handler) (op : RedisOp),
    allowed σ (.step i ch) → ch.fails = false → σ.pool[i]? = some t →
    t.pending = some (.redis op) → Move cp (view t) (.redis op) → Named σ.world →
    I σ.world (views σ) →
    I (op.exec σ.world).2 ((views σ).set i ((view t).next (.redis op) (.ok (op.exec σ.world).1)))

/-- A permitted command keeps records under their own names. -/
theorem Move.named {v : View} {op : RedisOp} {w : World} (h : Move cp v (.redis op))
    (hw : Named w) : Named (op.exec w).2 := by
  have hset : ∀ {n : String} {x : Option (Stored Machine)},
      (∀ m, x = some (.json m) → m.name = n) →
      Named { w with machines := Function.update w.machines n x } := by
    intro n x hx n' m hm
    dsimp only at hm
    by_cases hn : n' = n
    · subst hn
      rw [Function.update_self] at hm
      exact hx m hm
    · rw [Function.update_of_ne hn] at hm
      exact hw n' m hm
  cases h with
  | outside h => exact absurd rfl (h op)
  | readMachine => exact hset fun m hm => hw _ m hm
  | claim =>
    refine hset fun m' hm' => ?_
    rename_i m _ _ _ _ _
    simp only [Redis.exec_setNx] at hm'
    cases hc : w.machines m.name with
    | none =>
      rw [hc] at hm'
      cases hm'
      rfl
    | some x =>
      rw [hc] at hm'
      exact hw _ m' (hc.trans hm')
  | rotate =>
    refine hset fun m' hm' => ?_
    cases hm'
    rfl
  | attach =>
    refine hset fun m' hm' => ?_
    cases hm'
    rfl
  | drop =>
    refine hset fun m' hm' => ?_
    simp at hm'
  | _ => exact hw

/-- Every stored machine record decodes. -/
def Decoded (w : World) : Prop := ∀ n x, w.machines n = some x → ∃ m, x = .json m

theorem Decoded.update {w w' : World} {n : String} {x : Option (Stored Machine)}
    (h : Decoded w) (hx : ∀ y, x = some y → ∃ m, y = .json m)
    (hmachines : w'.machines = Function.update w.machines n x) : Decoded w' := by
  intro n' y hy
  rcases update_cases (hmachines ▸ hy) with ⟨-, hy⟩ | ⟨-, hy⟩
  · exact hx y hy
  · exact h n' y hy

/-- A permitted command writes records that decode. -/
theorem Move.decoded {v : View} {op : RedisOp} {w : World} (h : Move cp v (.redis op))
    (hw : Decoded w) : Decoded (op.exec w).2 := by
  cases h with
  | outside h => exact absurd rfl (h op)
  | @readMachine n => exact hw.update (x := w.machines n) (fun y hy => hw n y hy) rfl
  | @claim i m =>
    refine hw.update (fun y hy => ?_) rfl
    rw [Redis.exec_setNx] at hy
    cases hm : w.machines m.name with
    | none =>
      rw [hm] at hy
      exact ⟨m, (Option.some.inj hy).symm⟩
    | some x =>
      rw [hm] at hy
      exact hw _ y (hm.trans hy)
  | rotate => exact hw.update (fun y hy => ⟨_, (Option.some.inj hy).symm⟩) rfl
  | attach => exact hw.update (fun y hy => ⟨_, (Option.some.inj hy).symm⟩) rfl
  | drop => exact hw.update (fun y hy => by simp at hy) rfl
  | _ => exact hw

/-- Records read back have their own names. -/
theorem resp_exec {op : RedisOp} {w : World} (hw : Named w) :
    (moves cp).resp (.redis op) (.ok (op.exec w).1) := by
  cases op with
  | machine n op =>
    cases op with
    | get =>
      change (moves cp).resp (.redis (.machine n .get)) (.ok (w.machines n))
      cases h : w.machines n with
      | none => trivial
      | some x =>
        cases x with
        | json m => exact hw n m h
        | corrupt text err => trivial
    | _ => trivial
  | _ => trivial

theorem resp_error {op : RedisOp} {e : RedisError} :
    (moves cp).resp (.redis op) (.error e) := by
  cases op with
  | machine n op => cases op <;> trivial
  | _ => trivial

theorem resp_outside {c : Cmd} (h : ∀ op, c ≠ .redis op) (r : c.Resp) : (moves cp).resp c r := by
  cases c with
  | redis op => exact absurd rfl (h op)
  | _ => trivial

/-- **The rule.**  A checked assertion is kept by every admitted schedule. -/
theorem Checks.steps {allowed : Server → Tick → Prop} {I : World → List View → Prop}
    (h : Checks cp allowed I) :
    Protocol.Steps (moves cp) Cmd.exec cp.body allowed Settled
      fun w vs => Named w ∧ I w vs where
  conforms σ call hcall := body_settles (h.enrolls σ call hcall)
  start σ call hcall hI := ⟨hI.1, h.start σ call hcall hI.2⟩
  step σ i ch t c k hallowed hi ht hok hI := by
    have hvi : (views σ)[i]? = some (view t) := Protocol.getElem?_states (P := moves cp) hi
    by_cases hc : ∃ op, c = .redis op
    · obtain ⟨op, rfl⟩ := hc
      cases hf : ch.fails with
      | true =>
        rw [exec_redis_of_fails hf]
        refine ⟨resp_error, hI.1, ?_⟩
        have hset : (views σ).set i ((view t).next (.redis op) (.error (.server ch.text))) =
            views σ := by
          rw [next_error]
          exact set_same hvi
        exact hset ▸ hI.2
      | false =>
        rw [exec_redis_of_not_fails hf]
        exact ⟨resp_exec hI.1, Move.named hok hI.1, h.redis σ i ch t op hallowed hf hi
          (by rw [Thread.pending, ht]) hok hI.1 hI.2⟩
    · have hc := not_exists.mp hc
      have hstore : SameStore σ.world (Cmd.exec ch c σ.world).2 := sameStore_exec hc
      obtain ⟨token, hdrawn, htoken⟩ := next_outside (view t) hc (Cmd.exec ch c σ.world).1
      refine ⟨resp_outside hc _, fun n m hm => hI.1 n m (hstore.machines ▸ hm), ?_⟩
      have hnext := h.outside token hdrawn hstore hvi hI.2
      rw [← htoken] at hnext
      exact hnext

/-- Enrollment operations keep that every record decodes. -/
theorem decoded_checks {allowed : Server → Tick → Prop}
    (h : ∀ σ call, allowed σ (.start call) → call.enrolls) :
    Checks cp allowed fun w _ => Decoded w where
  enrolls := h
  start _ _ _ hw := hw
  outside _ _ hstore _ hw := fun n x hx => hw n x (hstore.machines ▸ hx)
  redis _ _ _ _ _ _ _ _ _ hmove _ hw := hmove.decoded hw

/-- What an admitted schedule of enrollment operations from `w` ends in. -/
theorem Checks.run {allowed : Server → Tick → Prop} {I : World → List View → Prop}
    (h : Checks cp allowed I) {w : World} (hw : Named w) (hI : I w []) {ticks : List Tick}
    (hadm : Server.Admissible cp allowed ⟨w, []⟩ ticks) :
    Protocol.Keeps (moves cp) Settled (fun w vs => Named w ∧ I w vs)
      (Server.run cp ⟨w, []⟩ ticks) :=
  h.steps.run_keeps (Protocol.keeps_nil ⟨hw, hI⟩) hadm

end ControlPlane
end Cococoir
