import Cococoir.ControlPlane.Calls

/-!
# Operations running alone

Most results about one operation are about the operation alone: what it leaves behind when nobody
else is at work.  Its run is then big step, `Prog.Runs`: the program goes from a world to a world
and an outcome, and the environment chooses at every command.  This module is where such runs are
taken apart.

## One command at a time

A program is a command and what it does with the response.  For each kind of command there is a
lemma that says what a run of `command >>= f` is: for Redis, either the command went through and
the run is one of `f` on its response, or it failed and the run ended with that error and left the
world alone (`runs_redis`).  Where Redis is taken to be there, the second case is gone
(`runs_redis_reliable`), and the operations become straight-line code.  A peer, a listener, a
mail, random bytes and a DNS program have a lemma each, which says what part of the world they
change.

Everything later rewrites with these lemmas from the first command of a program to its last, and a
proof about an operation follows the operation's own text.

## The machine list

Several operations read the machine list, so its run is stated once.  `machineAt` is the record
under a name as a function of the world, `listed` are the records in allocation order, and a list
that is returned is just that (`ok_list`).  It can fail for one reason apart from Redis, a record
that does not decode; under `Decodes` it does not.
-/

namespace Cococoir
namespace ControlPlane

open Concurrency

variable {ε α β : Type} [FromRedis ε] {good : Cmd → Choice → Prop} {w w' : World}

/-! ## Redis commands -/

/-- A run that begins with a Redis command: it succeeded, or the run ended there. -/
theorem runs_redis {op : RedisOp} {f : op.Resp → Edge ε α} {o : Outcome ε α} :
    (redis op >>= f).Runs Cmd.exec good w o w' ↔
      (∃ ch, good (.redis op) ch ∧ ch.fails = false ∧
        (f (op.exec w).1).Runs Cmd.exec good (op.exec w).2 o w') ∨
      ∃ ch, good (.redis op) ch ∧ ch.fails = true ∧
        o = .err (FromRedis.ofRedis (.server ch.text)) ∧ w' = w := by
  constructor
  · rintro ⟨ch, hch, h⟩
    cases hf : ch.fails with
    | false =>
      rw [exec_redis_of_not_fails hf] at h
      exact Or.inl ⟨ch, hch, hf, h⟩
    | true =>
      rw [exec_redis_of_fails hf] at h
      exact Or.inr ⟨ch, hch, hf, h⟩
  · rintro (⟨ch, hch, hf, h⟩ | ⟨ch, hch, hf, h⟩)
    · refine ⟨ch, hch, ?_⟩
      rw [exec_redis_of_not_fails hf]
      exact h
    · refine ⟨ch, hch, ?_⟩
      rw [exec_redis_of_fails hf]
      exact h

theorem runs_redis_last {op : RedisOp} {o : Outcome ε op.Resp} :
    (redis op).Runs Cmd.exec good w o w' ↔
      (∃ ch, good (.redis op) ch ∧ ch.fails = false ∧ o = .ok (op.exec w).1 ∧
        w' = (op.exec w).2) ∨
      ∃ ch, good (.redis op) ch ∧ ch.fails = true ∧
        o = .err (FromRedis.ofRedis (.server ch.text)) ∧ w' = w := by
  rw [← Prog.bind_pure (redis op), runs_redis]
  rfl

/-- A run that goes on was not stopped by the command. -/
theorem ok_of_runs_redis {op : RedisOp} {f : op.Resp → Edge ε α} {a : α}
    (h : (redis op >>= f).Runs Cmd.exec good w (.ok a) w') :
    (f (op.exec w).1).Runs Cmd.exec good (op.exec w).2 (.ok a) w' := by
  rw [runs_redis] at h
  rcases h with ⟨-, -, -, h⟩ | ⟨_, -, -, h, -⟩
  · exact h
  · cases h

/-- Without failures, a Redis command is a step of the run. -/
theorem runs_redis_reliable {op : RedisOp} {f : op.Resp → Edge ε α} {o : Outcome ε α} :
    (redis op >>= f).Runs Cmd.exec Reliable w o w' ↔
      (f (op.exec w).1).Runs Cmd.exec Reliable (op.exec w).2 o w' := by
  rw [runs_redis]
  constructor
  · rintro (⟨-, -, -, h⟩ | ⟨ch, hch, hf, -⟩)
    · exact h
    · rw [show ch.fails = false from hch] at hf
      cases hf
  · intro h
    exact Or.inl ⟨{}, rfl, rfl, h⟩

theorem runs_redis_last_reliable {op : RedisOp} {o : Outcome ε op.Resp} :
    (redis op).Runs Cmd.exec Reliable w o w' ↔ o = .ok (op.exec w).1 ∧ w' = (op.exec w).2 := by
  rw [← Prog.bind_pure (redis op), runs_redis_reliable]
  rfl

section Computed

variable {ε α β W Ch : Type} {exec : Ch → (c : Cmd) → W → c.Resp × W} {good : Cmd → Ch → Prop}
  {s s' : W}

theorem runs_ofExcept {x : Except ε α} {f : α → Edge ε β} {o : Outcome ε β} :
    (Prog.ofExcept x >>= f).Runs exec good s o s' ↔
      (∃ a, x = .ok a ∧ (f a).Runs exec good s o s') ∨
      ∃ e, x = .error e ∧ o = .err e ∧ s' = s := by
  cases x with
  | ok a => simp
  | error e => simp

theorem runs_expect {msg : String} {x : Option α} {f : α → Edge ε β} {o : Outcome ε β} :
    (Prog.expect msg x >>= f).Runs exec good s o s' ↔
      (∃ a, x = some a ∧ (f a).Runs exec good s o s') ∨
      (x = none ∧ o = .panic msg ∧ s' = s) := by
  cases x with
  | some a => simp
  | none => simp

end Computed

/-! ## The other commands -/

section Outside

variable {ε α : Type} {w w' : World} {o : Outcome ε α}

theorem runs_tryRedis {op : RedisOp} {f : Except RedisError op.Resp → Edge ε α} :
    (tryRedis op >>= f).Runs Cmd.exec Reliable w o w' ↔
      (f (.ok (op.exec w).1)).Runs Cmd.exec Reliable (op.exec w).2 o w' := by
  constructor
  · rintro ⟨ch, hch, h⟩
    rw [exec_redis_of_not_fails hch] at h
    exact h
  · intro h
    exact ⟨{}, rfl, h⟩

theorem runs_addPeer {ip key : String} {f : Except WgError Unit → Edge ε α} :
    (addPeer ip key >>= f).Runs Cmd.exec Reliable w o w' ↔
      (f (.ok ())).Runs Cmd.exec Reliable { w with peers := setPeer w.peers ip key } o w' := by
  constructor
  · rintro ⟨ch, hch, h⟩
    rw [Cmd.exec, if_neg (by rw [show ch.fails = false from hch]; simp)] at h
    exact h
  · intro h
    exact ⟨{}, rfl, h⟩

theorem runs_removePeer {key : String} {f : Except WgError Unit → Edge ε α} :
    (removePeer key >>= f).Runs Cmd.exec Reliable w o w' ↔
      (f (.ok ())).Runs Cmd.exec Reliable { w with peers := Function.update w.peers key none } o
        w' := by
  constructor
  · rintro ⟨ch, hch, h⟩
    rw [Cmd.exec, if_neg (by rw [show ch.fails = false from hch]; simp)] at h
    exact h
  · intro h
    exact ⟨{}, rfl, h⟩

theorem runs_removeForward {good : Cmd → Choice → Prop} (hgood : ∀ fwd ch, good (.removeForward fwd) ch)
    {fwd : Forward} {f : Bool → Edge ε α} :
    (removeForward fwd >>= f).Runs Cmd.exec good w o w' ↔
      (f (w.forwards (forwardKey fwd)).isSome).Runs Cmd.exec good
        { w with forwards := Function.update w.forwards (forwardKey fwd) none } o w' :=
  ⟨fun ⟨_, _, h⟩ => h, fun h => ⟨{}, hgood _ _, h⟩⟩

/-- A bind: nothing to do, or it succeeds, or it fails. -/
theorem runs_addForward {good : Cmd → Choice → Prop} (hgood : ∀ fwd ch, good (.addForward fwd) ch)
    {fwd : Forward} {f : Except String Unit → Edge ε α} :
    (addForward fwd >>= f).Runs Cmd.exec good w o w' ↔
      ((w.forwards (forwardKey fwd)).isSome ∧ (f (.ok ())).Runs Cmd.exec good w o w') ∨
      (w.forwards (forwardKey fwd) = none ∧
        ((f (.ok ())).Runs Cmd.exec good
            { w with forwards := Function.update w.forwards (forwardKey fwd) (some fwd) } o w' ∨
          ∃ text : String, (f (.error s!"forwarder: start {fwd.proto} {fwd.listenAddr}: {text}")).Runs
            Cmd.exec good w o w')) := by
  cases hlive : w.forwards (forwardKey fwd) with
  | some x =>
    constructor
    · rintro ⟨ch, -, h⟩
      simp only [Cmd.exec, hlive, Option.isSome_some, if_true] at h
      exact Or.inl ⟨rfl, h⟩
    · rintro (⟨-, h⟩ | ⟨h, -⟩)
      · refine ⟨{}, hgood _ _, ?_⟩
        simp only [Cmd.exec, hlive, Option.isSome_some, if_true]
        exact h
      · cases h
  | none =>
    constructor
    · rintro ⟨ch, -, h⟩
      cases hf : ch.fails with
      | false =>
        simp [Cmd.exec, hlive, hf] at h
        exact Or.inr ⟨rfl, Or.inl h⟩
      | true =>
        simp only [Cmd.exec, hlive, hf, Option.isSome_none, Bool.false_eq_true, if_true,
          if_false] at h
        exact Or.inr ⟨rfl, Or.inr ⟨ch.text, h⟩⟩
    · rintro (⟨h, -⟩ | ⟨-, h | ⟨text, h⟩⟩)
      · cases h
      · refine ⟨{}, hgood _ _, ?_⟩
        simp [Cmd.exec, hlive]
        exact h
      · refine ⟨{ fails := true, text := text }, hgood _ _, ?_⟩
        simp only [Cmd.exec, hlive, Option.isSome_none, Bool.false_eq_true, if_true, if_false]
        exact h

/-- Random bytes leave the world. -/
theorem runs_fillBytes {good : Cmd → Choice → Prop} {n : ℕ}
    {f : {bytes : List UInt8 // bytes.length = n} → Edge ε α}
    (h : (fillBytes n >>= f).Runs Cmd.exec good w o w') :
    ∃ bytes, (f bytes).Runs Cmd.exec good w o w' := by
  obtain ⟨ch, -, h⟩ := h
  exact ⟨_, h⟩

/-- The token that the generator's bytes give. -/
def IsToken (token : String) : Prop := ∃ bytes : List UInt8, bytes.length = 32 ∧ token = hexEncode bytes

theorem runs_randomTokenHex {good : Cmd → Choice → Prop} {f : String → Edge ε α}
    (h : (randomTokenHex >>= f).Runs Cmd.exec good w o w') :
    ∃ token, IsToken token ∧ (f token).Runs Cmd.exec good w o w' := by
  obtain ⟨bytes, hrun⟩ := runs_fillBytes h
  exact ⟨_, ⟨bytes.1, bytes.2, rfl⟩, hrun⟩

/-- A mail that is sent or not leaves the world. -/
theorem runs_send {good : Cmd → Choice → Prop} {recipient subject text : String}
    {f : Except String Unit → Edge ε α}
    (h : (send recipient subject text >>= f).Runs Cmd.exec good w o w') :
    ∃ sent, (f sent).Runs Cmd.exec good w o w' := by
  obtain ⟨ch, -, h⟩ := h
  cases hf : ch.fails with
  | false =>
    rw [Cmd.exec, if_neg (by rw [hf]; simp)] at h
    exact ⟨_, h⟩
  | true =>
    rw [Cmd.exec, if_pos hf] at h
    exact ⟨_, h⟩

/-- A DNS program changes the zone and nothing else. -/
theorem runs_dns {p : Edge ε α} (hp : p.All fun c => (∃ n a, c = .upsertAaaa n a) ∨
    ∃ n, c = .removeAaaa n) {good : Cmd → Choice → Prop} (h : p.Runs Cmd.exec good w o w') :
    ∃ dns, w' = { w with dns := dns } := by
  refine hp.runs_frame (fun w w' => ∃ dns, w' = { w with dns := dns }) (fun w => ⟨w.dns, rfl⟩)
    (fun ⟨_, h⟩ ⟨dns, h'⟩ => ⟨dns, by rw [h', h]⟩) (fun c ch w hc => ?_) h
  rcases hc with ⟨n, a, rfl⟩ | ⟨n, rfl⟩
  · cases hf : ch.fails
    · exact ⟨_, by simp [Cmd.exec, hf]; rfl⟩
    · exact ⟨w.dns, by simp [Cmd.exec, hf]⟩
  · cases hf : ch.fails
    · exact ⟨_, by simp [Cmd.exec, hf]; rfl⟩
    · exact ⟨w.dns, by simp [Cmd.exec, hf]⟩

end Outside

/-! ## The machine list -/

/-- The record stored under a name, if it decodes. -/
def machineAt (w : World) (n : String) : Option Machine :=
  match w.machines n with
  | some (.json m) => some m
  | _ => none

theorem machineAt_eq_some {n : String} {m : Machine} :
    machineAt w n = some m ↔ w.machines n = some (.json m) := by
  unfold machineAt
  split
  · rename_i m' h
    rw [h]
    simp
  · rename_i h
    constructor
    · intro h'
      cases h'
    · intro h'
      exact absurd h' (h m)

/-- The stored machines in allocation order. -/
def listed (w : World) : List Machine := w.index.filterMap (machineAt w)

/-- Every listed record decodes. -/
def Decodes (w : World) : Prop := ∀ n ∈ w.index, ∀ text err, w.machines n ≠ some (.corrupt text err)

theorem ok_listFrom {names : List String} {ms : List Machine}
    (h : (listFrom names).Runs Cmd.exec good w (.ok ms) w') :
    w' = w ∧ ms = names.filterMap (machineAt w) := by
  induction names generalizing ms w' with
  | nil =>
    obtain ⟨h, rfl⟩ := h
    cases h
    exact ⟨rfl, rfl⟩
  | cons n names ih =>
    have h := ok_of_runs_redis h
    rw [exec_machine_get] at h
    match hn : w.machines n with
    | none =>
      rw [hn] at h
      rw [List.filterMap_cons_none (by simp [machineAt, hn])]
      exact ih h
    | some (.corrupt text err) =>
      rw [hn] at h
      obtain ⟨h, -⟩ := h
      cases h
    | some (.json m) =>
      rw [hn] at h
      rw [List.filterMap_cons_some (machineAt_eq_some.mpr hn)]
      simp only [machineFromJson, Prog.ofExcept_ok, Prog.pure_bind, Prog.runs_bind] at h
      rcases h with ⟨ms', w₁, hrec, h⟩ | ⟨e, -, h⟩ | ⟨msg, -, h⟩
      · obtain ⟨rfl, rfl⟩ := ih hrec
        obtain ⟨h, rfl⟩ := h
        cases h
        exact ⟨rfl, rfl⟩
      · cases h
      · cases h

/-- A list that is returned is the machine list. -/
theorem ok_list {ms : List Machine} (h : list.Runs Cmd.exec good w (.ok ms) w') :
    w' = w ∧ ms = listed w := ok_listFrom (ok_of_runs_redis h)

theorem onlyRedis_listFrom {names : List String} : (listFrom names).All fun c => ∃ op, c = .redis op := by
  induction names with
  | nil => trivial
  | cons n names ih =>
    refine ⟨⟨_, rfl⟩, fun r => ?_⟩
    match r with
    | .error e => trivial
    | .ok none => exact ih
    | .ok (some json) => exact (Prog.all_ofExcept _).bind fun _ => ih.bind fun _ => trivial

/-- Listing goes to Redis only. -/
theorem onlyRedis_list : list.All fun c => ∃ op, c = .redis op := by
  refine ⟨⟨_, rfl⟩, fun r => ?_⟩
  cases r with
  | error e => trivial
  | ok names => exact onlyRedis_listFrom

theorem runs_listFrom {names : List String} {o : Outcome ControlPlaneError (List Machine)}
    (hdec : ∀ n ∈ names, ∀ text err, w.machines n ≠ some (.corrupt text err)) :
    (listFrom names).Runs Cmd.exec Reliable w o w' ↔
      o = .ok (names.filterMap (machineAt w)) ∧ w' = w := by
  induction names generalizing o w' with
  | nil => exact Iff.rfl
  | cons n names ih =>
    have ih : ∀ {o w'}, (listFrom names).Runs Cmd.exec Reliable w o w' ↔
        o = .ok (names.filterMap (machineAt w)) ∧ w' = w :=
      ih fun n' hn' => hdec n' (List.mem_cons_of_mem n hn')
    rw [listFrom, runs_redis_reliable, exec_machine_get]
    match hn : w.machines n with
    | none =>
      rw [List.filterMap_cons_none (by simp [machineAt, hn])]
      exact ih
    | some (.corrupt text err) => exact absurd hn (hdec n List.mem_cons_self text err)
    | some (.json m) =>
      rw [List.filterMap_cons_some (machineAt_eq_some.mpr hn)]
      simp only [machineFromJson, Prog.ofExcept_ok, Prog.pure_bind, Prog.runs_bind, ih,
        Prog.runs_pure]
      constructor
      · rintro (⟨ms, w₁, ⟨hms, rfl⟩, rfl, rfl⟩ | ⟨e, ⟨h, -⟩, -⟩ | ⟨msg, ⟨h, -⟩, -⟩)
        · cases hms
          exact ⟨rfl, rfl⟩
        · cases h
        · cases h
      · rintro ⟨rfl, rfl⟩
        exact Or.inl ⟨_, _, ⟨rfl, rfl⟩, rfl, rfl⟩

/-- **Listing**, when nothing fails. -/
theorem runs_list {o : Outcome ControlPlaneError (List Machine)} (hdec : Decodes w) :
    list.Runs Cmd.exec Reliable w o w' ↔ o = .ok (listed w) ∧ w' = w := by
  rw [list, runs_redis_reliable, exec_index_lrange]
  exact runs_listFrom hdec

end ControlPlane
end Cococoir
