import Cococoir.Concurrency.Prog

/-!
# Handlers served concurrently

A server runs one program per call it has accepted, and the scheduler picks, again and
again, which of them issues its next command.  A configuration is the shared state
together with every program accepted so far; each keeps the log of the commands it has
issued and the responses it got, so what a caller has been told and what a handler has
read can be said about a configuration.

* `Conf.next`: one scheduler event, either a new call or one command of one thread.
* `Conf.run`, `Conf.Admissible`: whole schedules, and schedules whose every event
  meets a condition on the configuration it is taken in.
* `Conf.run_invariant`: what every admitted event keeps, every admitted schedule keeps.
* `Conf.run_frame`: what no command of the calls changes, no schedule of them changes.
* `Served`: the sequential server, one call at a time, and `Served.exists_run`: a
  sequential service is one of the schedules.
-/

namespace Cococoir
namespace Concurrency

variable {Call C : Type} {R : C → Type} {W Ch ε α : Type}

/-- One accepted call: its arguments, what it has issued and been answered so far, and
what is left of its program. -/
structure Thread (Call C : Type) (R : C → Type) (ε α : Type) where
  /-- The call that started the thread. -/
  call : Call
  /-- The commands issued so far, oldest first, each with its response. -/
  log : List (Σ c : C, R c)
  /-- The rest of the program. -/
  prog : Prog C R ε α

/-- What the call returned, once it has. -/
def Thread.result (t : Thread Call C R ε α) : Option (Outcome ε α) :=
  match t.prog with
  | .done o => some o
  | .cmd _ _ => none

/-- The command the thread issues next, if it is not done. -/
def Thread.pending (t : Thread Call C R ε α) : Option C :=
  match t.prog with
  | .done _ => none
  | .cmd c _ => some c

/-- The thread after its next command was answered `r`. -/
def Thread.resume (t : Thread Call C R ε α) (c : C) (k : R c → Prog C R ε α) (r : R c) :
    Thread Call C R ε α :=
  ⟨t.call, t.log ++ [⟨c, r⟩], k r⟩

theorem Thread.result_eq_some {t : Thread Call C R ε α} {o : Outcome ε α} :
    t.result = some o ↔ t.prog = .done o := by
  cases h : t.prog <;> simp [Thread.result, h]

/-- The shared state and every call accepted so far. -/
structure Conf (W Call C : Type) (R : C → Type) (ε α : Type) where
  /-- The shared state. -/
  world : W
  /-- The accepted calls, oldest first. -/
  pool : List (Thread Call C R ε α)

/-- What the scheduler does next: accept a call, or let thread `i` issue one command
under the environment's choice `ch`. -/
inductive Event (Call Ch : Type) : Type where
  | start (call : Call) : Event Call Ch
  | step (i : ℕ) (ch : Ch) : Event Call Ch

namespace Conf

variable (exec : Ch → (c : C) → W → R c × W) (body : Call → Prog C R ε α)

/-- One event.  A step of a thread that does not exist or is done changes nothing. -/
def next (σ : Conf W Call C R ε α) : Event Call Ch → Conf W Call C R ε α
  | .start call => ⟨σ.world, σ.pool ++ [⟨call, [], body call⟩]⟩
  | .step i ch =>
    match σ.pool[i]? with
    | none => σ
    | some t =>
      match t.prog with
      | .done _ => σ
      | .cmd c k =>
        ⟨(exec ch c σ.world).2, σ.pool.set i (t.resume c k (exec ch c σ.world).1)⟩

/-- A whole schedule. -/
def run (σ : Conf W Call C R ε α) (evs : List (Event Call Ch)) : Conf W Call C R ε α :=
  evs.foldl (next exec body) σ

/-- Every event of the schedule meets `allowed` in the configuration it is taken in. -/
def Admissible (allowed : Conf W Call C R ε α → Event Call Ch → Prop) :
    Conf W Call C R ε α → List (Event Call Ch) → Prop
  | _, [] => True
  | σ, e :: evs => allowed σ e ∧ Admissible allowed (next exec body σ e) evs

/-- Whether a schedule is admissible is computed by running it. -/
instance decidableAdmissible {allowed : Conf W Call C R ε α → Event Call Ch → Prop}
    [∀ σ e, Decidable (allowed σ e)] :
    ∀ σ evs, Decidable (Admissible exec body allowed σ evs)
  | _, [] => isTrue trivial
  | σ, e :: evs =>
    @instDecidableAnd _ _ _ (decidableAdmissible (next exec body σ e) evs)

variable {exec body} {allowed : Conf W Call C R ε α → Event Call Ch → Prop}
variable {σ : Conf W Call C R ε α} {evs evs' : List (Event Call Ch)}

@[simp] theorem run_nil : run exec body σ [] = σ := rfl

@[simp] theorem run_cons {e : Event Call Ch} :
    run exec body σ (e :: evs) = run exec body (next exec body σ e) evs := rfl

theorem run_append : run exec body σ (evs ++ evs') =
    run exec body (run exec body σ evs) evs' := List.foldl_append

theorem next_start {call : Call} : next exec body σ (.start call : Event Call Ch) =
    ⟨σ.world, σ.pool ++ [⟨call, [], body call⟩]⟩ := rfl

theorem next_step {i : ℕ} {ch : Ch} {t : Thread Call C R ε α} {c : C} {k : R c → Prog C R ε α}
    (hi : σ.pool[i]? = some t) (ht : t.prog = .cmd c k) :
    next exec body σ (.step i ch) =
      ⟨(exec ch c σ.world).2, σ.pool.set i (t.resume c k (exec ch c σ.world).1)⟩ := by
  simp only [next, hi, ht]

/-- A step either is a command of an unfinished thread or changes nothing. -/
theorem next_step_cases (σ : Conf W Call C R ε α) (i : ℕ) (ch : Ch) :
    next exec body σ (.step i ch) = σ ∨
      ∃ t c k, σ.pool[i]? = some t ∧ t.prog = .cmd c k ∧
        next exec body σ (.step i ch) =
          ⟨(exec ch c σ.world).2, σ.pool.set i (t.resume c k (exec ch c σ.world).1)⟩ := by
  cases hi : σ.pool[i]? with
  | none =>
    left
    simp only [next, hi]
  | some t =>
    cases ht : t.prog with
    | done o =>
      left
      simp only [next, hi, ht]
    | cmd c k => exact Or.inr ⟨t, c, k, rfl, ht, next_step hi ht⟩

theorem admissible_append :
    Admissible exec body allowed σ (evs ++ evs') ↔
      Admissible exec body allowed σ evs ∧
        Admissible exec body allowed (run exec body σ evs) evs' := by
  induction evs generalizing σ with
  | nil => simp [Admissible]
  | cons e evs ih =>
    simp only [List.cons_append, Admissible, run_cons, ih, and_assoc]

theorem admissible_of_forall (hall : ∀ σ e, allowed σ e) : Admissible exec body allowed σ evs := by
  induction evs generalizing σ with
  | nil => trivial
  | cons e evs ih => exact ⟨hall _ _, ih⟩

theorem Admissible.mono {allowed' : Conf W Call C R ε α → Event Call Ch → Prop}
    (hall : ∀ σ e, allowed σ e → allowed' σ e) (h : Admissible exec body allowed σ evs) :
    Admissible exec body allowed' σ evs := by
  induction evs generalizing σ with
  | nil => trivial
  | cons e evs ih => exact ⟨hall _ _ h.1, ih h.2⟩

/-- Two conditions that a schedule meets it meets together. -/
theorem Admissible.and {allowed' : Conf W Call C R ε α → Event Call Ch → Prop}
    (h : Admissible exec body allowed σ evs) (h' : Admissible exec body allowed' σ evs) :
    Admissible exec body (fun σ e => allowed σ e ∧ allowed' σ e) σ evs := by
  induction evs generalizing σ with
  | nil => trivial
  | cons e evs ih => exact ⟨⟨h.1, h'.1⟩, ih h.2 h'.2⟩

/-- A condition that every event meets may be added. -/
theorem Admissible.and_mem {Q : Event Call Ch → Prop} (hQ : ∀ e ∈ evs, Q e)
    (h : Admissible exec body allowed σ evs) :
    Admissible exec body (fun σ e => allowed σ e ∧ Q e) σ evs := by
  induction evs generalizing σ with
  | nil => trivial
  | cons e evs ih =>
    exact ⟨⟨h.1, hQ e List.mem_cons_self⟩, ih (fun e' he' => hQ e' (List.mem_cons_of_mem e he')) h.2⟩

/-- A condition that an invariant gives may be added. -/
theorem Admissible.strengthen {allowed' : Conf W Call C R ε α → Event Call Ch → Prop}
    (Inv : Conf W Call C R ε α → Prop)
    (hnext : ∀ σ e, Inv σ → allowed σ e → allowed' σ e ∧ Inv (next exec body σ e))
    (hσ : Inv σ) (h : Admissible exec body allowed σ evs) :
    Admissible exec body allowed' σ evs := by
  induction evs generalizing σ with
  | nil => trivial
  | cons e evs ih =>
    obtain ⟨he, hinv⟩ := hnext σ e hσ h.1
    exact ⟨he, ih hinv h.2⟩

/-- **The invariant rule.**  What every admitted event keeps, every admitted schedule
keeps. -/
theorem run_invariant (Inv : Conf W Call C R ε α → Prop)
    (hnext : ∀ σ e, Inv σ → allowed σ e → Inv (next exec body σ e))
    (hσ : Inv σ) (hadm : Admissible exec body allowed σ evs) : Inv (run exec body σ evs) := by
  induction evs generalizing σ with
  | nil => exact hσ
  | cons e evs ih => exact ih (hnext σ e hσ hadm.1) hadm.2

/-- **The frame rule.**  What every command that the started calls can issue keeps, their schedule
keeps. -/
theorem run_frame (Keeps : W → Prop) {Q : Call → Prop} {S : C → Prop}
    (hbody : ∀ call, Q call → (body call).All S)
    (hexec : ∀ ch c w, S c → Keeps w → Keeps (exec ch c w).2)
    (hstart : ∀ call, .start call ∈ evs → Q call) (hpool : ∀ t ∈ σ.pool, t.prog.All S)
    (hw : Keeps σ.world) : Keeps (run exec body σ evs).world := by
  induction evs generalizing σ with
  | nil => exact hw
  | cons e evs ih =>
    have hrest : ∀ call, .start call ∈ evs → Q call :=
      fun call h => hstart call (List.mem_cons_of_mem e h)
    rw [run_cons]
    cases e with
    | start call =>
      refine ih hrest (fun t ht => ?_) hw
      rcases List.mem_append.mp ht with ht | ht
      · exact hpool t ht
      · rw [List.mem_singleton.mp ht]
        exact hbody call (hstart call List.mem_cons_self)
    | step i ch =>
      rcases next_step_cases σ i ch with hsame | ⟨t, c, k, hi, ht, hnext⟩
      · rw [hsame]
        exact ih hrest hpool hw
      · have hall := hpool t (List.mem_of_getElem? hi)
        rw [ht] at hall
        rw [hnext]
        refine ih hrest (fun t' ht' => ?_) (hexec ch c _ hall.1 hw)
        rcases List.mem_or_eq_of_mem_set ht' with ht' | rfl
        · exact hpool t' ht'
        · exact hall.2 _

end Conf

/-! ## The sequential server -/

/-- `Served serves w₀ hist w`: serving the calls of `hist` one after another from `w₀`, each
alone and as `serves` says, gave the replies of `hist` and left `w`. -/
inductive Served (serves : W → Call → Outcome ε α → W → Prop) (w₀ : W) :
    List (Call × Outcome ε α) → W → Prop
  | nil : Served serves w₀ [] w₀
  | snoc {hist : List (Call × Outcome ε α)} {w w' : W} {call : Call} {o : Outcome ε α}
      (before : Served serves w₀ hist w) (served : serves w call o w') :
      Served serves w₀ (hist ++ [(call, o)]) w'

section Serving

variable {serves serves' : W → Call → Outcome ε α → W → Prop} {w₀ w w' : W}
  {hist hist' : List (Call × Outcome ε α)}

/-- **The invariant rule.**  What every call keeps, every service keeps. -/
theorem Served.invariant (Inv : W → Prop) (h₀ : Inv w₀)
    (hstep : ∀ w call o w', Inv w → serves w call o w' → Inv w')
    (h : Served serves w₀ hist w) : Inv w := by
  induction h with
  | nil => exact h₀
  | snoc _ hserved ih => exact hstep _ _ _ _ ih hserved

theorem Served.mono (hserves : ∀ w call o w', serves w call o w' → serves' w call o w')
    (h : Served serves w₀ hist w) : Served serves' w₀ hist w := by
  induction h with
  | nil => exact .nil
  | snoc _ hserved ih => exact .snoc ih (hserves _ _ _ _ hserved)

theorem Served.append (h : Served serves w₀ hist w) (h' : Served serves w hist' w') :
    Served serves w₀ (hist ++ hist') w' := by
  induction h' with
  | nil => rwa [List.append_nil]
  | snoc _ hserved ih =>
    rw [← List.append_assoc]
    exact .snoc ih hserved

/-- A service is divided at any of its calls. -/
theorem Served.split (h : Served serves w₀ (hist ++ hist') w) :
    ∃ w₁, Served serves w₀ hist w₁ ∧ Served serves w₁ hist' w := by
  generalize hall : hist ++ hist' = all at h
  induction h generalizing hist' with
  | nil =>
    obtain ⟨rfl, rfl⟩ := List.append_eq_nil_iff.mp hall
    exact ⟨w₀, .nil, .nil⟩
  | @snoc before u u' call o hbefore hserved ih =>
    rcases List.eq_nil_or_concat' hist' with rfl | ⟨init, last, rfl⟩
    · rw [List.append_nil] at hall
      exact ⟨u', hall ▸ .snoc hbefore hserved, .nil⟩
    · rw [← List.append_assoc] at hall
      obtain ⟨hinit, hlast⟩ := List.append_inj' hall rfl
      obtain ⟨w₁, h₁, h₂⟩ := ih hinit
      rw [List.singleton_inj.mp hlast]
      exact ⟨w₁, h₁, .snoc h₂ hserved⟩

/-- What a service brought about, one of its calls brought about. -/
theorem Served.exists_change {Q : W → Prop} (h : Served serves w₀ hist w) (hbefore : ¬Q w₀)
    (hafter : Q w) : ∃ before call o after u u', hist = before ++ (call, o) :: after ∧
      Served serves w₀ before u ∧ serves u call o u' ∧ Served serves u' after w ∧ ¬Q u ∧ Q u' := by
  induction h with
  | nil => exact absurd hafter hbefore
  | @snoc before u u' call o hserved hlast ih =>
    by_cases hu : Q u
    · obtain ⟨b, c, o', a, v, v', rfl, h₁, h₂, h₃, hv, hv'⟩ := ih hu
      exact ⟨b, c, o', a ++ [(call, o)], v, v', by simp, h₁, h₂, .snoc h₃ hlast, hv, hv'⟩
    · exact ⟨before, call, o, [], u, u', rfl, hserved, hlast, .nil, hu, hafter⟩

/-- The last call of a service. -/
theorem Served.last {call : Call} {o : Outcome ε α}
    (h : Served serves w₀ (hist ++ [(call, o)]) w) :
    ∃ w₁, Served serves w₀ hist w₁ ∧ serves w₁ call o w := by
  generalize hall : hist ++ [(call, o)] = all at h
  cases h with
  | nil => simp at hall
  | snoc hbefore hserved =>
    obtain ⟨rfl, hlast⟩ := List.append_inj' hall rfl
    cases List.singleton_inj.mp hlast
    exact ⟨_, hbefore, hserved⟩

end Serving

variable {exec : Ch → (c : C) → W → R c × W} {good : C → Ch → Prop}
  {body : Call → Prog C R ε α}

/-- Running the last thread of a pool to the end is a schedule. -/
theorem Prog.Runs.exists_run {p : Prog C R ε α} {w w' : W} {o : Outcome ε α}
    (h : p.Runs exec good w o w') (pool : List (Thread Call C R ε α)) (call : Call)
    (log : List (Σ c : C, R c)) :
    ∃ (evs : List (Event Call Ch)) (log' : List (Σ c : C, R c)),
      Conf.run exec body ⟨w, pool ++ [⟨call, log, p⟩]⟩ evs =
        ⟨w', pool ++ [⟨call, log', .done o⟩]⟩ := by
  induction p generalizing w log with
  | done o' =>
    obtain ⟨rfl, rfl⟩ := h
    exact ⟨[], log, rfl⟩
  | cmd c k ih =>
    obtain ⟨ch, -, h⟩ := h
    obtain ⟨evs, log', hrun⟩ := ih _ h (log ++ [⟨c, (exec ch c w).1⟩])
    refine ⟨.step pool.length ch :: evs, log', ?_⟩
    have hi : (pool ++ [(⟨call, log, .cmd c k⟩ : Thread Call C R ε α)])[pool.length]? =
        some ⟨call, log, .cmd c k⟩ := by simp
    rw [Conf.run_cons, Conf.next_step hi rfl, ← hrun]
    simp [Thread.resume]

/-- **A sequential service is a schedule**: the calls it served, in order, with the
replies it gave. -/
theorem Served.exists_run {serves : W → Call → Outcome ε α → W → Prop} {w₀ w : W}
    {hist : List (Call × Outcome ε α)} (h : Served serves w₀ hist w)
    (hserves : ∀ w call o w', serves w call o w' →
      (body call).Runs exec (fun _ _ => True) w o w') :
    ∃ (evs : List (Event Call Ch)) (pool : List (Thread Call C R ε α)),
      Conf.run exec body ⟨w₀, []⟩ evs = ⟨w, pool⟩ ∧
        pool.map (fun t => (t.call, t.result)) = hist.map fun x => (x.1, some x.2) := by
  induction h with
  | nil => exact ⟨[], [], rfl, rfl⟩
  | @snoc hist w w' call o _ hserved ih =>
    obtain ⟨evs, pool, hrun, hpool⟩ := ih
    obtain ⟨evs', log', hrun'⟩ := (hserves w call o w' hserved).exists_run pool call []
    refine ⟨evs ++ .start call :: evs', pool ++ [⟨call, log', .done o⟩], ?_, ?_⟩
    · rw [Conf.run_append, hrun, Conf.run_cons, Conf.next_start, hrun']
    · rw [List.map_append, List.map_append, hpool]
      rfl

end Concurrency
end Cococoir
