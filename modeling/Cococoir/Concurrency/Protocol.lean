import Cococoir.Concurrency.Pool
import Cococoir.Concurrency.Steps
import Mathlib.Algebra.BigOperators.Group.List.Basic
import Mathlib.Tactic.Ring

/-!
# Typestate protocols

An argument about concurrent handlers never needs the text of their programs, only
which commands they may issue next given what they have been answered so far.  A
`Protocol` records that: a local state for every thread, how a response moves it, and
which commands it permits.  A program `Conforms` when it never issues a command its
local state does not permit, whatever it is answered; this is checked once per program,
by unfolding it, with no shared state in sight.

What remains is an argument about the shared state and the list of local states alone:
`Protocol.run_keeps` turns a proof that one permitted command keeps an assertion about
both into the same for every admitted schedule.

## The shape of the rule

`Steps` is what has to be proved: from an assertion about the shared state and the local states,
and a permitted command of one thread that is executed, the assertion for the new shared state and
the list with that one local state moved on; and the same for a new thread.  `Keeps` is what comes
out: the assertion, that every thread's program still conforms from where it is, and that a thread
which has ended has a local state that its outcome allows.  The induction over the schedule is
made here, once.

The lemmas on lists at the end are about a list in which one element was replaced, since that is
what a step does to the local states.
-/

namespace Cococoir
namespace Concurrency

variable {Call C : Type} {R : C → Type} {W Ch L ε ε' α β : Type}

/-- Local states, what a response does to them, the commands they permit, and the
responses that can occur. -/
structure Protocol (Call C : Type) (R : C → Type) (L : Type) where
  /-- The local state of a thread that has just been accepted. -/
  init : Call → L
  /-- The local state after a response. -/
  next : L → (c : C) → R c → L
  /-- The commands a local state permits. -/
  ok : L → C → Prop
  /-- The responses considered. -/
  resp : (c : C) → R c → Prop

namespace Protocol

variable (P : Protocol Call C R L)

/-- The program issues permitted commands only, and when it ends with `o` in local state
`l`, `fin l o` holds. -/
def Conforms (fin : L → Outcome ε α → Prop) : Prog C R ε α → L → Prop
  | .done o, l => fin l o
  | .cmd c k, l => P.ok l c ∧ ∀ r, P.resp c r → Conforms fin (k r) (P.next l c r)

variable {P} {fin fin' : L → Outcome ε α → Prop} {l : L}

@[simp] theorem conforms_done {o : Outcome ε α} :
    P.Conforms fin (.done o) l ↔ fin l o := Iff.rfl

@[simp] theorem conforms_pure {a : α} :
    P.Conforms fin (pure a) l ↔ fin l (.ok a) := Iff.rfl

@[simp] theorem conforms_throw {e : ε} :
    P.Conforms fin (Prog.throw e) l ↔ fin l (.err e) := Iff.rfl

@[simp] theorem conforms_panic {m : String} :
    P.Conforms fin (Prog.panic m) l ↔ fin l (.panic m) := Iff.rfl

@[simp] theorem conforms_cmd {c : C} {k : R c → Prog C R ε α} :
    P.Conforms fin (.cmd c k) l ↔
      P.ok l c ∧ ∀ r, P.resp c r → P.Conforms fin (k r) (P.next l c r) := Iff.rfl

theorem conforms_issue {c : C} {f : R c → Prog C R ε α} :
    P.Conforms fin (Prog.issue c >>= f) l ↔
      P.ok l c ∧ ∀ r, P.resp c r → P.Conforms fin (f r) (P.next l c r) := Iff.rfl

theorem Conforms.mono {p : Prog C R ε α} (hfin : ∀ l o, fin l o → fin' l o)
    (h : P.Conforms fin p l) : P.Conforms fin' p l := by
  induction p generalizing l with
  | done o => exact hfin l o h
  | cmd c k ih => exact ⟨h.1, fun r hr => ih r (h.2 r hr)⟩

/-- **Conformance composes.** -/
theorem Conforms.bind {p : Prog C R ε α} {f : α → Prog C R ε β} {last : L → Outcome ε β → Prop}
    (hp : P.Conforms fin p l) (hok : ∀ l a, fin l (.ok a) → P.Conforms last (f a) l)
    (herr : ∀ l e, fin l (.err e) → last l (.err e))
    (hpanic : ∀ l m, fin l (.panic m) → last l (.panic m)) :
    P.Conforms last (p >>= f) l := by
  induction p generalizing l with
  | done o =>
    cases o with
    | ok a => exact hok l a hp
    | err e => exact herr l e hp
    | panic m => exact hpanic l m hp
  | cmd c k ih => exact ⟨hp.1, fun r hr => ih r (hp.2 r hr)⟩

theorem Conforms.bimap {p : Prog C R ε α} {f : ε → ε'} {g : α → β}
    {last : L → Outcome ε' β → Prop} (hp : P.Conforms fin p l)
    (h : ∀ l o, fin l o → last l (o.bimap f g)) : P.Conforms last (p.bimap f g) l := by
  induction p generalizing l with
  | done o => exact h l o hp
  | cmd c k ih => exact ⟨hp.1, fun r hr => ih r (hp.2 r hr)⟩

/-- Composition with a program whose errors are converted. -/
theorem Conforms.mapErr_bind {p : Prog C R ε α} {g : ε → ε'} {f : α → Prog C R ε' β}
    {last : L → Outcome ε' β → Prop} (hp : P.Conforms fin p l)
    (hok : ∀ l a, fin l (.ok a) → P.Conforms last (f a) l)
    (herr : ∀ l e, fin l (.err e) → last l (.err (g e)))
    (hpanic : ∀ l m, fin l (.panic m) → last l (.panic m)) :
    P.Conforms last (p.mapErr g >>= f) l := by
  induction p generalizing l with
  | done o =>
    cases o with
    | ok a => exact hok l a hp
    | err e => exact herr l e hp
    | panic m => exact hpanic l m hp
  | cmd c k ih => exact ⟨hp.1, fun r hr => ih r (hp.2 r hr)⟩

theorem Conforms.attempt {p : Prog C R ε α} {last : L → Outcome ε' (Except ε α) → Prop}
    (hp : P.Conforms fin p l) (hok : ∀ l a, fin l (.ok a) → last l (.ok (.ok a)))
    (herr : ∀ l e, fin l (.err e) → last l (.ok (.error e)))
    (hpanic : ∀ l m, fin l (.panic m) → last l (.panic m)) :
    P.Conforms last p.attempt l := by
  induction p generalizing l with
  | done o =>
    cases o with
    | ok a => exact hok l a hp
    | err e => exact herr l e hp
    | panic m => exact hpanic l m hp
  | cmd c k ih => exact ⟨hp.1, fun r hr => ih r (hp.2 r hr)⟩

/-- What every response keeps holds at the end. -/
theorem Conforms.stable {p : Prog C R ε α} {Q : L → Prop} (hQ : ∀ l c r, Q l → Q (P.next l c r))
    (hl : Q l) (hp : P.Conforms fin p l) : P.Conforms (fun l' o => fin l' o ∧ Q l') p l := by
  induction p generalizing l with
  | done o => exact ⟨hp, hl⟩
  | cmd c k ih => exact ⟨hp.1, fun r hr => ih r (hQ l c r hl) (hp.2 r hr)⟩

/-- A program whose commands are all permitted and leave the local state alone. -/
theorem Conforms.of_all {p : Prog C R ε α} (hp : p.All fun c => P.ok l c ∧ ∀ r, P.next l c r = l) :
    P.Conforms (fun l' _ => l' = l) p l := by
  induction p with
  | done o => rfl
  | cmd c k ih =>
    refine ⟨hp.1.1, fun r _ => ?_⟩
    rw [hp.1.2 r]
    exact ih r (hp.2 r)

/-! ## Local states in a pool -/

variable (P)

/-- The local state a thread is in: its log, replayed. -/
def state (t : Thread Call C R ε α) : L :=
  t.log.foldl (fun l e => P.next l e.1 e.2) (P.init t.call)

/-- The local states of all threads, oldest first. -/
def states (pool : List (Thread Call C R ε α)) : List L := pool.map P.state

variable {P}

@[simp] theorem state_new {call : Call} {p : Prog C R ε α} :
    P.state (⟨call, [], p⟩ : Thread Call C R ε α) = P.init call := rfl

@[simp] theorem state_resume {t : Thread Call C R ε α} {c : C} {k : R c → Prog C R ε α} {r : R c} :
    P.state (t.resume c k r) = P.next (P.state t) c r := by
  simp [state, Thread.resume, List.foldl_append]

theorem states_append {pool : List (Thread Call C R ε α)} {t : Thread Call C R ε α} :
    P.states (pool ++ [t]) = P.states pool ++ [P.state t] := by
  simp [states]

theorem states_set {pool : List (Thread Call C R ε α)} {i : ℕ} {t : Thread Call C R ε α} :
    P.states (pool.set i t) = (P.states pool).set i (P.state t) := List.map_set ..

theorem getElem?_states {pool : List (Thread Call C R ε α)} {i : ℕ} {t : Thread Call C R ε α}
    (hi : pool[i]? = some t) : (P.states pool)[i]? = some (P.state t) := by
  rw [states, List.getElem?_map, hi]
  rfl

/-- Everything known about a configuration: its threads conform from where they are, and
`I` holds of the shared state and the local states. -/
structure Keeps (P : Protocol Call C R L) (fin : L → Outcome ε α → Prop) (I : W → List L → Prop)
    (σ : Conf W Call C R ε α) : Prop where
  conforms : ∀ t ∈ σ.pool, P.Conforms fin t.prog (P.state t)
  holds : I σ.world (P.states σ.pool)

theorem Keeps.fin_of_result {I : W → List L → Prop} {σ : Conf W Call C R ε α}
    (h : Keeps P fin I σ) {t : Thread Call C R ε α} (ht : t ∈ σ.pool) {o : Outcome ε α}
    (ho : t.result = some o) : fin (P.state t) o := by
  have hc := h.conforms t ht
  rw [Thread.result_eq_some.mp ho] at hc
  exact hc

variable {exec : Ch → (c : C) → W → R c × W} {body : Call → Prog C R ε α}
variable {allowed : Conf W Call C R ε α → Event Call Ch → Prop} {I : W → List L → Prop}

/-- What has to be proved of one event: an accepted call conforms and does not disturb
`I`, and neither does a permitted command of a thread. -/
structure Steps (P : Protocol Call C R L) (exec : Ch → (c : C) → W → R c × W)
    (body : Call → Prog C R ε α) (allowed : Conf W Call C R ε α → Event Call Ch → Prop)
    (fin : L → Outcome ε α → Prop) (I : W → List L → Prop) : Prop where
  conforms : ∀ σ call, allowed σ (.start call) → P.Conforms fin (body call) (P.init call)
  start : ∀ σ call, allowed σ (.start call) → I σ.world (P.states σ.pool) →
    I σ.world (P.states σ.pool ++ [P.init call])
  step : ∀ (σ : Conf W Call C R ε α) (i : ℕ) (ch : Ch) (t : Thread Call C R ε α) (c : C)
    (k : R c → Prog C R ε α), allowed σ (.step i ch) → σ.pool[i]? = some t → t.prog = .cmd c k →
    P.ok (P.state t) c → I σ.world (P.states σ.pool) →
    P.resp c (exec ch c σ.world).1 ∧
      I (exec ch c σ.world).2
        ((P.states σ.pool).set i (P.next (P.state t) c (exec ch c σ.world).1))

theorem Steps.next_keeps (hs : Steps P exec body allowed fin I) {σ : Conf W Call C R ε α}
    {e : Event Call Ch} (hσ : Keeps P fin I σ) (he : allowed σ e) :
    Keeps P fin I (Conf.next exec body σ e) := by
  cases e with
  | start call =>
    rw [Conf.next_start]
    refine ⟨fun t ht => ?_, ?_⟩
    · rcases List.mem_append.mp ht with ht | ht
      · exact hσ.conforms t ht
      · rw [List.mem_singleton.mp ht]
        exact hs.conforms σ call he
    · rw [states_append]
      exact hs.start σ call he hσ.holds
  | step i ch =>
    rcases Conf.next_step_cases σ i ch with
      h | ⟨t, c, k, hi, ht, h⟩
    · rw [h]
      exact hσ
    · have hc := hσ.conforms t (List.mem_of_getElem? hi)
      rw [ht] at hc
      obtain ⟨hresp, hI⟩ := hs.step σ i ch t c k he hi ht hc.1 hσ.holds
      rw [h]
      refine ⟨fun u hu => ?_, ?_⟩
      · rcases List.mem_or_eq_of_mem_set hu with hu | rfl
        · exact hσ.conforms u hu
        · rw [state_resume]
          exact hc.2 _ hresp
      · rw [states_set, state_resume]
        exact hI

/-- **The protocol rule.**  Every admitted schedule keeps what one permitted command
keeps. -/
theorem Steps.run_keeps (hs : Steps P exec body allowed fin I) {σ : Conf W Call C R ε α}
    {evs : List (Event Call Ch)} (hσ : Keeps P fin I σ)
    (hadm : Conf.Admissible exec body allowed σ evs) :
    Keeps P fin I (Conf.run exec body σ evs) :=
  Conf.run_invariant (Keeps P fin I) (fun _ _ h he => hs.next_keeps h he) hσ hadm

theorem keeps_nil {w : W} (h : I w []) : Keeps P fin I (⟨w, []⟩ : Conf W Call C R ε α) :=
  ⟨fun _ ht => absurd ht List.not_mem_nil, h⟩

end Protocol

/-! ## Lists with one entry replaced -/

section Replaced

variable {ls : List L} {i j : ℕ} {l l' m : L}

theorem set_same (h : ls[i]? = some l) : ls.set i l = ls := by
  obtain ⟨hi, rfl⟩ := List.getElem?_eq_some_iff.mp h
  exact List.set_getElem_self hi

theorem getElem?_set_cases (h : (ls.set i l')[j]? = some m) :
    (j = i ∧ m = l') ∨ (j ≠ i ∧ ls[j]? = some m) := by
  by_cases hij : i = j
  · subst hij
    rw [List.getElem?_set_self'] at h
    cases hi : ls[i]? with
    | none => simp [hi] at h
    | some x =>
      simp only [hi, Option.map_eq_map, Option.map_some, Function.const_apply,
        Option.some.injEq] at h
      exact Or.inl ⟨rfl, h.symm⟩
  · rw [List.getElem?_set_ne hij] at h
    exact Or.inr ⟨Ne.symm hij, h⟩

/-- Another entry is there still. -/
theorem mem_set_of_ne (hi : ls[i]? = some l) (hm : m ∈ ls) (hne : m ≠ l) : m ∈ ls.set i l' := by
  obtain ⟨j, hj⟩ := List.getElem?_of_mem hm
  have hij : i ≠ j := by
    rintro rfl
    exact hne (Option.some.inj (hj.symm.trans hi))
  exact List.mem_of_getElem? ((List.getElem?_set_ne hij).trans hj)

/-- Replacing an entry by one with the same property keeps that some entry has it. -/
theorem exists_mem_set {p : L → Prop} (hi : ls[i]? = some l) (hp : p l → p l')
    (h : ∃ x ∈ ls, p x) : ∃ x ∈ ls.set i l', p x := by
  obtain ⟨x, hx, hpx⟩ := h
  obtain ⟨j, hj⟩ := List.getElem?_of_mem hx
  by_cases hij : i = j
  · subst hij
    rw [hi] at hj
    cases hj
    exact ⟨l', List.mem_of_getElem? (List.getElem?_set_self (List.getElem?_eq_some_iff.mp hi).1),
      hp hpx⟩
  · exact ⟨x, List.mem_of_getElem? (by rw [List.getElem?_set_ne hij]; exact hj), hpx⟩

/-- Replacing one entry changes a sum by the difference of the two entries. -/
theorem sum_map_set (f : L → ℤ) (hi : ls[i]? = some l) :
    ((ls.set i l').map f).sum = (ls.map f).sum - f l + f l' := by
  induction ls generalizing i with
  | nil => simp at hi
  | cons x ls ih =>
    cases i with
    | zero =>
      simp only [List.getElem?_cons_zero, Option.some.injEq] at hi
      subst hi
      simp only [List.set_cons_zero, List.map_cons, List.sum_cons]
      ring
    | succ i =>
      rw [List.getElem?_cons_succ] at hi
      rw [List.set_cons_succ, List.map_cons, List.sum_cons, ih hi, List.map_cons, List.sum_cons]
      ring

/-- A sum of zeros and ones counts. -/
theorem sum_map_ite (p : L → Bool) :
    (ls.map fun l => if p l then (1 : ℤ) else 0).sum = ls.countP p := by
  induction ls with
  | nil => rfl
  | cons x ls ih =>
    rw [List.map_cons, List.sum_cons, ih, List.countP_cons]
    split_ifs
    · push_cast
      ring
    · push_cast
      ring

end Replaced

end Concurrency
end Cococoir
