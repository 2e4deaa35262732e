import Mathlib.Logic.Basic
import Mathlib.Data.List.Basic
import Mathlib.Control.Basic

/-!
# Programs that issue atomic commands

A request handler of a server does two kinds of things: it computes, and it sends
commands to something shared (a store, a kernel interface, a provider).  Only the
second kind is visible to the other handlers, and each command is atomic.  So a
handler is a tree: `cmd c k` when its next command is `c` and it continues as `k r`
once the response `r` is back, and `done o` when it has ended, with a value, an error
or a panic.

Nothing here names a store.  The commands `C`, their responses `R`, the shared state
`W` and the environment's choices `Ch` are parameters, and `exec` says what one
command does to the shared state under one choice.

* `Prog.bind`, the monad and its laws; `Prog.mapErr` and `Prog.attempt`.
* `Prog.Runs`: one handler running alone, big step, with every choice that the
  predicate `good` admits; `runs_bind` composes runs.
* `Prog.eval`: the same run computed from a list of choices; `runs_eval` says that
  what it computes is a run.
* `Prog.All`: every command the program can ever issue satisfies a predicate.
* `Prog.NoPanic`: no run panics; `NoPanic.bind` composes.
-/

namespace Cococoir
namespace Concurrency

/-- What a program ends with. -/
inductive Outcome (ε α : Type) : Type where
  | ok (a : α) : Outcome ε α
  | err (e : ε) : Outcome ε α
  | panic (msg : String) : Outcome ε α
  deriving DecidableEq

variable {C : Type} {R : C → Type} {W Ch : Type} {ε ε' α β γ : Type}

theorem Outcome.err_ne_ok {e : ε} {a : α} : (.err e : Outcome ε α) ≠ .ok a := nofun

theorem Outcome.panic_ne_ok {m : String} {a : α} : (.panic m : Outcome ε α) ≠ .ok a := nofun

/-- The outcome with its value and its error converted. -/
def Outcome.bimap (f : ε → ε') (g : α → β) : Outcome ε α → Outcome ε' β
  | .ok a => .ok (g a)
  | .err e => .err (f e)
  | .panic m => .panic m

/-- A program over the commands `C`, where command `c` is answered in `R c`. -/
inductive Prog (C : Type) (R : C → Type) (ε α : Type) : Type where
  | done (o : Outcome ε α) : Prog C R ε α
  | cmd (c : C) (k : R c → Prog C R ε α) : Prog C R ε α

namespace Prog

/-- Sequential composition: the first error or panic ends the program. -/
def bind : Prog C R ε α → (α → Prog C R ε β) → Prog C R ε β
  | done (.ok a), f => f a
  | done (.err e), _ => done (.err e)
  | done (.panic m), _ => done (.panic m)
  | cmd c k, f => cmd c fun r => (k r).bind f

instance : Monad (Prog C R ε) where
  pure a := done (.ok a)
  bind := bind

/-- End with an error. -/
def throw (e : ε) : Prog C R ε α := done (.err e)

/-- End with a panic. -/
def panic (msg : String) : Prog C R ε α := done (.panic msg)

/-- Issue one command and return its response. -/
def issue (c : C) : Prog C R ε (R c) := cmd c fun r => done (.ok r)

/-- A computed result: its error ends the program. -/
def ofExcept : Except ε α → Prog C R ε α
  | .ok a => pure a
  | .error e => throw e

/-- A computed value that is expected to be there: its absence is a panic. -/
def expect (msg : String) : Option α → Prog C R ε α
  | some a => pure a
  | none => panic msg

/-- The same program with its final value and error converted. -/
def bimap (f : ε → ε') (g : α → β) : Prog C R ε α → Prog C R ε' β
  | done o => done (o.bimap f g)
  | cmd c k => cmd c fun r => (k r).bimap f g

/-- The same program with its errors converted. -/
def mapErr (f : ε → ε') (p : Prog C R ε α) : Prog C R ε' α := p.bimap f id

/-- Run a program and look at how it ended; only a panic is passed on. -/
def attempt : Prog C R ε α → Prog C R ε' (Except ε α)
  | done (.ok a) => done (.ok (.ok a))
  | done (.err e) => done (.ok (.error e))
  | done (.panic m) => done (.panic m)
  | cmd c k => cmd c fun r => (k r).attempt

@[simp] theorem pure_bind (a : α) (f : α → Prog C R ε β) : (pure a : Prog C R ε α) >>= f = f a :=
  rfl

@[simp] theorem throw_bind (e : ε) (f : α → Prog C R ε β) :
    (throw e : Prog C R ε α) >>= f = throw e := rfl

@[simp] theorem panic_bind (m : String) (f : α → Prog C R ε β) :
    (panic m : Prog C R ε α) >>= f = panic m := rfl

@[simp] theorem cmd_bind (c : C) (k : R c → Prog C R ε α) (f : α → Prog C R ε β) :
    cmd c k >>= f = cmd c fun r => k r >>= f := rfl

@[simp] theorem issue_bind (c : C) (f : R c → Prog C R ε β) :
    (issue c : Prog C R ε (R c)) >>= f = cmd c f := rfl

@[simp] theorem ofExcept_ok (a : α) : (ofExcept (.ok a) : Prog C R ε α) = pure a := rfl

@[simp] theorem ofExcept_error (e : ε) : (ofExcept (.error e) : Prog C R ε α) = throw e := rfl

@[simp] theorem expect_some (msg : String) (a : α) :
    (expect msg (some a) : Prog C R ε α) = pure a := rfl

@[simp] theorem expect_none (msg : String) :
    (expect msg none : Prog C R ε α) = panic msg := rfl

theorem bind_pure (p : Prog C R ε α) : p >>= pure = p := by
  induction p with
  | done o => cases o <;> rfl
  | cmd c k ih => exact congrArg (cmd c) (funext ih)

theorem bind_assoc (p : Prog C R ε α) (f : α → Prog C R ε β) (g : β → Prog C R ε γ) :
    p >>= f >>= g = p >>= fun a => f a >>= g := by
  induction p with
  | done o => cases o <;> rfl
  | cmd c k ih => exact congrArg (cmd c) (funext ih)

instance : LawfulMonad (Prog C R ε) := LawfulMonad.mk' _
  bind_pure (fun _ _ => rfl) bind_assoc

/-! ## One program running alone -/

variable (exec : Ch → (c : C) → W → R c × W)

/-- `p.Runs exec good w o w'`: running alone from `w`, with every command's choice
admitted by `good`, `p` can end with `o` and leave the shared state `w'`. -/
def Runs (good : C → Ch → Prop) : Prog C R ε α → W → Outcome ε α → W → Prop
  | done o, w, o', w' => o' = o ∧ w' = w
  | cmd c k, w, o', w' =>
    ∃ ch, good c ch ∧ (k (exec ch c w).1).Runs good (exec ch c w).2 o' w'

variable {exec} {good : C → Ch → Prop} {w w' : W}

@[simp] theorem runs_done {o o' : Outcome ε α} :
    (done o : Prog C R ε α).Runs exec good w o' w' ↔ o' = o ∧ w' = w := Iff.rfl

@[simp] theorem runs_pure {a : α} {o : Outcome ε α} :
    (pure a : Prog C R ε α).Runs exec good w o w' ↔ o = .ok a ∧ w' = w := Iff.rfl

@[simp] theorem runs_throw {e : ε} {o : Outcome ε α} :
    (throw e : Prog C R ε α).Runs exec good w o w' ↔ o = .err e ∧ w' = w := Iff.rfl

@[simp] theorem runs_panic {m : String} {o : Outcome ε α} :
    (panic m : Prog C R ε α).Runs exec good w o w' ↔ o = .panic m ∧ w' = w := Iff.rfl

theorem runs_cmd {c : C} {k : R c → Prog C R ε α} {o : Outcome ε α} :
    (cmd c k).Runs exec good w o w' ↔
      ∃ ch, good c ch ∧ (k (exec ch c w).1).Runs exec good (exec ch c w).2 o w' := Iff.rfl

/-- **Runs compose.**  A run of `p >>= f`, by how `p` ended. -/
theorem runs_bind {p : Prog C R ε α} {f : α → Prog C R ε β} {o : Outcome ε β} :
    (p >>= f).Runs exec good w o w' ↔
      (∃ a w₁, p.Runs exec good w (.ok a) w₁ ∧ (f a).Runs exec good w₁ o w') ∨
      (∃ e, p.Runs exec good w (.err e) w' ∧ o = .err e) ∨
      (∃ m, p.Runs exec good w (.panic m) w' ∧ o = .panic m) := by
  induction p generalizing w with
  | done o' =>
    cases o' with
    | ok a =>
      constructor
      · intro h
        exact Or.inl ⟨a, w, ⟨rfl, rfl⟩, h⟩
      · rintro (⟨_, _, ⟨h, rfl⟩, hf⟩ | ⟨_, ⟨h, -⟩, -⟩ | ⟨_, ⟨h, -⟩, -⟩) <;> cases h
        exact hf
    | err e =>
      constructor
      · rintro ⟨rfl, rfl⟩
        exact Or.inr (Or.inl ⟨e, ⟨rfl, rfl⟩, rfl⟩)
      · rintro (⟨_, _, ⟨h, -⟩, -⟩ | ⟨_, ⟨h, rfl⟩, rfl⟩ | ⟨_, ⟨h, -⟩, -⟩) <;> cases h
        exact ⟨rfl, rfl⟩
    | panic m =>
      constructor
      · rintro ⟨rfl, rfl⟩
        exact Or.inr (Or.inr ⟨m, ⟨rfl, rfl⟩, rfl⟩)
      · rintro (⟨_, _, ⟨h, -⟩, -⟩ | ⟨_, ⟨h, -⟩, -⟩ | ⟨_, ⟨h, rfl⟩, rfl⟩) <;> cases h
        exact ⟨rfl, rfl⟩
  | cmd c k ih =>
    rw [cmd_bind, runs_cmd]
    simp only [ih, runs_cmd]
    constructor
    · rintro ⟨ch, hch, ⟨a, w₁, hp, hf⟩ | ⟨e, hp, ho⟩ | ⟨m, hp, ho⟩⟩
      · exact Or.inl ⟨a, w₁, ⟨ch, hch, hp⟩, hf⟩
      · exact Or.inr (Or.inl ⟨e, ⟨ch, hch, hp⟩, ho⟩)
      · exact Or.inr (Or.inr ⟨m, ⟨ch, hch, hp⟩, ho⟩)
    · rintro (⟨a, w₁, ⟨ch, hch, hp⟩, hf⟩ | ⟨e, ⟨ch, hch, hp⟩, ho⟩ | ⟨m, ⟨ch, hch, hp⟩, ho⟩)
      · exact ⟨ch, hch, Or.inl ⟨a, w₁, hp, hf⟩⟩
      · exact ⟨ch, hch, Or.inr (Or.inl ⟨e, hp, ho⟩)⟩
      · exact ⟨ch, hch, Or.inr (Or.inr ⟨m, hp, ho⟩)⟩

theorem runs_bimap {f : ε → ε'} {g : α → β} {p : Prog C R ε α} {o : Outcome ε' β} :
    (p.bimap f g).Runs exec good w o w' ↔
      ∃ o', p.Runs exec good w o' w' ∧ o = o'.bimap f g := by
  induction p generalizing w with
  | done o' =>
    constructor
    · rintro ⟨rfl, rfl⟩
      exact ⟨o', ⟨rfl, rfl⟩, rfl⟩
    · rintro ⟨_, ⟨rfl, rfl⟩, rfl⟩
      exact ⟨rfl, rfl⟩
  | cmd c k ih =>
    constructor
    · rintro ⟨ch, hch, h⟩
      obtain ⟨o', h, ho⟩ := (ih _).mp h
      exact ⟨o', ⟨ch, hch, h⟩, ho⟩
    · rintro ⟨o', ⟨ch, hch, h⟩, ho⟩
      exact ⟨ch, hch, (ih _).mpr ⟨o', h, ho⟩⟩

theorem runs_mapErr {f : ε → ε'} {p : Prog C R ε α} {o : Outcome ε' α} :
    (p.mapErr f).Runs exec good w o w' ↔
      ∃ o', p.Runs exec good w o' w' ∧ o = o'.bimap f id := runs_bimap

/-- Runs of a composition whose first part has its errors converted. -/
theorem runs_mapErr_bind {g : ε → ε'} {p : Prog C R ε α} {f : α → Prog C R ε' β}
    {o : Outcome ε' β} :
    (p.mapErr g >>= f).Runs exec good w o w' ↔
      (∃ a w₁, p.Runs exec good w (.ok a) w₁ ∧ (f a).Runs exec good w₁ o w') ∨
      (∃ e, p.Runs exec good w (.err e) w' ∧ o = .err (g e)) ∨
      (∃ m, p.Runs exec good w (.panic m) w' ∧ o = .panic m) := by
  have hok : ∀ {a : α} {w₁ : W}, (p.mapErr g).Runs exec good w (.ok a) w₁ ↔
      p.Runs exec good w (.ok a) w₁ := by
    intro a w₁
    rw [runs_mapErr]
    constructor
    · rintro ⟨o', hp, ho⟩
      cases o' <;> cases ho
      exact hp
    · exact fun hp => ⟨_, hp, rfl⟩
  have herr : ∀ {e : ε'}, (p.mapErr g).Runs exec good w (.err e) w' ↔
      ∃ e', p.Runs exec good w (.err e') w' ∧ e = g e' := by
    intro e
    rw [runs_mapErr]
    constructor
    · rintro ⟨o', hp, ho⟩
      cases o' <;> cases ho
      exact ⟨_, hp, rfl⟩
    · rintro ⟨e', hp, rfl⟩
      exact ⟨_, hp, rfl⟩
  have hpanic : ∀ {m : String}, (p.mapErr g).Runs exec good w (.panic m) w' ↔
      p.Runs exec good w (.panic m) w' := by
    intro m
    rw [runs_mapErr]
    constructor
    · rintro ⟨o', hp, ho⟩
      cases o' <;> cases ho
      exact hp
    · exact fun hp => ⟨_, hp, rfl⟩
  rw [runs_bind]
  simp only [hok, herr, hpanic]
  constructor
  · rintro (h | ⟨e, ⟨e', hp, rfl⟩, ho⟩ | h)
    · exact Or.inl h
    · exact Or.inr (Or.inl ⟨e', hp, ho⟩)
    · exact Or.inr (Or.inr h)
  · rintro (h | ⟨e, hp, ho⟩ | h)
    · exact Or.inl h
    · exact Or.inr (Or.inl ⟨g e, ⟨e, hp, rfl⟩, ho⟩)
    · exact Or.inr (Or.inr h)

/-- Runs of a program whose end is looked at: only a panic is passed on. -/
theorem runs_attempt {p : Prog C R ε α} {o : Outcome ε' (Except ε α)} :
    (p.attempt : Prog C R ε' (Except ε α)).Runs exec good w o w' ↔
      (∃ a, p.Runs exec good w (.ok a) w' ∧ o = .ok (.ok a)) ∨
      (∃ e, p.Runs exec good w (.err e) w' ∧ o = .ok (.error e)) ∨
      ∃ m, p.Runs exec good w (.panic m) w' ∧ o = .panic m := by
  induction p generalizing w with
  | done o' =>
    cases o' with
    | ok a =>
      constructor
      · rintro ⟨rfl, rfl⟩
        exact Or.inl ⟨a, ⟨rfl, rfl⟩, rfl⟩
      · rintro (⟨_, ⟨h, rfl⟩, rfl⟩ | ⟨_, ⟨h, -⟩, -⟩ | ⟨_, ⟨h, -⟩, -⟩) <;> cases h
        exact ⟨rfl, rfl⟩
    | err e =>
      constructor
      · rintro ⟨rfl, rfl⟩
        exact Or.inr (Or.inl ⟨e, ⟨rfl, rfl⟩, rfl⟩)
      · rintro (⟨_, ⟨h, -⟩, -⟩ | ⟨_, ⟨h, rfl⟩, rfl⟩ | ⟨_, ⟨h, -⟩, -⟩) <;> cases h
        exact ⟨rfl, rfl⟩
    | panic m =>
      constructor
      · rintro ⟨rfl, rfl⟩
        exact Or.inr (Or.inr ⟨m, ⟨rfl, rfl⟩, rfl⟩)
      · rintro (⟨_, ⟨h, -⟩, -⟩ | ⟨_, ⟨h, -⟩, -⟩ | ⟨_, ⟨h, rfl⟩, rfl⟩) <;> cases h
        exact ⟨rfl, rfl⟩
  | cmd c k ih =>
    show (∃ ch, good c ch ∧ (k (exec ch c w).1).attempt.Runs exec good _ o w') ↔ _
    simp only [ih, runs_cmd]
    constructor
    · rintro ⟨ch, hch, ⟨a, h, ho⟩ | ⟨e, h, ho⟩ | ⟨m, h, ho⟩⟩
      · exact Or.inl ⟨a, ⟨ch, hch, h⟩, ho⟩
      · exact Or.inr (Or.inl ⟨e, ⟨ch, hch, h⟩, ho⟩)
      · exact Or.inr (Or.inr ⟨m, ⟨ch, hch, h⟩, ho⟩)
    · rintro (⟨a, ⟨ch, hch, h⟩, ho⟩ | ⟨e, ⟨ch, hch, h⟩, ho⟩ | ⟨m, ⟨ch, hch, h⟩, ho⟩)
      · exact ⟨ch, hch, Or.inl ⟨a, h, ho⟩⟩
      · exact ⟨ch, hch, Or.inr (Or.inl ⟨e, h, ho⟩)⟩
      · exact ⟨ch, hch, Or.inr (Or.inr ⟨m, h, ho⟩)⟩

/-- A program always runs to an end. -/
theorem exists_runs (hgood : ∀ c, ∃ ch, good c ch) (p : Prog C R ε α) (w : W) :
    ∃ o w', p.Runs exec good w o w' := by
  induction p generalizing w with
  | done o => exact ⟨o, w, rfl, rfl⟩
  | cmd c k ih =>
    obtain ⟨ch, hch⟩ := hgood c
    obtain ⟨o, w', h⟩ := ih (exec ch c w).1 (exec ch c w).2
    exact ⟨o, w', ch, hch, h⟩

/-- More choices, more runs. -/
theorem Runs.mono {good' : C → Ch → Prop} (hg : ∀ c ch, good c ch → good' c ch)
    {p : Prog C R ε α} {o : Outcome ε α} (h : p.Runs exec good w o w') :
    p.Runs exec good' w o w' := by
  induction p generalizing w with
  | done o => exact h
  | cmd c k ih =>
    obtain ⟨ch, hch, h⟩ := h
    exact ⟨ch, hg c ch hch, ih _ h⟩

section Eval

variable (exec) [Inhabited Ch]

/-- The run of `p` in which the environment takes its choices from a list, and the
default choice once the list is used up. -/
def eval : Prog C R ε α → List Ch → W → Outcome ε α × W
  | done o, _, w => (o, w)
  | cmd c k, chs, w =>
    (k (exec (chs.headD default) c w).1).eval chs.tail (exec (chs.headD default) c w).2

variable {exec}

/-- What `eval` computes is a run, when the listed choices and the default one are
admitted. -/
theorem runs_eval {p : Prog C R ε α} {chs : List Ch} (hdef : ∀ c, good c default)
    (hchs : ∀ c, ∀ ch ∈ chs, good c ch) :
    p.Runs exec good w (p.eval exec chs w).1 (p.eval exec chs w).2 := by
  induction p generalizing chs w with
  | done o => exact ⟨rfl, rfl⟩
  | cmd c k ih =>
    refine ⟨chs.headD default, ?_, ih _ fun c' ch hch => hchs c' ch (List.mem_of_mem_tail hch)⟩
    cases chs with
    | nil => exact hdef c
    | cons ch chs => exact hchs c ch List.mem_cons_self

end Eval

/-! ## The commands a program can issue -/

/-- Every command `p` can ever issue, whatever it is answered, satisfies `S`. -/
def All (S : C → Prop) : Prog C R ε α → Prop
  | done _ => True
  | cmd c k => S c ∧ ∀ r, (k r).All S

variable {S T : C → Prop}

@[simp] theorem all_done (o : Outcome ε α) : (done o : Prog C R ε α).All S := trivial

@[simp] theorem all_pure (a : α) : (pure a : Prog C R ε α).All S := trivial

@[simp] theorem all_throw (e : ε) : (throw e : Prog C R ε α).All S := trivial

@[simp] theorem all_panic (m : String) : (panic m : Prog C R ε α).All S := trivial

@[simp] theorem all_cmd {c : C} {k : R c → Prog C R ε α} :
    (cmd c k).All S ↔ S c ∧ ∀ r, (k r).All S := Iff.rfl

theorem all_issue {c : C} {f : R c → Prog C R ε α} :
    (issue c >>= f).All S ↔ S c ∧ ∀ r, (f r).All S := Iff.rfl

@[simp] theorem all_ofExcept (x : Except ε α) : (ofExcept x : Prog C R ε α).All S := by
  cases x <;> trivial

@[simp] theorem all_expect (msg : String) (x : Option α) :
    (expect msg x : Prog C R ε α).All S := by
  cases x <;> trivial

theorem All.bind {p : Prog C R ε α} {f : α → Prog C R ε β} (hp : p.All S)
    (hf : ∀ a, (f a).All S) : (p >>= f).All S := by
  induction p with
  | done o =>
    cases o with
    | ok a => exact hf a
    | err e => trivial
    | panic m => trivial
  | cmd c k ih => exact ⟨hp.1, fun r => ih r (hp.2 r)⟩

theorem All.bimap {p : Prog C R ε α} {f : ε → ε'} {g : α → β} (hp : p.All S) :
    (p.bimap f g).All S := by
  induction p with
  | done o => trivial
  | cmd c k ih => exact ⟨hp.1, fun r => ih r (hp.2 r)⟩

theorem All.attempt {p : Prog C R ε α} (hp : p.All S) :
    (p.attempt : Prog C R ε' (Except ε α)).All S := by
  induction p with
  | done o => cases o <;> trivial
  | cmd c k ih => exact ⟨hp.1, fun r => ih r (hp.2 r)⟩

theorem All.mono {p : Prog C R ε α} (hp : p.All S) (hST : ∀ c, S c → T c) : p.All T := by
  induction p with
  | done o => trivial
  | cmd c k ih => exact ⟨hST c hp.1, fun r => ih r (hp.2 r)⟩

/-- More choices for the commands it can issue, more runs. -/
theorem All.runs_mono {good' : C → Ch → Prop} {p : Prog C R ε α} (hp : p.All S)
    (hg : ∀ c ch, S c → good c ch → good' c ch) {o : Outcome ε α}
    (h : p.Runs exec good w o w') : p.Runs exec good' w o w' := by
  induction p generalizing w with
  | done o => exact h
  | cmd c k ih =>
    obtain ⟨ch, hch, h⟩ := h
    exact ⟨ch, hg c ch hp.1 hch, ih _ (hp.2 _) h⟩

/-- A program alone keeps every relation to its start that its commands keep. -/
theorem All.runs_frame {p : Prog C R ε α} (hp : p.All S) (rel : W → W → Prop)
    (refl : ∀ w, rel w w) (trans : ∀ {u v w}, rel u v → rel v w → rel u w)
    (hrel : ∀ c ch w, S c → rel w (exec ch c w).2) {o : Outcome ε α}
    (h : p.Runs exec good w o w') : rel w w' := by
  induction p generalizing w with
  | done o =>
    obtain ⟨-, rfl⟩ := h
    exact refl _
  | cmd c k ih =>
    obtain ⟨ch, -, h⟩ := h
    exact trans (hrel c ch w hp.1) (ih _ (hp.2 _) h)

/-! ## The ways a program can end -/

/-- Every way `p` can end, whatever it is answered, satisfies `P`. -/
def Ends (P : Outcome ε α → Prop) : Prog C R ε α → Prop
  | done o => P o
  | cmd _ k => ∀ r, (k r).Ends P

theorem ends_true (p : Prog C R ε α) : p.Ends fun _ => True := by
  induction p with
  | done o => trivial
  | cmd c k ih => exact ih

theorem Ends.bind {P : Outcome ε α → Prop} {Q : Outcome ε β → Prop} {p : Prog C R ε α}
    {f : α → Prog C R ε β} (hp : p.Ends P) (hok : ∀ a, P (.ok a) → (f a).Ends Q)
    (herr : ∀ e, P (.err e) → Q (.err e)) (hpanic : ∀ m, P (.panic m) → Q (.panic m)) :
    (p >>= f).Ends Q := by
  induction p with
  | done o =>
    cases o with
    | ok a => exact hok a hp
    | err e => exact herr e hp
    | panic m => exact hpanic m hp
  | cmd c k ih => exact fun r => ih r (hp r)

theorem Ends.bimap {P : Outcome ε α → Prop} {Q : Outcome ε' β → Prop} {p : Prog C R ε α}
    {f : ε → ε'} {g : α → β} (hp : p.Ends P) (hPQ : ∀ o, P o → Q (o.bimap f g)) :
    (p.bimap f g).Ends Q := by
  induction p with
  | done o => exact hPQ o hp
  | cmd c k ih => exact fun r => ih r (hp r)

/-- A program that does not panic can be looked at. -/
theorem Ends.attempt {p : Prog C R ε α} (hp : p.Ends fun o => ∀ m, o ≠ .panic m) :
    (p.attempt : Prog C R ε' (Except ε α)).Ends fun o => ∃ r, o = .ok r := by
  induction p with
  | done o =>
    cases o with
    | ok a => exact ⟨_, rfl⟩
    | err e => exact ⟨_, rfl⟩
    | panic m => exact absurd rfl (hp m)
  | cmd c k ih => exact fun r => ih r (hp r)

theorem Ends.runs {P : Outcome ε α → Prop} {p : Prog C R ε α} (hp : p.Ends P)
    {o : Outcome ε α} (h : p.Runs exec good w o w') : P o := by
  induction p generalizing w with
  | done o' =>
    obtain ⟨rfl, -⟩ := h
    exact hp
  | cmd c k ih =>
    obtain ⟨ch, -, h⟩ := h
    exact ih _ (hp _) h

/-! ## Runs that do not panic -/

/-- No run of `p` from `w` panics. -/
def NoPanic (exec : Ch → (c : C) → W → R c × W) (good : C → Ch → Prop) (p : Prog C R ε α)
    (w : W) : Prop :=
  ∀ o w', p.Runs exec good w o w' → ∀ m, o ≠ .panic m

theorem Ends.noPanic {p : Prog C R ε α} (hp : p.Ends fun o => ∀ m, o ≠ .panic m) :
    p.NoPanic exec good w := fun _ _ h => hp.runs h

/-- **Freedom from panics composes**: the second part is looked at where the first can end. -/
theorem NoPanic.bind {p : Prog C R ε α} {f : α → Prog C R ε β} (hp : p.NoPanic exec good w)
    (hf : ∀ a w', p.Runs exec good w (.ok a) w' → (f a).NoPanic exec good w') :
    (p >>= f).NoPanic exec good w := by
  intro o w' h
  rcases runs_bind.mp h with ⟨a, w₁, ha, h⟩ | ⟨e, -, rfl⟩ | ⟨m, hm, -⟩
  · exact hf a w₁ ha o w' h
  · nofun
  · exact absurd rfl (hp _ _ hm m)

theorem NoPanic.mapErr_bind {g : ε → ε'} {p : Prog C R ε α} {f : α → Prog C R ε' β}
    (hp : p.NoPanic exec good w)
    (hf : ∀ a w', p.Runs exec good w (.ok a) w' → (f a).NoPanic exec good w') :
    (p.mapErr g >>= f).NoPanic exec good w := by
  intro o w' h
  rcases runs_mapErr_bind.mp h with ⟨a, w₁, ha, h⟩ | ⟨e, -, rfl⟩ | ⟨m, hm, -⟩
  · exact hf a w₁ ha o w' h
  · nofun
  · exact absurd rfl (hp _ _ hm m)

theorem noPanic_bimap {f : ε → ε'} {g : α → β} {p : Prog C R ε α} :
    (p.bimap f g).NoPanic exec good w ↔ p.NoPanic exec good w := by
  constructor
  · rintro h o w' hp m rfl
    exact h _ _ (runs_bimap.mpr ⟨_, hp, rfl⟩) m rfl
  · intro h o w' hp
    obtain ⟨o', ho', rfl⟩ := runs_bimap.mp hp
    cases o' with
    | panic m => exact absurd rfl (h _ _ ho' m)
    | _ => nofun

end Prog

end Concurrency
end Cococoir
