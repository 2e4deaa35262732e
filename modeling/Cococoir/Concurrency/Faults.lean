import Cococoir.Concurrency.Prog

/-!
# One command that fails

To say that a program meets a failure at its `n`-th command of some kind and at no other, the
shared state is given a countdown.  The commands of that kind count it down, and the one that
finds it at zero is executed with the choice that `strike` makes of the environment's: a failing
one.  After that, and from the start where there is no countdown, all goes on as it did.

* `faulty`: the execution with the countdown.
* `runs_faulty_none`: without one, nothing has changed.
* `runs_faulty_cmd`: what a command contributes to a run.

## How it is used

A run of the faulty system starts with the number of commands that are to succeed, and the program
is followed command by command.  A command that counts either finds the countdown at zero, and
then the program goes on with a failure and without a countdown, or it lowers it.  The lemmas for
programs that issue no command of the kind pass them in one step.  The world of the faulty system
is the world and the countdown, so that everything said about runs holds of it, too.
-/

namespace Cococoir
namespace Concurrency

variable {C : Type} {R : C → Type} {W Ch ε α : Type}

/-- What is left of the countdown after a command that counts. -/
def countdown : Option ℕ → Option ℕ
  | some (n + 1) => some n
  | _ => none

@[simp] theorem countdown_none : countdown none = none := rfl

@[simp] theorem countdown_zero : countdown (some 0) = none := rfl

@[simp] theorem countdown_succ (n : ℕ) : countdown (some (n + 1)) = some n := rfl

@[simp] theorem countdown_eq_some {left : Option ℕ} {n : ℕ} :
    countdown left = some n ↔ left = some (n + 1) := by
  rcases left with _ | _ | k <;> simp

/-- The choice with which a command is executed. -/
def struck (counts : C → Bool) (strike : Ch → Ch) (ch : Ch) (c : C) (left : Option ℕ) : Ch :=
  if counts c ∧ left = some 0 then strike ch else ch

/-- Commands that count down to one that fails. -/
def faulty (exec : Ch → (c : C) → W → R c × W) (counts : C → Bool) (strike : Ch → Ch) (ch : Ch)
    (c : C) (s : W × Option ℕ) : R c × (W × Option ℕ) :=
  ((exec (struck counts strike ch c s.2) c s.1).1,
    ((exec (struck counts strike ch c s.2) c s.1).2, if counts c then countdown s.2 else s.2))

variable {exec : Ch → (c : C) → W → R c × W} {counts : C → Bool} {strike : Ch → Ch}
  {good : C → Ch → Prop} {w : W} {left : Option ℕ} {o : Outcome ε α} {s : W × Option ℕ}

theorem struck_of_ne {ch : Ch} {c : C} (h : left ≠ some 0) :
    struck counts strike ch c left = ch := if_neg fun hc => h hc.2

theorem struck_of_not_counts {ch : Ch} {c : C} (h : counts c = false) :
    struck counts strike ch c left = ch := if_neg fun hc => by simp [h] at hc

/-- A run without a countdown is one without a failure of its own. -/
theorem runs_faulty_none {p : Prog C R ε α} :
    p.Runs (faulty exec counts strike) good (w, none) o s ↔
      p.Runs exec good w o s.1 ∧ s.2 = none := by
  induction p generalizing w with
  | done o' =>
    rw [Prog.runs_done, Prog.runs_done, Prod.ext_iff]
    exact and_assoc.symm
  | cmd c k ih =>
    have hexec : ∀ ch, faulty exec counts strike ch c (w, none) =
        ((exec ch c w).1, ((exec ch c w).2, none)) := by
      intro ch
      simp [faulty, struck_of_ne]
    simp only [Prog.runs_cmd, hexec, ih, exists_and_right, ← and_assoc]

/-- **A command in a run**: it fails, or it is executed as ever. -/
theorem runs_faulty_cmd {c : C} {k : R c → Prog C R ε α} :
    (Prog.cmd c k).Runs (faulty exec counts strike) good (w, left) o s ↔
      ∃ ch, good c ch ∧ (k (exec (struck counts strike ch c left) c w).1).Runs
        (faulty exec counts strike) good ((exec (struck counts strike ch c left) c w).2,
          if counts c then countdown left else left) o s := Iff.rfl

/-- A command that does not count is executed as ever. -/
theorem runs_faulty_uncounted {c : C} (hc : counts c = false) {k : R c → Prog C R ε α} :
    (Prog.cmd c k).Runs (faulty exec counts strike) good (w, left) o s ↔
      ∃ ch, good c ch ∧
        (k (exec ch c w).1).Runs (faulty exec counts strike) good ((exec ch c w).2, left) o s := by
  simp only [runs_faulty_cmd, struck_of_not_counts hc, hc, Bool.false_eq_true, if_false]

/-- Neither is a program none of whose commands count. -/
theorem runs_faulty_of_all {p : Prog C R ε α} (hp : p.All fun c => counts c = false) :
    p.Runs (faulty exec counts strike) good (w, left) o s ↔
      p.Runs exec good w o s.1 ∧ s.2 = left := by
  induction p generalizing w with
  | done o' =>
    rw [Prog.runs_done, Prog.runs_done, Prod.ext_iff]
    exact and_assoc.symm
  | cmd c k ih =>
    rw [runs_faulty_uncounted hp.1]
    simp only [ih _ (hp.2 _), Prog.runs_cmd, exists_and_right, ← and_assoc]

end Concurrency
end Cococoir
