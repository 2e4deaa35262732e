import Mathlib.Data.List.Basic
import Mathlib.Tactic.Ring

/-!
# Retrying a bind

A bind that fails with a transient error is tried again after a backoff, until the deadline or the
shutdown.  Time is counted in milliseconds; how long each attempt takes and what it gives, when the
shutdown is signalled and which branch `select!` takes when both are ready are the environment's.

* `iteration`, `retryWithBackoff`: the loop.
* `MadeAt`, `ReturnsAt`: the attempts that are made, and where the loop ends.
* `Faithful`: what the loop promises.
* `lateReceiver`: a receiver that was subscribed after the shutdown is never told of it.
* `faithful_iff`: when the promises are kept.

## The loop and its fuel

The source's loop has no bound, and ends because every backoff moves the clock towards the
deadline.  The model has a `loop` with fuel, and `retryWithBackoff` gives it enough: `terminates`
is the proof.  What the loop does is stated without the fuel, by the attempts that are made:
`MadeAt k` is the state of attempt `k`, if there is one, and `ReturnsAt` says that the call ends
with it.  An attempt is made, or the call is over before it; that is the induction all results
rest on.

## The receiver

A `watch` receiver is told of changes since it was subscribed.  If the shutdown was signalled
before, `changed()` waits for a change that has been already, and the loop runs to its deadline.
`Missed` is exactly this, with a first attempt that is worth another; everything else that the
loop promises, it keeps in every environment.
-/

namespace Cococoir
namespace Forwarder
namespace Retry

/-! ## Model -/

inductive ErrorKind : Type where
  | addrNotAvailable : ErrorKind
  | networkDown : ErrorKind
  | networkUnreachable : ErrorKind
  | other (name : String) : ErrorKind
  deriving DecidableEq

structure IoError : Type where
  kind : ErrorKind
  text : String
  deriving DecidableEq

inductive BindError : Type where
  | nonTransient (network addr : String) (source : IoError) : BindError
  | timedOut (network addr : String) (timeout attempts : ℕ) (source : IoError) : BindError
  | cancelled : BindError
  deriving DecidableEq

/-- The first backoff, 100 ms. -/
def RETRY_BACKOFF_START : ℕ := 100

/-- The longest backoff, 5 s. -/
def RETRY_BACKOFF_MAX : ℕ := 5000

/-- An error that is worth another attempt. -/
def isTransientBindErr (e : IoError) : Bool :=
  match e.kind with
  | .addrNotAvailable => true
  | .networkDown => true
  | .networkUnreachable => true
  | _ => false

/-- Double, up to the longest. -/
def nextBackoff (d : ℕ) : ℕ :=
  let doubled := d * 2
  if doubled > RETRY_BACKOFF_MAX then RETRY_BACKOFF_MAX else doubled

/-- One call of the loop, and its environment. -/
structure Call (T : Type) where
  network : String
  addr : String
  timeout : ℕ
  /-- When the loop starts. -/
  start : ℕ
  /-- How long each attempt takes, and what it gives. -/
  bind : ℕ → ℕ × Except IoError T
  /-- When the shutdown value becomes true, if it does. -/
  flip : Option ℕ
  /-- When the sender of the shutdown signal is dropped, if it is. -/
  dropped : Option ℕ
  /-- When the receiver was subscribed; a clone has seen what its original has. -/
  subscribed : ℕ
  /-- Whether a `select!` takes the end of the sleep when the signal comes at the same time. -/
  sleepFirst : ℕ → Bool
  subscribed_le : subscribed ≤ start

variable {T : Type} (call : Call T)

def Call.deadline : ℕ := call.start + call.timeout

/-- `changed()` is ready: the value was set after the receiver had been subscribed, or there is no
sender any more. -/
def Call.changed (now : ℕ) : Bool :=
  call.flip.any (fun t => decide (call.subscribed < t ∧ t ≤ now)) ||
    call.dropped.any fun t => decide (t ≤ now)

/-- What the loop keeps between two attempts. -/
structure State : Type where
  attempts : ℕ
  now : ℕ
  delay : ℕ

def Call.init : State := ⟨0, call.start, RETRY_BACKOFF_START⟩

/-- When the attempt that starts in a state is over. -/
def Call.ended (σ : State) : ℕ := σ.now + (call.bind σ.attempts).1

/-- What the attempt that starts in a state gives. -/
def Call.outcome (σ : State) : Except IoError T := (call.bind σ.attempts).2

inductive Step (T : Type) : Type where
  | done (r : Except BindError T) : Step T
  | again (σ : State) : Step T

/-- One attempt, and the sleep after it. -/
def iteration (σ : State) : Step T :=
  match call.outcome σ with
  | .ok value => .done (.ok value)
  | .error err =>
    if !isTransientBindErr err then .done (.error (.nonTransient call.network call.addr err))
    else if call.deadline ≤ call.ended σ then
      .done (.error (.timedOut call.network call.addr call.timeout ((σ.attempts + 1) % 2 ^ 32) err))
    else
      let wake := call.ended σ + σ.delay
      -- the signal is there before the sleep is over, or with its end
      if call.changed (wake - 1) then .done (.error .cancelled)
      else if call.changed wake && !call.sleepFirst σ.attempts then .done (.error .cancelled)
      else .again ⟨σ.attempts + 1, wake, nextBackoff σ.delay⟩

/-- At most `fuel` attempts; the source's loop has no bound. -/
def loop : (fuel : ℕ) → State → Option (Except BindError T)
  | 0, _ => none
  | fuel + 1, σ =>
    match iteration call σ with
    | .done r => some r
    | .again σ' => loop fuel σ'

/-- The whole call, with fuel for its attempts. -/
def retryWithBackoff (fuel : ℕ) : Option (Except BindError T) := loop call fuel call.init

/-! ## Attempts -/

/-- The state in which attempt `k` is made, from zero, if it is. -/
inductive MadeAt : ℕ → State → Prop
  | first : MadeAt 0 call.init
  | next {k : ℕ} {σ σ' : State} (h : MadeAt k σ) (hnext : iteration call σ = .again σ') :
    MadeAt (k + 1) σ'

/-- The loop ends with attempt `k`, or in the sleep after it. -/
def ReturnsAt (k : ℕ) (r : Except BindError T) : Prop :=
  ∃ σ, MadeAt call k σ ∧ iteration call σ = .done r

/-- The backoff after attempt `k`. -/
def backoff (k : ℕ) : ℕ := min (100 * 2 ^ k) 5000

/-- **What the loop promises.** -/
structure Faithful : Prop where
  terminates : ∃ fuel r, retryWithBackoff call fuel = some r
  /-- It returns the value of the first attempt that succeeds. -/
  ok : ∀ k value, ReturnsAt call k (.ok value) ↔ ∃ σ, MadeAt call k σ ∧ call.outcome σ = .ok value
  /-- It returns the first error that is not transient. -/
  nonTransient : ∀ k err, ReturnsAt call k (.error (.nonTransient call.network call.addr err)) ↔
    ∃ σ, MadeAt call k σ ∧ call.outcome σ = .error err ∧ isTransientBindErr err = false
  /-- Only a transient error is followed by another attempt. -/
  transient : ∀ k σ σ', MadeAt call k σ → MadeAt call (k + 1) σ' →
    ∃ err, call.outcome σ = .error err ∧ isTransientBindErr err = true
  /-- It gives up only after an attempt that failed at the deadline or later. -/
  timedOut : ∀ k network addr timeout attempts err,
    ReturnsAt call k (.error (.timedOut network addr timeout attempts err)) →
    ∃ σ, MadeAt call k σ ∧ call.outcome σ = .error err ∧ call.deadline ≤ call.ended σ
  /-- The sleeps between attempts. -/
  sleeps : ∀ k σ σ', MadeAt call k σ → MadeAt call (k + 1) σ' → σ'.now = call.ended σ + backoff k
  /-- No attempt starts a backoff or more after the deadline. -/
  soon : ∀ k σ, MadeAt call (k + 1) σ → σ.now < call.deadline + backoff k
  /-- After the shutdown no attempt follows one that failed. -/
  stops : ∀ k σ err t, MadeAt call k σ → call.outcome σ = .error err → t ∈ call.flip →
    t ≤ call.ended σ → ∀ σ', ¬MadeAt call (k + 1) σ'
  /-- The call is cancelled then, unless the attempt failed for good or the time is up. -/
  cancelled : ∀ k σ err t, MadeAt call k σ → call.outcome σ = .error err →
    isTransientBindErr err = true → t ∈ call.flip → t ≤ call.ended σ →
    call.ended σ < call.deadline → ReturnsAt call k (.error .cancelled)

/-! ## Steps -/

variable {call} {σ σ' : State} {k : ℕ} {err : IoError}

theorem backoff_succ (k : ℕ) : backoff (k + 1) = nextBackoff (backoff k) := by
  have hpow : 2 ^ (k + 1) = 2 ^ k * 2 := pow_succ 2 k
  unfold backoff nextBackoff RETRY_BACKOFF_MAX
  dsimp only
  split_ifs <;> omega

theorem le_backoff (k : ℕ) : 100 ≤ backoff k := by
  have hpos := Nat.two_pow_pos k
  unfold backoff
  omega

theorem Call.changed_mono {t t' : ℕ} (h : call.changed t = true) (hle : t ≤ t') :
    call.changed t' = true := by
  unfold changed at h ⊢
  rw [Bool.or_eq_true, Option.any_eq_true, Option.any_eq_true] at h ⊢
  rcases h with ⟨u, hu, h⟩ | ⟨u, hu, h⟩
  · have h := of_decide_eq_true h
    exact .inl ⟨u, hu, decide_eq_true ⟨h.1, le_trans h.2 hle⟩⟩
  · exact .inr ⟨u, hu, decide_eq_true (le_trans (of_decide_eq_true h) hle)⟩

/-- A receiver that was there before is told of the shutdown. -/
theorem Call.changed_of_flip {t now : ℕ} (ht : t ∈ call.flip) (hsub : call.subscribed < t)
    (hnow : t ≤ now) : call.changed now = true := by
  unfold changed
  rw [Bool.or_eq_true, Option.any_eq_true]
  exact .inl ⟨t, ht, decide_eq_true ⟨hsub, hnow⟩⟩

/-- To a receiver that came later only the end of the sender is a change. -/
theorem Call.changed_of_late {t now : ℕ} (ht : t ∈ call.flip) (hsub : t ≤ call.subscribed) :
    call.changed now = true ↔ ∃ g ∈ call.dropped, g ≤ now := by
  unfold changed
  rw [Bool.or_eq_true, Option.any_eq_true, Option.any_eq_true, or_iff_right]
  · simp
  · rintro ⟨u, hu, h⟩
    cases ht.symm.trans hu
    have := (of_decide_eq_true h).1
    omega

/-- The loop goes on after a transient error before the deadline, when no signal comes. -/
theorem iteration_eq_again : iteration call σ = .again σ' ↔
    (∃ err, call.outcome σ = .error err ∧ isTransientBindErr err = true) ∧
      call.ended σ < call.deadline ∧ call.changed (call.ended σ + σ.delay - 1) = false ∧
      (call.changed (call.ended σ + σ.delay) = true → call.sleepFirst σ.attempts = true) ∧
      σ' = ⟨σ.attempts + 1, call.ended σ + σ.delay, nextBackoff σ.delay⟩ := by
  unfold iteration
  cases houtcome : call.outcome σ with
  | ok value => simp
  | error err =>
    dsimp only
    split_ifs with htransient hdeadline hbefore hwith
    · simp only [Bool.not_eq_true'] at htransient
      simp [htransient]
    · simp [Nat.not_lt.mpr hdeadline]
    · simp [hbefore]
    · simp only [Bool.and_eq_true, Bool.not_eq_true'] at hwith
      simp [hwith.1, hwith.2]
    · simp only [Bool.and_eq_true, Bool.not_eq_true', not_and, Bool.not_eq_false] at htransient hbefore hwith
      constructor
      · intro h
        cases h
        exact ⟨⟨err, rfl, htransient⟩, Nat.not_le.mp hdeadline, by simpa using hbefore, hwith, rfl⟩
      · rintro ⟨-, -, -, -, rfl⟩
        rfl

/-- What the call returns, and why. -/
theorem iteration_done {r : Except BindError T} (h : iteration call σ = .done r) :
    (∃ value, call.outcome σ = .ok value ∧ r = .ok value) ∨
      ∃ err, call.outcome σ = .error err ∧
        (isTransientBindErr err = false ∧ r = .error (.nonTransient call.network call.addr err) ∨
          call.deadline ≤ call.ended σ ∧ r = .error (.timedOut call.network call.addr call.timeout
            ((σ.attempts + 1) % 2 ^ 32) err) ∨
          r = .error .cancelled) := by
  unfold iteration at h
  cases houtcome : call.outcome σ with
  | ok value =>
    rw [houtcome] at h
    exact .inl ⟨value, rfl, (Step.done.inj h).symm⟩
  | error err =>
    rw [houtcome] at h
    dsimp only at h
    refine .inr ⟨err, rfl, ?_⟩
    split_ifs at h with htransient hdeadline
    · exact .inl ⟨by simpa using htransient, (Step.done.inj h).symm⟩
    · exact .inr (.inl ⟨hdeadline, (Step.done.inj h).symm⟩)
    · exact .inr (.inr (Step.done.inj h).symm)
    · exact .inr (.inr (Step.done.inj h).symm)

/-- A transient error before the deadline ends in a cancellation or in another attempt. -/
theorem iteration_of_transient (houtcome : call.outcome σ = .error err)
    (htransient : isTransientBindErr err = true) (hdeadline : call.ended σ < call.deadline) :
    iteration call σ = .done (.error .cancelled) ∨ ∃ σ', iteration call σ = .again σ' := by
  unfold iteration
  rw [houtcome]
  dsimp only
  rw [htransient, if_neg (by simp), if_neg (Nat.not_le.mpr hdeadline)]
  split_ifs
  · exact .inl rfl
  · exact .inl rfl
  · exact .inr ⟨_, rfl⟩

/-! ## Attempts -/

theorem MadeAt.unique (h : MadeAt call k σ) (h' : MadeAt call k σ') : σ = σ' := by
  induction h generalizing σ' with
  | first =>
    cases h'
    rfl
  | next _ hnext ih =>
    cases h' with
    | next h' hnext' =>
      rw [ih h', hnext'] at hnext
      exact (Step.again.inj hnext).symm

/-- What the state of an attempt is. -/
theorem MadeAt.state (h : MadeAt call k σ) :
    σ.attempts = k ∧ σ.delay = backoff k ∧ call.start + 100 * k ≤ σ.now := by
  induction h with
  | first => exact ⟨rfl, rfl, le_refl _⟩
  | @next k σ σ' h hnext ih =>
    obtain ⟨hattempts, hdelay, hnow⟩ := ih
    obtain ⟨-, -, -, -, rfl⟩ := iteration_eq_again.mp hnext
    refine ⟨by rw [hattempts], by rw [hdelay, backoff_succ], ?_⟩
    have hback := le_backoff k
    show _ ≤ σ.now + (call.bind σ.attempts).1 + σ.delay
    omega

/-- A later attempt comes after one. -/
theorem MadeAt.exists_prev (h : MadeAt call (k + 1) σ') (hk : MadeAt call k σ) :
    iteration call σ = .again σ' := by
  cases h with
  | next h hnext => rwa [hk.unique h]

theorem loop_of_madeAt (h : MadeAt call k σ) (fuel : ℕ) :
    loop call (k + fuel) call.init = loop call fuel σ := by
  induction h generalizing fuel with
  | first => rw [Nat.zero_add]
  | next _ hnext ih =>
    rw [Nat.add_assoc, Nat.add_comm 1, ih, loop, hnext]

/-- Where the loop ends the call returns. -/
theorem retry_of_returnsAt {r : Except BindError T} (h : ReturnsAt call k r) :
    retryWithBackoff call (k + 1) = some r := by
  obtain ⟨σ, hmade, hdone⟩ := h
  rw [retryWithBackoff, loop_of_madeAt hmade, loop, hdone]

/-- What is known of an attempt that is followed by another. -/
theorem MadeAt.again (h : MadeAt call k σ) (h' : MadeAt call (k + 1) σ') :
    (∃ err, call.outcome σ = .error err ∧ isTransientBindErr err = true) ∧
      call.ended σ < call.deadline ∧ call.changed (call.ended σ) = false ∧
      σ'.now = call.ended σ + backoff k := by
  obtain ⟨htransient, hdeadline, hbefore, -, rfl⟩ := iteration_eq_again.mp (h'.exists_prev h)
  have hdelay := h.state.2.1
  have hback := le_backoff k
  refine ⟨htransient, hdeadline, ?_, by rw [hdelay]⟩
  -- the sleep is not empty, so that a signal before it is one before its end
  cases hchanged : call.changed (call.ended σ) with
  | false => rfl
  | true => rw [Call.changed_mono hchanged (by omega)] at hbefore; exact hbefore

/-- Attempt `k` is made, or the call is over before it. -/
theorem madeAt_or_returns (call : Call T) (k : ℕ) :
    (∃ σ, MadeAt call k σ) ∨ ∃ j < k, ∃ r, ReturnsAt call j r := by
  induction k with
  | zero => exact .inl ⟨call.init, .first⟩
  | succ k ih =>
    rcases ih with ⟨σ, hmade⟩ | ⟨j, hj, r, hreturns⟩
    · cases hstep : iteration call σ with
      | done r => exact .inr ⟨k, Nat.lt_succ_self k, r, σ, hmade, hstep⟩
      | again σ' => exact .inl ⟨σ', .next hmade hstep⟩
    · exact .inr ⟨j, Nat.lt_succ_of_lt hj, r, hreturns⟩

/-- Every backoff moves the clock, so that the deadline comes. -/
theorem terminates (call : Call T) : ∃ fuel r, retryWithBackoff call fuel = some r := by
  rcases madeAt_or_returns call (call.timeout + 1) with ⟨σ', hmade'⟩ | ⟨j, -, r, hreturns⟩
  · cases hmade' with
    | @next k σ σ' hmade hnext =>
      obtain ⟨-, hdeadline, -⟩ := iteration_eq_again.mp hnext
      have hnow := hmade.state.2.2
      rw [Call.deadline, Call.ended] at hdeadline
      omega
  · exact ⟨j + 1, r, retry_of_returnsAt hreturns⟩

/-! ## A receiver that came late -/

variable (call)

/-- When the first backoff is over. -/
def Call.firstWake : ℕ := call.ended call.init + RETRY_BACKOFF_START

/-- The shutdown was signalled before the receiver was there, and the first attempt is one to be
made again, with the sender alive until then. -/
def Missed : Prop :=
  (∃ t ∈ call.flip, t ≤ call.subscribed) ∧
    (∃ err, (call.bind 0).2 = .error err ∧ isTransientBindErr err = true) ∧
    (call.bind 0).1 < call.timeout ∧
    ∀ g ∈ call.dropped, call.firstWake < g ∨ g = call.firstWake ∧ call.sleepFirst 0 = true

variable {call}

/-- To such a receiver the loop makes a second attempt. -/
theorem exists_madeAt_one_iff {t : ℕ} (ht : t ∈ call.flip) (hsub : t ≤ call.subscribed) :
    (∃ σ, MadeAt call 1 σ) ↔ Missed call := by
  have hfirst : call.ended call.init + call.init.delay = call.firstWake := rfl
  have hwake : 0 < call.firstWake := Nat.add_pos_right _ (by decide)
  have hdeadline : call.ended call.init < call.deadline ↔ (call.bind 0).1 < call.timeout :=
    Nat.add_lt_add_iff_left
  have hagain : (∃ σ, MadeAt call 1 σ) ↔ ∃ σ, iteration call call.init = .again σ :=
    ⟨fun ⟨σ, hmade⟩ => ⟨σ, hmade.exists_prev .first⟩, fun ⟨σ, hnext⟩ => ⟨σ, .next .first hnext⟩⟩
  simp only [hagain, iteration_eq_again, hfirst, hdeadline, ← Bool.not_eq_true,
    Call.changed_of_late ht hsub, Missed]
  constructor
  · rintro ⟨-, htransient, hbefore, hnot, hwith, -⟩
    refine ⟨⟨t, ht, hsub⟩, htransient, hbefore, fun g hg => ?_⟩
    by_cases hlt : call.firstWake < g
    · exact .inl hlt
    · have hge : ¬g ≤ call.firstWake - 1 := fun hle => hnot ⟨g, hg, hle⟩
      exact .inr ⟨by omega, hwith ⟨g, hg, Nat.not_lt.mp hlt⟩⟩
  · rintro ⟨-, htransient, hbefore, hdropped⟩
    refine ⟨_, htransient, hbefore, ?_, ?_, rfl⟩
    · rintro ⟨g, hg, hle⟩
      rcases hdropped g hg with h | h <;> omega
    · rintro ⟨g, hg, hle⟩
      rcases hdropped g hg with h | h
      · omega
      · exact h.2

/-- The shutdown ends the loop unless the receiver has missed it. -/
theorem not_madeAt_of_flip (hmissed : ¬Missed call) {t : ℕ} (hmade : MadeAt call k σ)
    (ht : t ∈ call.flip) (hended : t ≤ call.ended σ) : ¬MadeAt call (k + 1) σ' := by
  intro hnext
  rcases Nat.lt_or_ge call.subscribed t with hsub | hsub
  · have hchanged := (hmade.again hnext).2.2.1
    rw [Call.changed_of_flip ht hsub hended] at hchanged
    cases hchanged
  · have hone : ∀ j σ, MadeAt call (j + 1) σ → ∃ σ, MadeAt call 1 σ := by
      intro j
      induction j with
      | zero => exact fun σ h => ⟨σ, h⟩
      | succ j ih =>
        rintro σ (_ | ⟨h, -⟩)
        exact ih _ h
    exact hmissed ((exists_madeAt_one_iff ht hsub).mp (hone k σ' hnext))

/-! ## Main result -/

/-- **The loop keeps its promises exactly when the receiver has not missed the shutdown.** -/
theorem faithful_iff (call : Call T) : Faithful call ↔ ¬Missed call := by
  constructor
  · intro hfaithful hmissed
    have hparts := hmissed
    obtain ⟨⟨t, ht, hsub⟩, ⟨err, herr, -⟩, -⟩ := hparts
    obtain ⟨σ, hmade⟩ := (exists_madeAt_one_iff ht hsub).mpr hmissed
    have hle : t ≤ call.ended call.init :=
      le_trans (le_trans hsub call.subscribed_le) (Nat.le_add_right _ _)
    exact hfaithful.stops 0 call.init err t .first herr ht hle σ hmade
  · intro hmissed
    refine ⟨terminates call, ?_, ?_, ?_, ?_, ?_, ?_, ?_, ?_⟩
    · intro k value
      refine exists_congr fun σ => and_congr_right fun _ => ⟨fun h => ?_, fun h => ?_⟩
      · rcases iteration_done h with ⟨value', houtcome, hr⟩ | ⟨err, -, ⟨-, hr⟩ | ⟨-, hr⟩ | hr⟩
        · cases hr
          exact houtcome
        all_goals cases hr
      · rw [iteration, h]
    · intro k err
      refine exists_congr fun σ => and_congr_right fun _ => ⟨fun h => ?_, fun h => ?_⟩
      · rcases iteration_done h with ⟨value, -, hr⟩ | ⟨err', houtcome, ⟨hnot, hr⟩ | ⟨-, hr⟩ | hr⟩
        · cases hr
        · cases hr
          exact ⟨houtcome, hnot⟩
        all_goals cases hr
      · simp [iteration, h.1, h.2]
    · exact fun k σ σ' hmade hnext => (hmade.again hnext).1
    · rintro k network addr timeout attempts err ⟨σ, hmade, h⟩
      refine ⟨σ, hmade, ?_⟩
      rcases iteration_done h with ⟨value, -, hr⟩ | ⟨err', houtcome, ⟨-, hr⟩ | ⟨hdeadline, hr⟩ | hr⟩
      · cases hr
      · cases hr
      · cases hr
        exact ⟨houtcome, hdeadline⟩
      · cases hr
    · exact fun k σ σ' hmade hnext => (hmade.again hnext).2.2.2
    · intro k σ' hnext
      cases hnext with
      | @next k σ σ' hmade hstep =>
        obtain ⟨-, hdeadline, -, hnow⟩ := hmade.again (.next hmade hstep)
        omega
    · intro k σ err t hmade _ ht hended σ'
      exact not_madeAt_of_flip hmissed hmade ht hended
    · intro k σ err t hmade houtcome htransient ht hended hdeadline
      rcases iteration_of_transient houtcome htransient hdeadline with hdone | ⟨σ', hnext⟩
      · exact ⟨σ, hmade, hdone⟩
      · exact absurd (.next hmade hnext) (not_madeAt_of_flip hmissed hmade ht hended)

/-- A listener that is bound after the shutdown, on an address that is not there. -/
def lateCall : Call Unit where
  network := "tcp"
  addr := "[2001:db8::1]:443"
  timeout := 1000
  start := 0
  bind := fun _ => (0, .error ⟨.addrNotAvailable, "address not available"⟩)
  flip := some 0
  dropped := none
  subscribed := 0
  sleepFirst := fun _ => true
  subscribed_le := le_refl 0

/-- It tries for as long as it may and never reports a cancellation. -/
theorem lateReceiver : ¬Faithful lateCall ∧ retryWithBackoff lateCall 5 =
    some (.error (.timedOut "tcp" "[2001:db8::1]:443" 1000 5
      ⟨.addrNotAvailable, "address not available"⟩)) := by
  refine ⟨fun hfaithful => ?_, by decide⟩
  exact hfaithful.stops 0 lateCall.init ⟨.addrNotAvailable, "address not available"⟩ 0 .first rfl rfl
    (le_refl 0) ⟨1, 100, 200⟩ (.next .first rfl)

end Retry
end Forwarder
end Cococoir
