import Cococoir.ControlPlane.InviteRuns
import Cococoir.ControlPlane.Schedules

/-!
# The one-time delivery

A device token exists in two places: its hash in the machine's record, and the token itself in
the payload that one poll collects.  They are written by two commands, the hash first, and
another call can write either in between, so a poll can collect a token whose hash is gone.

* `delivered_at_most_once`: in every schedule, a payload is returned by at most as many polls
  as calls stored it.
* `lostHash`: of two re-arms the first stores its payload last, over the hash of the second.
* `delivered_token_accepted`: in every schedule in which the two writes of a token are not
  separated, and a payload is collected while no begin is in progress, a collected token's hash
  stays in its machine's record, where a device registration finds it, until another re-arm is
  started.

## Two keys for one secret

A token is issued with two commands, the machine's record with the token's hash and the payload
with the token, under two keys.  What a poll hands out is good if the hash is still the stored one
when the token is used.  The invariant follows both through every interleaving: the payload that
is stored, or that some poll has collected, has the token whose hash its machine has.  A begin
that is between its two commands has replaced the hash and not yet the payload, so a poll that
comes then collects a token that is already dead; the condition keeps polls away while a begin is
halfway.
-/

namespace Cococoir
namespace ControlPlane

open Concurrency

variable (cp : ControlPlane)

/-- The device-token hash of the machine stored under a name. -/
def storedHash (w : World) (n : String) : Option String := (machineAt w n).bind (·.deviceTokenHash)

/-- A begin that has drawn a token and has not stored the payload. -/
def View.halfway (v : View) : Bool := v.call.begins && v.token.isSome && v.minted.isNone

/-- What is asked of one command of `call`: only a re-arm replaces the hash in a record, and
only a listed machine has one; a machine with a hash is neither deleted nor taken off the list;
a payload is stored while its hash is the stored one; and it is collected while every begin has
returned, with its payload stored if it drew a token. -/
def deliveryStep (σ : Server) (call : Call) : Cmd → Bool
  | .redis (.machine n (.set (.json m))) =>
    (call.begins || storedHash σ.world n = none || storedHash σ.world n = m.deviceTokenHash) &&
      (m.deviceTokenHash.isNone || n ∈ σ.world.index)
  | .redis (.machine n .del) => storedHash σ.world n = none
  | .redis (.index (.lrem n)) => storedHash σ.world n = none || 2 ≤ σ.world.index.count n
  | .redis (.delivery _ (.setEx (.json d) _)) =>
    storedHash σ.world d.machine.name = d.machine.deviceTokenHash
  | .redis (.delivery _ .getDel) =>
    σ.pool.all fun t => !t.call.begins || t.result.isSome && !(view t).halfway
  | _ => true

/-- Enrollment operations on one code, whose commands meet `deliveryStep`. -/
def KeepsDelivery (code : String) (σ : Server) : Tick → Prop
  | .start call => call.enrolls ∧ ∀ c ∈ cp.codeOf call, c = code
  | .step i _ => ∀ t ∈ σ.pool[i]?, ∀ c ∈ t.pending, deliveryStep σ t.call c

instance (code : String) : ∀ σ e, Decidable (KeepsDelivery cp code σ e)
  | _, .start call => inferInstanceAs (Decidable (call.enrolls = true ∧
      ∀ c ∈ cp.codeOf call, c = code))
  | σ, .step i _ => inferInstanceAs (Decidable (∀ t ∈ σ.pool[i]?, ∀ c ∈ t.pending,
      deliveryStep σ t.call c = true))

/-- A machine with a hash is listed, and the payload that is stored has the stored hash, or a
re-arm is halfway. -/
structure DeliveryKept (code : String) (w : World) (vs : List View) : Prop where
  about : ∀ v ∈ vs, ∀ c, cp.codeOf v.call = some c → c = code
  listed : ∀ n h, storedHash w n = some h → n ∈ w.index
  armed : ∀ d, w.deliveries code = some (.json d) →
    storedHash w d.machine.name = some (cp.tokenHash d.deviceToken) ∨ ∃ v ∈ vs, v.halfway

variable {cp} {code : String}

section Keep

variable {w w' : World} {vs : List View} {i : ℕ} {v v' : View}

theorem storedHash_eq_some {n h : String} :
    storedHash w n = some h ↔ ∃ m, w.machines n = some (.json m) ∧ m.deviceTokenHash = some h := by
  unfold storedHash
  rw [Option.bind_eq_some_iff]
  simp only [machineAt_eq_some]

theorem storedHash_congr {n : String} (h : w'.machines n = w.machines n) :
    storedHash w' n = storedHash w n := by
  unfold storedHash machineAt
  rw [h]

theorem storedHash_update {n : String} {m : Machine}
    (h : w'.machines = Function.update w.machines n (some (.json m))) :
    storedHash w' n = m.deviceTokenHash := by
  unfold storedHash machineAt
  rw [h, Function.update_self]
  rfl

/-- A step that keeps the stored hashes, or after which the call is halfway. -/
theorem DeliveryKept.step (h : DeliveryKept cp code w vs) (hvi : vs[i]? = some v)
    (hcall : v'.call = v.call) (hlisted : ∀ n h, storedHash w' n = some h → n ∈ w'.index)
    (hdelivery : w'.deliveries code = w.deliveries code)
    (hhash : v'.halfway ∨ ∀ n h, storedHash w n = some h → storedHash w' n = some h)
    (hhalf : v.halfway → v'.halfway) : DeliveryKept cp code w' (vs.set i v') := by
  refine ⟨fun u hu c hc => ?_, hlisted, fun d hd => ?_⟩
  · rcases List.mem_or_eq_of_mem_set hu with hu | rfl
    · exact h.about u hu c hc
    · exact h.about v (List.mem_of_getElem? hvi) c (hcall ▸ hc)
  · rcases hhash with hhash | hhash
    · have hself : v' ∈ vs.set i v' := List.mem_of_getElem?
        (List.getElem?_set_self (List.getElem?_eq_some_iff.mp hvi).1)
      exact Or.inr ⟨v', hself, hhash⟩
    · rw [hdelivery] at hd
      rcases h.armed d hd with hd | hd
      · exact Or.inl (hhash _ _ hd)
      · exact Or.inr (exists_mem_set (p := fun v => v.halfway) hvi hhalf hd)

/-- A step that leaves the records, the list and the payload. -/
theorem DeliveryKept.frame (h : DeliveryKept cp code w vs) (hvi : vs[i]? = some v)
    (hcall : v'.call = v.call) (hmachines : w'.machines = w.machines) (hindex : w'.index = w.index)
    (hdelivery : w'.deliveries code = w.deliveries code) (hhalf : v.halfway → v'.halfway) :
    DeliveryKept cp code w' (vs.set i v') := by
  have hsame : ∀ n, storedHash w' n = storedHash w n := fun n =>
    storedHash_congr (by rw [hmachines])
  refine h.step hvi hcall (fun n x hx => ?_) hdelivery (Or.inr fun n x hx => ?_) hhalf
  · rw [hindex]
    exact h.listed n x (hsame n ▸ hx)
  · rw [hsame]
    exact hx

/-- Writing a record, with the stored hash or by a re-arm that is halfway. -/
theorem DeliveryKept.write (h : DeliveryKept cp code w vs) (hvi : vs[i]? = some v)
    (hcall : v'.call = v.call) {m : Machine} {n : String}
    (hmachines : w'.machines = Function.update w.machines n (some (.json m)))
    (hindex : w'.index = w.index) (hdelivery : w'.deliveries code = w.deliveries code)
    (hlisted : m.deviceTokenHash = none ∨ n ∈ w.index)
    (hhash : v'.halfway ∨ storedHash w n = none ∨ storedHash w n = m.deviceTokenHash)
    (hhalf : v.halfway → v'.halfway) : DeliveryKept cp code w' (vs.set i v') := by
  have hself : storedHash w' n = m.deviceTokenHash := storedHash_update hmachines
  have hother : ∀ n', n' ≠ n → storedHash w' n' = storedHash w n' := fun n' hn =>
    storedHash_congr (by rw [hmachines, Function.update_of_ne hn])
  refine h.step hvi hcall (fun n' x hx => ?_) hdelivery (hhash.imp_right fun hhash n' x hx => ?_)
    hhalf
  · rw [hindex]
    by_cases hn : n' = n
    · subst hn
      rw [hself] at hx
      rcases hlisted with hnone | hmem
      · rw [hnone] at hx
        cases hx
      · exact hmem
    · exact h.listed n' x (hother n' hn ▸ hx)
  · by_cases hn : n' = n
    · subst hn
      rcases hhash with hnone | hsame
      · rw [hnone] at hx
        cases hx
      · rw [hself, ← hsame]
        exact hx
    · rw [hother n' hn]
      exact hx

end Keep

/-! ## Every admitted step -/

/-- Commands on other families than the payloads' leave the token and the payload stored. -/
theorem next_token (v : View) {op : RedisOp} (hdelivery : ∀ c o, op ≠ .delivery c o)
    (a : op.Resp) : (v.next (.redis op) (.ok a)).token = v.token ∧
      (v.next (.redis op) (.ok a)).minted = v.minted ∧
        (v.next (.redis op) (.ok a)).got = v.got := by
  cases op with
  | delivery c o => exact absurd rfl (hdelivery c o)
  | machine n o =>
    cases o with
    | get =>
      match a with
      | none => exact ⟨rfl, rfl, rfl⟩
      | some (.json r) => exact ⟨rfl, rfl, rfl⟩
      | some (.corrupt _ _) => exact ⟨rfl, rfl, rfl⟩
    | set x => cases x <;> exact ⟨rfl, rfl, rfl⟩
    | setNx x => cases x <;> cases a <;> exact ⟨rfl, rfl, rfl⟩
    | _ => exact ⟨rfl, rfl, rfl⟩
  | index o => cases o <;> exact ⟨rfl, rfl, rfl⟩
  | alloc o => cases o <;> exact ⟨rfl, rfl, rfl⟩
  | invite code o =>
    obtain ⟨_, _, _, h⟩ := next_invite v a
    rw [h]
    exact ⟨rfl, rfl, rfl⟩
  | _ => exact ⟨rfl, rfl, rfl⟩

theorem next_halfway (v : View) {op : RedisOp} (hdelivery : ∀ c o, op ≠ .delivery c o)
    (a : op.Resp) : (v.next (.redis op) (.ok a)).halfway = v.halfway := by
  obtain ⟨htoken, hminted, -⟩ := next_token v hdelivery a
  rw [View.halfway, View.halfway, next_call, htoken, hminted]

/-- The condition on the command that a call issues next. -/
theorem KeepsDelivery.deliveryStep {σ : Server} {i : ℕ} {ch : Choice} {t : Handler} {c : Cmd}
    (h : KeepsDelivery cp code σ (.step i ch)) (hi : σ.pool[i]? = some t)
    (ht : t.pending = some c) : deliveryStep σ t.call c := h t hi c ht

/-- **Every admitted step keeps what is known about the payload.** -/
theorem deliveryKept_checks : Checks cp (KeepsDelivery cp code) (DeliveryKept cp code) where
  enrolls _ _ h := h.1
  start σ call hallowed h := by
    refine ⟨fun u hu c hc => ?_, h.listed, fun d hd => ?_⟩
    · rcases List.mem_append.mp hu with hu | hu
      · exact h.about u hu c hc
      · rw [List.mem_singleton.mp hu] at hc
        exact hallowed.2 c hc
    · refine (h.armed d hd).imp_right fun ⟨u, hu, hhalf⟩ => ?_
      exact ⟨u, List.mem_append_left _ hu, hhalf⟩
  outside token hdrawn hstore hvi h := by
    refine h.frame hvi rfl hstore.machines hstore.index (by rw [hstore.deliveries]) fun hhalf => ?_
    simp only [View.halfway, Bool.and_eq_true] at hhalf ⊢
    exact ⟨⟨hhalf.1.1, hdrawn hhalf.1.2⟩, hhalf.2⟩
  redis σ i ch t op hallowed _ hi hpend hmove _ h := by
    have hvi : (views σ)[i]? = some (view t) := Protocol.getElem?_states (P := moves cp) hi
    have hmem : view t ∈ views σ := List.mem_of_getElem? hvi
    have hstep : deliveryStep σ t.call (.redis op) := hallowed.deliveryStep hi hpend
    have hframe : (∀ n o, op ≠ .machine n o) → (∀ o, op ≠ .index o) →
        (∀ c o, op ≠ .delivery c o) → DeliveryKept cp code (op.exec σ.world).2
          ((views σ).set i ((view t).next (.redis op) (.ok (op.exec σ.world).1))) := by
      intro hmachine hindex hdelivery
      refine h.frame hvi (next_call _ _ _) ?_ ?_ ?_ fun hhalf =>
        (next_halfway (view t) hdelivery _).trans hhalf
      all_goals cases op <;> first | rfl | exact absurd rfl (hmachine _ _) |
        exact absurd rfl (hindex _) | exact absurd rfl (hdelivery _ _)
    cases hmove with
    | outside h => exact absurd rfl (h op)
    | @readMachine n =>
      rw [exec_machine_get]
      exact h.frame hvi (next_call _ _ _) rfl rfl rfl fun hhalf =>
        (next_halfway (view t) (by simp) _).trans hhalf
    | readIndex =>
      rw [exec_index_lrange]
      exact h.frame hvi rfl rfl rfl rfl id
    | @claim z m hhost htwo hips hhash _ =>
      have hhalf := @next_halfway (view t) (.machine m.name (.setNx (.json m))) (by simp)
        ((RedisOp.machine m.name (.setNx (.json m))).exec σ.world).1
      cases hx : σ.world.machines m.name with
      | none =>
        have hnone : storedHash σ.world m.name = none := by
          simp [storedHash, machineAt, hx]
        exact h.write hvi (next_call _ _ _) (m := m) (n := m.name) (by simp [RedisOp.exec, hx]) rfl
          rfl (Or.inl hhash) (Or.inr (Or.inl hnone)) fun hh => hhalf.trans hh
      | some x =>
        have hsame : ((RedisOp.machine m.name (.setNx (.json m))).exec σ.world).2.machines =
            σ.world.machines := by
          simp only [RedisOp.exec, Redis.exec_setNx, hx, Option.getD_some]
          rw [← hx, Function.update_eq_self]
        exact h.frame hvi (next_call _ _ _) hsame rfl rfl fun hh => hhalf.trans hh
    | @rotate m key hknown hbegins =>
      rw [view_call] at hbegins
      obtain ⟨hcond, hlisted⟩ := Bool.and_eq_true_iff.mp hstep
      simp only [hbegins, Bool.false_or, Bool.or_eq_true, decide_eq_true_eq, Option.isNone_iff_eq_none]
        at hcond hlisted
      exact h.write hvi rfl rfl rfl rfl hlisted (Or.inr hcond) id
    | @attach m token hsource htoken hminted =>
      obtain ⟨hcond, hlisted⟩ := Bool.and_eq_true_iff.mp hstep
      simp only [Bool.or_eq_true, decide_eq_true_eq, Option.isNone_iff_eq_none] at hcond hlisted
      refine h.write hvi rfl rfl rfl rfl hlisted ?_ id
      rcases hcond with (hbegins | hnone) | hsame
      · left
        simp only [View.halfway, Bool.and_eq_true]
        refine ⟨⟨?_, ?_⟩, ?_⟩
        · exact (congrArg Call.begins (view_call t)).trans hbegins
        · exact Option.isSome_iff_exists.mpr ⟨token, htoken⟩
        · exact Option.isNone_iff_eq_none.mpr hminted
      · exact Or.inr (Or.inl hnone)
      · exact Or.inr (Or.inr hsame)
    | @drop n _ =>
      have hnone : storedHash σ.world n = none := of_decide_eq_true hstep
      have hmachines : ((RedisOp.machine n .del).exec σ.world).2.machines =
          Function.update σ.world.machines n none := by simp [RedisOp.exec]
      have hsame : ∀ n', storedHash ((RedisOp.machine n .del).exec σ.world).2 n' =
          storedHash σ.world n' := by
        intro n'
        by_cases hn : n' = n
        · subst hn
          rw [hnone]
          simp [storedHash, machineAt, hmachines]
        · exact storedHash_congr (by rw [hmachines, Function.update_of_ne hn])
      exact h.step hvi rfl (fun n' x hx => h.listed n' x (hsame n' ▸ hx)) rfl
        (Or.inr fun n' x hx => (hsame n').trans hx) id
    | @enlist n _ =>
      exact h.step hvi rfl (fun n' x hx => List.mem_append_left _ (h.listed n' x hx)) rfl
        (Or.inr fun _ _ hx => hx) id
    | @unlist n hit _ =>
      have hcond : storedHash σ.world n = none ∨ 2 ≤ σ.world.index.count n := by
        simpa [ControlPlane.deliveryStep] using hstep
      refine h.step hvi rfl (fun n' x hx => ?_) rfl (Or.inr fun _ _ hx => hx) id
      change n' ∈ σ.world.index.erase n
      by_cases hn : n' = n
      · subst hn
        rcases hcond with hnone | hcount
        · rw [show storedHash σ.world n' = some x from hx] at hnone
          cases hnone
        · rw [← List.count_pos_iff, List.count_erase_self]
          omega
      · exact (List.mem_erase_of_ne hn).mpr (h.listed n' x hx)
    | @deliver code' ttl d hcode _ hminted hhash =>
      obtain rfl := h.about (view t) hmem code' hcode
      have hstored : storedHash σ.world d.machine.name = d.machine.deviceTokenHash :=
        of_decide_eq_true hstep
      refine ⟨fun u hu c hc => ?_, h.listed, fun d' hd' => ?_⟩
      · rcases List.mem_or_eq_of_mem_set hu with hu | rfl
        · exact h.about u hu c hc
        · exact h.about (view t) hmem c hc
      · have hd : d = d' := by simpa [RedisOp.exec] using hd'
        subst hd
        exact Or.inl (hstored.trans hhash)
    | @collect code' r hcode _ _ _ =>
      obtain rfl := h.about (view t) hmem code' hcode
      refine ⟨fun u hu c hc => ?_, h.listed, fun d' hd' => ?_⟩
      · rcases List.mem_or_eq_of_mem_set hu with hu | rfl
        · exact h.about u hu c hc
        · rw [next_call] at hc
          exact h.about (view t) hmem c hc
      · simp [RedisOp.exec] at hd'
    | _ => exact hframe (by simp) (by simp) (by simp)

/-! ## Payloads stored and collected -/

/-- Whether the payload `d` is stored for the code, as a number. -/
def payloadStored (code : String) (w : World) (d : EnrollmentDelivery) : ℤ :=
  if w.deliveries code = some (.json d) then 1 else 0

variable (cp) in
/-- The call has stored the payload `d` for the code. -/
def View.stored (code : String) (d : EnrollmentDelivery) (v : View) : Bool :=
  cp.codeOf v.call = some code && v.minted = some d

variable (cp) in
/-- The call has collected the payload `d` of the code. -/
def View.collected (code : String) (d : EnrollmentDelivery) (v : View) : Bool :=
  cp.codeOf v.call = some code && v.got = some d

/-- Nothing is collected that was not there at first or stored by a call. -/
def Balanced (cp : ControlPlane) (code : String) (d : EnrollmentDelivery) (z : ℤ) (w : World)
    (vs : List View) : Prop :=
  (vs.countP (View.collected cp code d) : ℤ) + payloadStored code w d ≤
    vs.countP (View.stored cp code d) + z

/-- Enrollment operations, without a condition on their commands. -/
def Enrolling (_ : Server) : Tick → Prop
  | .start call => call.enrolls
  | .step _ _ => True

instance : ∀ σ e, Decidable (Enrolling σ e)
  | _, .start call => inferInstanceAs (Decidable (call.enrolls = true))
  | _, .step _ _ => inferInstanceAs (Decidable True)

section Balance

variable {w w' : World} {vs : List View} {i : ℕ} {v v' : View} {d : EnrollmentDelivery} {z : ℤ}

theorem countP_set {p : View → Bool} (hvi : vs[i]? = some v) :
    ((vs.set i v').countP p : ℤ) = vs.countP p - (if p v then 1 else 0) + if p v' then 1 else 0 := by
  rw [← sum_map_ite, ← sum_map_ite, sum_map_set _ hvi]

theorem Balanced.frame (h : Balanced cp code d z w vs) (hvi : vs[i]? = some v)
    (hdelivery : w'.deliveries code = w.deliveries code)
    (hv : v'.call = v.call ∧ v'.minted = v.minted ∧ v'.got = v.got) :
    Balanced cp code d z w' (vs.set i v') := by
  have hstored : View.stored cp code d v' = View.stored cp code d v := by
    rw [View.stored, View.stored, hv.1, hv.2.1]
  have hcollected : View.collected cp code d v' = View.collected cp code d v := by
    rw [View.collected, View.collected, hv.1, hv.2.2]
  unfold Balanced payloadStored at h ⊢
  rw [countP_set hvi, countP_set hvi, hstored, hcollected, hdelivery]
  omega

/-- A step of a call on another code. -/
theorem Balanced.elsewhere (h : Balanced cp code d z w vs) (hvi : vs[i]? = some v)
    (hcode : cp.codeOf v.call ≠ some code) (hdelivery : w'.deliveries code = w.deliveries code)
    (hcall : v'.call = v.call) : Balanced cp code d z w' (vs.set i v') := by
  have hstored : View.stored cp code d v' = View.stored cp code d v := by
    simp [View.stored, hcall, hcode]
  have hcollected : View.collected cp code d v' = View.collected cp code d v := by
    simp [View.collected, hcall, hcode]
  unfold Balanced payloadStored at h ⊢
  rw [countP_set hvi, countP_set hvi, hstored, hcollected, hdelivery]
  omega

/-- Storing a payload. -/
theorem Balanced.store (h : Balanced cp code d z w vs) (hvi : vs[i]? = some v)
    (hminted : v.minted = none) {d' : EnrollmentDelivery}
    (hdelivery : w'.deliveries code = some (.json d'))
    (hv : v'.call = v.call ∧ v'.minted = some d' ∧ v'.got = v.got)
    (hcode : cp.codeOf v.call = some code) : Balanced cp code d z w' (vs.set i v') := by
  have hcollected : View.collected cp code d v' = View.collected cp code d v := by
    rw [View.collected, View.collected, hv.1, hv.2.2]
  have hbefore : View.stored cp code d v = false := by simp [View.stored, hminted]
  have hafter : View.stored cp code d v' = decide (d' = d) := by
    simp [View.stored, hv.1, hv.2.1, hcode]
  have hnonneg : 0 ≤ payloadStored code w d := by
    unfold payloadStored
    split_ifs <;> omega
  have hwaiting : payloadStored code w' d = if d' = d then 1 else 0 := by
    simp [payloadStored, hdelivery]
  unfold Balanced at h ⊢
  rw [countP_set hvi, countP_set hvi, hcollected, hbefore, hafter, hwaiting]
  by_cases hd : d' = d
  · simp [hd]
    omega
  · simp [hd]
    omega

/-- Collecting the payload that is stored, if any. -/
theorem Balanced.collect (h : Balanced cp code d z w vs) (hvi : vs[i]? = some v)
    (hgot : v.got = none) (hdelivery : w'.deliveries code = none) (hcall : v'.call = v.call)
    (hv : v'.minted = v.minted ∧ v'.got = match w.deliveries code with
      | some (.json d') => some d'
      | _ => none) : Balanced cp code d z w' (vs.set i v') := by
  have hstored : View.stored cp code d v' = View.stored cp code d v := by
    rw [View.stored, View.stored, hcall, hv.1]
  have hbefore : View.collected cp code d v = false := by simp [View.collected, hgot]
  have hafter : (if View.collected cp code d v' then (1 : ℤ) else 0) ≤ payloadStored code w d := by
    unfold View.collected payloadStored
    rw [hv.2]
    match hx : w.deliveries code with
    | none => simp
    | some (.corrupt _ _) => simp
    | some (.json d') =>
      by_cases hd : d' = d
      · simp only [hd, if_true]
        split_ifs <;> omega
      · simp [hd]
  have hwaiting : payloadStored code w' d = 0 := by simp [payloadStored, hdelivery]
  unfold Balanced at h ⊢
  rw [countP_set hvi, countP_set hvi, hstored, hbefore, hwaiting]
  simp only [Bool.false_eq_true, if_false]
  omega

theorem balanced_checks (code : String) (d : EnrollmentDelivery) (z : ℤ) :
    Checks cp Enrolling (Balanced cp code d z) where
  enrolls _ _ h := h
  start σ call _ h := by
    unfold Balanced at h ⊢
    rw [List.countP_append, List.countP_append]
    simpa [View.stored, View.collected, View.init] using h
  outside token _ hstore hvi h := h.frame hvi (by rw [hstore.deliveries]) ⟨rfl, rfl, rfl⟩
  redis σ i ch t op _ _ hi _ hmove _ h := by
    have hvi : (views σ)[i]? = some (view t) := Protocol.getElem?_states (P := moves cp) hi
    have hframe : (∀ c o, op ≠ .delivery c o) → Balanced cp code d z (op.exec σ.world).2
        ((views σ).set i ((view t).next (.redis op) (.ok (op.exec σ.world).1))) := by
      intro hdelivery
      refine h.frame hvi ?_ ⟨next_call _ _ _, (next_token (view t) hdelivery _).2⟩
      cases op <;> first | rfl | exact absurd rfl (hdelivery _ _)
    cases hmove with
    | outside h => exact absurd rfl (h op)
    | @deliver code' ttl d' hcode _ hminted _ =>
      by_cases hc : code' = code
      · subst hc
        exact h.store hvi hminted (Function.update_self ..) ⟨rfl, rfl, rfl⟩ hcode
      · exact h.elsewhere hvi (by rw [hcode]; simpa using hc)
          (Function.update_of_ne (Ne.symm hc) _ _) rfl
    | @collect code' r hcode _ _ hgot =>
      by_cases hc : code' = code
      · subst hc
        have hgone : ((RedisOp.delivery code' .getDel).exec σ.world).2.deliveries code' = none :=
          Function.update_self ..
        refine h.collect hvi hgot hgone (next_call _ _ _) ?_
        rw [show ((RedisOp.delivery code' .getDel).exec σ.world).1 =
          σ.world.deliveries code' from rfl]
        cases σ.world.deliveries code' with
        | none => exact ⟨rfl, hgot⟩
        | some x =>
          cases x with
          | json d' => exact ⟨rfl, rfl⟩
          | corrupt text err => exact ⟨rfl, hgot⟩
      · exact h.elsewhere hvi (by rw [hcode]; simpa using hc)
          (Function.update_of_ne (Ne.symm hc) _ _) (next_call _ _ _)
    | _ => exact hframe (by simp)

end Balance

/-! ## After a payload was collected -/

/-- Every begin that was accepted has returned. -/
def BeginsDone (σ : Server) : Prop := ∀ t ∈ σ.pool, t.call.begins → t.result.isSome

/-- The event is not part of a begin. -/
def Beginless (σ : Server) : Tick → Prop
  | .start call => call.begins = false
  | .step i _ => ∀ t ∈ σ.pool[i]?, t.pending.isSome → t.call.begins = false

/-- When every begin has returned and none is accepted, no event is part of one. -/
theorem beginless_next {σ : Server} {e : Tick} (h : BeginsDone σ)
    (he : ∀ call, e = .start call → call.begins = false) :
    Beginless σ e ∧ BeginsDone (Conf.next Cmd.exec cp.body σ e) := by
  have hstep : ∀ t ∈ σ.pool, t.pending.isSome → t.call.begins = false := by
    intro t ht hpend
    by_contra hb
    have hdone := h t ht (by simpa using hb)
    cases hprog : t.prog with
    | done o => simp [Thread.pending, hprog] at hpend
    | cmd c k => simp [Thread.result, hprog] at hdone
  cases e with
  | start call =>
    refine ⟨he call rfl, fun t ht hb => ?_⟩
    rcases List.mem_append.mp ht with ht | ht
    · exact h t ht hb
    · rw [List.mem_singleton.mp ht] at hb
      have hnot := he call rfl
      rw [show call.begins = true from hb] at hnot
      cases hnot
  | step i ch =>
    refine ⟨fun t ht => hstep t (List.mem_of_getElem? ht), ?_⟩
    rcases @Conf.next_step_cases _ _ _ _ _ _ _ Cmd.exec cp.body σ i ch with
      hn | ⟨t, c, k, hi, ht, hn⟩
    · rw [hn]
      exact h
    · rw [hn]
      intro u hu hb
      rcases List.mem_or_eq_of_mem_set hu with hu | rfl
      · exact h u hu hb
      · have hnot := hstep t (List.mem_of_getElem? hi) (by rw [Thread.pending, ht]; rfl)
        rw [show t.call.begins = true from hb] at hnot
        cases hnot

/-- Without begins, the hash in a record stays. -/
theorem hashStays_checks (n h : String) :
    Checks cp (fun σ e => KeepsDelivery cp code σ e ∧ Beginless σ e)
      (fun w _ => storedHash w n = some h) where
  enrolls _ _ hallowed := hallowed.1.1
  start _ _ _ hw := hw
  outside _ _ hstore _ hw := (storedHash_congr (by rw [hstore.machines])).trans hw
  redis σ i ch t op hallowed _ hi hpend hmove _ hw := by
    have hstep : deliveryStep σ t.call (.redis op) := hallowed.1.deliveryStep hi hpend
    have hbegins : t.call.begins = false := hallowed.2 t hi (by rw [hpend]; rfl)
    have hset : ∀ (m : Machine) (n' : String) (w' : World),
        w'.machines = Function.update σ.world.machines n' (some (.json m)) →
        deliveryStep σ t.call (.redis (.machine n' (.set (.json m)))) → storedHash w' n = some h := by
      intro m n' w' hmachines hcond
      have hcond := (Bool.and_eq_true_iff.mp hcond).1
      simp only [hbegins, Bool.false_or, Bool.or_eq_true, decide_eq_true_eq] at hcond
      by_cases hn : n = n'
      · subst hn
        rw [hw] at hcond
        rcases hcond with hcond | hcond
        · cases hcond
        · exact (storedHash_update hmachines).trans hcond.symm
      · exact (storedHash_congr (by rw [hmachines, Function.update_of_ne hn])).trans hw
    cases hmove with
    | outside h => exact absurd rfl (h op)
    | readMachine =>
      rw [exec_machine_get]
      exact hw
    | @claim z m _ _ _ _ _ =>
      obtain ⟨x, hx, hhash⟩ := storedHash_eq_some.mp hw
      refine storedHash_eq_some.mpr ⟨x, ?_, hhash⟩
      by_cases hn : n = m.name
      · subst hn
        simp [RedisOp.exec, hx]
      · exact (Function.update_of_ne hn _ _).trans hx
    | rotate _ _ => exact hset _ _ _ rfl hstep
    | attach _ _ _ => exact hset _ _ _ rfl hstep
    | @drop n' _ =>
      have hnone : storedHash σ.world n' = none := of_decide_eq_true hstep
      have hn : n ≠ n' := by
        rintro rfl
        rw [hw] at hnone
        cases hnone
      exact (storedHash_congr (Function.update_of_ne hn _ _)).trans hw
    | _ => exact hw

/-! ## Tokens in reachable states -/

/-- The event is a poll's collection of the payload `d` stored for the code. -/
def Collects (code : String) (σ : Server) (i : ℕ) (ch : Choice) (d : EnrollmentDelivery) : Prop :=
  ch.fails = false ∧ σ.world.deliveries code = some (.json d) ∧
    σ.pool[i]?.bind Thread.pending = some (.redis (.delivery code .getDel))

/-- The payload that a poll has returned. -/
def returned (t : Handler) : Option EnrollmentDelivery :=
  match t.call, t.result with
  | .invitePoll _, some (.ok (.poll ⟨_, some m, some token⟩)) => some ⟨m, token⟩
  | _, _ => none

/-- **A payload is returned by at most as many polls as calls stored it**, in every schedule
of enrollment operations; one more if it was there before. -/
theorem delivered_at_most_once {w : World} (hw : Named w) {ticks : List Tick}
    (hadm : Server.Admissible cp Enrolling ⟨w, []⟩ ticks) (code : String)
    (d : EnrollmentDelivery) :
    (Server.run cp ⟨w, []⟩ ticks).pool.countP
        (fun t => cp.codeOf t.call = some code && returned t = some d) ≤
      (Server.run cp ⟨w, []⟩ ticks).pool.countP
          (fun t => cp.codeOf t.call = some code && (view t).minted = some d) +
        if w.deliveries code = some (.json d) then 1 else 0 := by
  have hinit : Balanced cp code d (payloadStored code w d) w [] := by simp [Balanced]
  have hkeeps := (balanced_checks code d _).run hw hinit hadm
  have hbalance : Balanced cp code d (payloadStored code w d)
      (Server.run cp ⟨w, []⟩ ticks).world (views (Server.run cp ⟨w, []⟩ ticks)) := hkeeps.holds.2
  have hreturned : ∀ t ∈ (Server.run cp ⟨w, []⟩ ticks).pool, returned t = some d →
      (view t).got = some d := by
    intro t ht hret
    unfold returned at hret
    split at hret
    · rename_i text status m token hcall hresult
      have hsettled := hkeeps.fin_of_result ht hresult
      change Settled (view t) _ at hsettled
      unfold Settled at hsettled
      rw [view_call, hcall] at hsettled
      obtain ⟨hm, htoken⟩ := hsettled
      cases hgot : (view t).got with
      | none =>
        rw [hgot] at hm
        cases hm
      | some d' =>
        rw [hgot] at hm htoken
        cases hret
        cases hm
        cases htoken
        rfl
    · cases hret
  have hle : (Server.run cp ⟨w, []⟩ ticks).pool.countP
      (fun t => cp.codeOf t.call = some code && returned t = some d) ≤
        (views (Server.run cp ⟨w, []⟩ ticks)).countP (View.collected cp code d) := by
    rw [views, List.countP_map]
    refine List.countP_mono_left fun t ht h => ?_
    simp only [Bool.and_eq_true, decide_eq_true_eq] at h
    simp only [Function.comp_apply, View.collected, Bool.and_eq_true, decide_eq_true_eq, view_call]
    exact ⟨h.1, hreturned t ht h.2⟩
  have hstored : (views (Server.run cp ⟨w, []⟩ ticks)).countP (View.stored cp code d) =
      (Server.run cp ⟨w, []⟩ ticks).pool.countP
        (fun t => cp.codeOf t.call = some code && (view t).minted = some d) := by
    rw [views, List.countP_map]
    refine List.countP_congr fun t _ => ?_
    simp [View.stored, view_call]
  have hnonneg : 0 ≤ payloadStored code (Server.run cp ⟨w, []⟩ ticks).world d := by
    unfold payloadStored
    split_ifs <;> omega
  unfold Balanced at hbalance
  rw [hstored] at hbalance
  have hcast : (payloadStored code w d : ℤ) =
      ((if w.deliveries code = some (.json d) then 1 else 0 : ℕ) : ℤ) := by
    unfold payloadStored
    split_ifs <;> rfl
  omega

/-- A machine whose hash is stored is found by its token. -/
theorem registers_of_stored {w w' : World} (hw : Named w) (hdec : Decoded w) {n token key : String}
    (hmem : n ∈ w.index) (hhash : storedHash w n = some (cp.tokenHash token))
    {o : Outcome ControlPlaneError Machine}
    (h : (cp.deviceRegister token key).Runs Cmd.exec Reliable w o w') :
    o ≠ .err (.notFound "no machine for this device token") := by
  obtain ⟨m, hm, hmh⟩ := storedHash_eq_some.mp hhash
  have hdecodes : Decodes w := by
    intro n' _ text err hn'
    obtain ⟨m', hm'⟩ := hdec n' _ hn'
    cases hm'
  have hlisted : m ∈ listed w := List.mem_filterMap.mpr ⟨n, hmem, machineAt_eq_some.mpr hm⟩
  intro ho
  subst ho
  generalize ho : (Outcome.err _ : Outcome _ Machine) = o at h
  cases runs_deviceRegister hdecodes h with
  | blank _ => cases ho
  | refused hkey =>
    unfold validateWgPubkey at hkey
    split_ifs at hkey
    cases hkey
    cases ho
  | unknown hnone =>
    have := List.find?_eq_none.mp hnone m hlisted
    simp [hmh] at this
  | @found target o' w' hfind halloc =>
    have htarget := List.mem_of_find?_eq_some hfind
    obtain ⟨n', -, ht⟩ := List.mem_filterMap.mp htarget
    have ht := machineAt_eq_some.mp ht
    have hname := hw n' target ht
    cases halloc with
    | refused hgate =>
      cases ho
      exact allocationGate_ne_notFound hgate
    | crashed _ => cases ho
    | corrupt _ _ => cases ho
    | existing _ _ => cases ho
    | fresh _ hfree _ =>
      rw [hname, ht] at hfree
      cases hfree

/-- An owner signs up and creates an invite, a machine begins it and is approved. -/
def enrollment : List Tick :=
  .start (.accountSignup "owner@example.net" "correct horse") :: List.replicate 7 (.step 0 {}) ++
    .start (.inviteCreate "owner@example.net") :: List.replicate 5 (.step 1 {}) ++
    .start (.inviteBegin sampleCode keyA) :: List.replicate 2 (.step 2 {}) ++
    .start (.inviteApprove "owner@example.net" sampleCode "kitchen") ::
      List.replicate 16 (.step 3 {})

/-- After the enrollment the machine begins twice.  The first begin writes its hash, the second
its hash and its payload, then the first its payload, and a poll collects that. -/
def crossedRearms : List Tick :=
  enrollment ++
    .start (.inviteBegin sampleCode keyA) :: List.replicate 5 (.step 4 { bytes := List.replicate 32 1 }) ++
    .start (.inviteBegin sampleCode keyA) :: List.replicate 6 (.step 5 { bytes := List.replicate 32 2 }) ++
    .step 4 {} :: .start (.invitePoll sampleCode) :: List.replicate 2 (.step 6 {})

/-- The token that is collected after the crossed re-arms has no hash, and it is refused. -/
theorem lostHash :
    let σ := Server.run sample ⟨World.empty, []⟩ (crossedRearms ++
      .start (.deviceRegister (hexEncode (List.replicate 32 1)) keyB) :: List.replicate 2 (.step 7 {}))
    (σ.pool[6]?.bind returned).map (·.deviceToken) = some (hexEncode (List.replicate 32 1)) ∧
      storedHash σ.world "kitchen" ≠ some (sample.tokenHash (hexEncode (List.replicate 32 1))) ∧
      σ.pool[7]?.bind Thread.result =
        some (.err (.controlPlane (.notFound "no machine for this device token"))) := by
  decide +kernel

/-- **A collected token is accepted.**  In every schedule whose commands meet `deliveryStep`, a
payload is returned by at most as many polls as calls stored it; and from a poll that collects
a token to the end of the schedule, if no begin is started in between, the token's hash is in
its machine's record and a device registration finds a machine for it. -/
theorem delivered_token_accepted {w : World} (hw : Named w) (hdec : Decoded w)
    (hlisted : ∀ n h, storedHash w n = some h → n ∈ w.index)
    (harmed : ∀ d, w.deliveries code = some (.json d) →
      storedHash w d.machine.name = some (cp.tokenHash d.deviceToken)) {ticks : List Tick}
    (hadm : Server.Admissible cp (KeepsDelivery cp code) ⟨w, []⟩ ticks) :
    (∀ d, (Server.run cp ⟨w, []⟩ ticks).pool.countP
        (fun t => cp.codeOf t.call = some code && returned t = some d) ≤
      (Server.run cp ⟨w, []⟩ ticks).pool.countP
          (fun t => cp.codeOf t.call = some code && (view t).minted = some d) +
        if w.deliveries code = some (.json d) then 1 else 0) ∧
    ∀ before i ch after d, ticks = before ++ .step i ch :: after →
      Collects code (Server.run cp ⟨w, []⟩ before) i ch d →
      (∀ call, .start call ∈ after → call.begins = false) →
      (∃ m, (Server.run cp ⟨w, []⟩ ticks).world.machines d.machine.name = some (.json m) ∧
        m.deviceTokenHash = some (cp.tokenHash d.deviceToken)) ∧
      ∀ key o w', (cp.deviceRegister d.deviceToken key).Runs Cmd.exec Reliable
          (Server.run cp ⟨w, []⟩ ticks).world o w' →
        o ≠ .err (.notFound "no machine for this device token") := by
  have hinit : DeliveryKept cp code w [] :=
    ⟨fun v hv => absurd hv List.not_mem_nil, hlisted, fun d hd => Or.inl (harmed d hd)⟩
  have hkeeps := deliveryKept_checks.run hw hinit hadm
  refine ⟨fun d => delivered_at_most_once hw (hadm.mono fun σ e he => ?_) code d, ?_⟩
  · cases e with
    | start call => exact he.1
    | step i ch => trivial
  rintro before i ch after d rfl ⟨hok, hd, hpoll⟩ hafter
  obtain ⟨t, hi, ht⟩ := Option.bind_eq_some_iff.mp hpoll
  obtain ⟨hbefore, hevent, hrest⟩ := Conf.admissible_append.mp hadm
  have hσ := deliveryKept_checks.run hw hinit hbefore
  have hquiet : ∀ u ∈ (Server.run cp ⟨w, []⟩ before).pool, u.call.begins →
      u.result.isSome ∧ ¬(view u).halfway := by
    intro u hu hb
    have hcond := List.all_eq_true.mp (KeepsDelivery.deliveryStep hevent hi ht) u hu
    simpa [hb] using hcond
  have hmatch : storedHash (Server.run cp ⟨w, []⟩ before).world d.machine.name =
      some (cp.tokenHash d.deviceToken) := by
    rcases hσ.holds.2.armed d hd with h | ⟨v, hv, hhalf⟩
    · exact h
    · obtain ⟨u, hu, rfl⟩ := List.mem_map.mp hv
      have hb : (view u).call.begins := by
        simp only [View.halfway, Bool.and_eq_true] at hhalf
        exact hhalf.1.1
      exact absurd hhalf (hquiet u hu (by rw [← view_call u]; exact hb)).2
  -- the collection itself leaves the records and ends no begin
  have hchecks : Checks cp (KeepsDelivery cp code) (DeliveryKept cp code) := deliveryKept_checks
  have hnext := hchecks.steps.next_keeps hσ hevent
  obtain ⟨c, k, hprog⟩ : ∃ c k, t.prog = .cmd c k := by
    cases hprog : t.prog with
    | done o => simp [Thread.pending, hprog] at ht
    | cmd c k => exact ⟨c, k, rfl⟩
  obtain rfl : c = .redis (.delivery code .getDel) := by
    simpa [Thread.pending, hprog] using ht
  have hdone : BeginsDone (Conf.next Cmd.exec cp.body (Server.run cp ⟨w, []⟩ before)
      (.step i ch)) :=
    (beginless_next (fun u hu hb => (hquiet u hu hb).1) fun call h => by cases h).2
  have hmatch' : storedHash (Conf.next Cmd.exec cp.body (Server.run cp ⟨w, []⟩ before)
      (.step i ch)).world d.machine.name = some (cp.tokenHash d.deviceToken) := by
    rw [Conf.next_step hi hprog, exec_redis_of_not_fails hok]
    exact hmatch
  have hadm' : Server.Admissible cp (fun σ e => KeepsDelivery cp code σ e ∧ Beginless σ e)
      (Conf.next Cmd.exec cp.body (Server.run cp ⟨w, []⟩ before) (.step i ch)) after := by
    refine (hrest.and_mem (Q := fun e => ∀ call, e = .start call → call.begins = false)
      fun e he call h => hafter call (h ▸ he)).strengthen BeginsDone (fun σ e hσ he => ?_) hdone
    obtain ⟨hless, hdone⟩ : Beginless σ e ∧ BeginsDone (Conf.next Cmd.exec cp.body σ e) :=
      beginless_next hσ he.2
    exact ⟨⟨he.1, hless⟩, hdone⟩
  have hchecks : Checks cp (fun σ e => KeepsDelivery cp code σ e ∧ Beginless σ e) fun w _ =>
      storedHash w d.machine.name = some (cp.tokenHash d.deviceToken) := hashStays_checks _ _
  have hstays := hchecks.steps.run_keeps
      ⟨hnext.conforms, hnext.holds.1, hmatch'⟩ hadm'
  have hfinal : storedHash (Server.run cp ⟨w, []⟩ (before ++ .step i ch :: after)).world
      d.machine.name = some (cp.tokenHash d.deviceToken) := by
    rw [Server.run, Conf.run_append, Conf.run_cons]
    exact hstays.holds.2
  have hdecoded := ((decoded_checks fun σ call h => h.1).run hw hdec hadm).holds.2
  exact ⟨storedHash_eq_some.mp hfinal, fun key o w' => registers_of_stored hkeeps.holds.1 hdecoded
    (hkeeps.holds.2.listed _ _ hfinal) hfinal⟩

/-- An approval, a re-arm, and a poll that collects the second token. -/
theorem delivered_token_accepted_rearmed :
    let before : List Tick :=
      .start (.inviteApprove "owner@example.net" sampleCode "kitchen") ::
          List.replicate 16 (.step 0 {}) ++
        .start (.inviteBegin sampleCode keyA) ::
          List.replicate 6 (.step 1 { bytes := List.replicate 32 1 }) ++
        [.start (.invitePoll sampleCode), .step 2 {}]
    ∃ m, (Server.run sample ⟨waitingWorld, []⟩ (before ++ [.step 2 {}])).world.machines "kitchen" =
        some (.json m) ∧
      m.deviceTokenHash = some (sample.tokenHash (hexEncode (List.replicate 32 1))) :=
  ((@delivered_token_accepted sample sampleCode waitingWorld (fun _ _ h => by cases h)
    (fun _ _ h => by cases h) (fun _ _ h => by cases h) (fun _ h => by cases h) _
    (by decide +kernel)).2 _ 2 {} []
    ⟨⟨"kitchen", some "00000000-0000-4000-8000-000000000000", "kitchen.example.net",
      "2a01:4f8:c17:1::2", "10.10.0.2", keyA,
      some (sample.tokenHash (hexEncode (List.replicate 32 1)))⟩,
      hexEncode (List.replicate 32 1)⟩ rfl ⟨rfl, by decide +kernel, by decide +kernel⟩
    (fun _ h => by cases h)).1

end ControlPlane
end Cococoir
