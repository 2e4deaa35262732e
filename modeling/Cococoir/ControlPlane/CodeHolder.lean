import Cococoir.ControlPlane.Delivery
import Cococoir.ControlPlane.Writes

/-!
# What the code alone grants

Somebody who knows an invite's code can begin the invite with a key of their own, and poll it.  The
owner approves a machine by its key, but the payload is collected by whoever has the code.

* `CodeAlone`: some of the calls are the code holder's, and the owner approves no key of theirs.
* `grants_nothing_iff`: the holder is given nothing exactly if no poll of theirs finds a payload.
* `leakedToken`: a poll that comes before the machine's is given the machine's device token.

## Who is the code holder

Calls carry no identity that would matter: a begin has a code and a key, a poll has a code.  So
the holder is a set of places in the pool of calls, at which there are only such calls, and with
keys of the holder's own; the owner approves no record that has one of these keys.  `CodeAlone` is
this condition, on each event and the state in which it happens.

What the holder is given is what their calls return.  A begin returns a status.  A poll returns a
payload if its `GETDEL` found one, and that is decided in the state before the command,
`FindsNothing`.  The theorem follows what the holder's calls have collected through the run, event
by event, and compares it with what they have found; the two are empty together.  That the invite
was approved for another key is no help, because a poll does not say whose it is.
-/

namespace Cococoir
namespace ControlPlane

open Concurrency

/-! ## Model -/

/-- The calls for which a code and a key of one's own are enough. -/
def Call.codeOnly (keys : List String) : Call → Bool
  | .inviteBegin _ key => key ∈ keys
  | .invitePoll _ => true
  | _ => false

/-- A device token or a machine's record. -/
def Reply.grants : Reply → Bool
  | .poll out => out.machine.isSome || out.deviceToken.isSome
  | .signup _ | .machine _ | .machines _ => true
  | _ => false

/-- The key of the machine that an approval is about to read. -/
def approvedKey (σ : Server) (t : Handler) : Option String :=
  match t.call, t.pending with
  | .inviteApprove _ _ _, some (.redis (.invite code .get)) =>
    match σ.world.invites code with
    | some (.json r) => r.devicePubkey
    | _ => none
  | _, _ => none

/-- The calls at the places `holder` of the pool are the code holder's, who has these keys, and an
approval reads another key. -/
def CodeAlone (holder : List ℕ) (keys : List String) (σ : Server) : Tick → Prop
  | .start call => σ.pool.length ∈ holder → call.codeOnly keys = true
  | .step i _ => ∀ t ∈ σ.pool[i]?, ∀ key ∈ approvedKey σ t, key ∉ keys

instance (holder : List ℕ) (keys : List String) : ∀ σ e, Decidable (CodeAlone holder keys σ e)
  | σ, .start call =>
    inferInstanceAs (Decidable (σ.pool.length ∈ holder → call.codeOnly keys = true))
  | σ, .step i _ =>
    inferInstanceAs (Decidable (∀ t ∈ σ.pool[i]?, ∀ key ∈ approvedKey σ t, key ∉ keys))

/-- The payload stored for a code. -/
def payloadAt (w : World) (code : String) : Option EnrollmentDelivery :=
  match w.deliveries code with
  | some (.json d) => some d
  | _ => none

/-- The payload that a step finds and collects. -/
def payloadFound (σ : Server) (i : ℕ) (ch : Choice) : Option EnrollmentDelivery :=
  match σ.pool[i]?.bind Thread.pending with
  | some (.redis (.delivery code .getDel)) => if ch.fails then none else payloadAt σ.world code
  | _ => none

/-- No poll of the holder's finds a payload. -/
def FindsNothing (holder : List ℕ) (σ : Server) : Tick → Prop
  | .start _ => True
  | .step i ch => i ∈ holder → payloadFound σ i ch = none

instance (holder : List ℕ) : ∀ σ e, Decidable (FindsNothing holder σ e)
  | _, .start _ => isTrue trivial
  | σ, .step i ch => inferInstanceAs (Decidable (i ∈ holder → payloadFound σ i ch = none))

/-! ## What a call has collected -/

structure Collected where
  call : Call
  payload : Option EnrollmentDelivery

def Collected.next (l : Collected) : (c : Cmd) → c.Resp → Collected
  | .redis (.delivery _ .getDel), .ok (some (.json d)) => { l with payload := some d }
  | _, _ => l

def granted (o : Outcome EdgeError Reply) : Bool :=
  match o with
  | .ok reply => reply.grants
  | _ => false

/-- The holder's calls end once they have collected a payload. -/
def collecting (keys : List String) : Protocol Call Cmd Cmd.Resp Collected where
  init call := ⟨call, none⟩
  next := Collected.next
  ok l _ := l.call.codeOnly keys = true → l.payload = none
  resp _ _ := True

/-- The holder's calls grant what they have collected. -/
def GrantsCollected (keys : List String) (l : Collected) (o : Outcome EdgeError Reply) : Prop :=
  l.call.codeOnly keys = true → granted o = l.payload.isSome

variable {cp : ControlPlane} {holder : List ℕ} {keys : List String} {l : Collected}

theorem Collected.next_call (l : Collected) (c : Cmd) (r : c.Resp) : (l.next c r).call = l.call := by
  unfold next
  split <;> rfl

/-- A command that collects nothing. -/
def Collectless (c : Cmd) : Prop := ∀ code, c ≠ .redis (.delivery code .getDel)

theorem Collected.next_of_collectless {c : Cmd} (h : Collectless c) (r : c.Resp) : l.next c r = l := by
  unfold next
  split
  · exact absurd rfl (h _)
  · rfl

theorem collectless_of_writes {fs : List Family} (h : Family.delivery ∉ fs) (c : Cmd)
    (hc : WritesOnly fs c) : Collectless c := by
  rintro code rfl
  exact h (hc .delivery rfl)

/-- A program of another call. -/
theorem conforms_others (h : l.call.codeOnly keys = false) (p : Edge EdgeError Reply) :
    (collecting keys).Conforms (GrantsCollected keys) p l := by
  induction p generalizing l with
  | done o => exact fun hl => absurd (h.symm.trans hl) Bool.false_ne_true
  | cmd c k ih =>
    refine ⟨fun hl => absurd (h.symm.trans hl) Bool.false_ne_true, fun r _ => ih r ?_⟩
    exact (congrArg (Call.codeOnly keys) (l.next_call c r)).trans h

/-- A program that collects nothing and grants nothing. -/
theorem conforms_collectless {p : Edge EdgeError Reply} (hall : p.All Collectless)
    (hends : p.Ends fun o => granted o = false) (hl : l.payload = none) :
    (collecting keys).Conforms (GrantsCollected keys) p l := by
  induction p with
  | done o =>
    intro _
    rw [hl]
    exact hends
  | cmd c k ih =>
    refine ⟨fun _ => hl, fun r _ => ?_⟩
    have hnext : (collecting keys).next l c r = l := Collected.next_of_collectless hall.1 r
    rw [hnext]
    exact ih r (hall.2 r) (hends r)

theorem collectless_issueToken {code : String} {m : Machine} :
    (cp.issueToken code m).All Collectless := by
  refine Prog.All.bind (writes_randomTokenHex.mono (collectless_of_writes (by simp))) fun token => ?_
  refine Prog.All.bind (Prog.All.bimap ?_) fun _ => ?_
  · exact ⟨fun code => by simp, fun r => by cases r <;> trivial⟩
  · exact ⟨fun code => by simp, fun r => by cases r <;> trivial⟩

theorem collectless_inviteBegin {code key : String} : (cp.inviteBegin code key).All Collectless := by
  refine (Prog.all_ofExcept _).bind fun c => ?_
  cases cp.validateWgPubkey key with
  | error e => trivial
  | ok u =>
    refine (writes_readInvite.mono (collectless_of_writes (by simp))).bind fun r => ?_
    have hwrite {x : Stored InviteRecord} {ttl : ℕ} :
        (redis (.invite c (.setEx x ttl)) : Edge InviteError Unit).All Collectless :=
      ⟨fun code => by simp, fun r => by cases r <;> trivial⟩
    split
    · split_ifs
      · refine Prog.All.bind ?_ fun _ => trivial
        refine (Prog.all_expect _ _).bind fun pubkey => ?_
        refine Prog.All.bind (writes_list.mono (collectless_of_writes (by simp))).bimap fun ms => ?_
        exact (Prog.all_expect _ _).bind fun m => collectless_issueToken
      · trivial
    · trivial
    · exact hwrite.bind fun _ => trivial
    · exact hwrite.bind fun _ => trivial

/-- Nothing but a status. -/
def Bare (o : Outcome InviteError PollOutcome) : Prop :=
  ∀ out, o = .ok out → out.machine = none ∧ out.deviceToken = none

theorem bare_ok (status : String) : Bare (.ok (.bare status)) := by
  rintro out ⟨⟩
  exact ⟨rfl, rfl⟩

theorem bare_bind {α : Type} {p : Edge InviteError α} {f : α → Edge InviteError PollOutcome}
    (hf : ∀ a, (f a).Ends Bare) : (p >>= f).Ends Bare :=
  (Prog.ends_true p).bind (fun a _ => hf a) (fun _ _ => nofun) fun _ _ => nofun

theorem bare_inviteBegin {code key : String} : (cp.inviteBegin code key).Ends Bare := by
  refine bare_bind fun c => ?_
  cases cp.validateWgPubkey key with
  | error e => exact nofun
  | ok u =>
    refine bare_bind fun r => ?_
    split
    · split_ifs
      · exact bare_bind fun _ => bare_ok _
      · exact nofun
    · exact nofun
    · exact bare_bind fun _ => bare_ok _
    · exact bare_bind fun _ => bare_ok _

theorem conforms_begin {code key : String} :
    (collecting keys).Conforms (GrantsCollected keys) (cp.body (.inviteBegin code key))
      ⟨.inviteBegin code key, none⟩ := by
  refine conforms_collectless collectless_inviteBegin.bimap (bare_inviteBegin.bimap fun o ho => ?_) rfl
  cases o with
  | ok out =>
    obtain ⟨hmachine, htoken⟩ := ho out rfl
    show (out.machine.isSome || out.deviceToken.isSome) = false
    rw [hmachine, htoken]
    rfl
  | err e => rfl
  | panic m => rfl

theorem conforms_poll {code : String} :
    (collecting keys).Conforms (GrantsCollected keys) (cp.body (.invitePoll code))
      ⟨.invitePoll code, none⟩ := by
  have hpoll : (collecting keys).Conforms
      (fun l o => granted (o.bimap EdgeError.invite Reply.poll) = l.payload.isSome)
      (cp.invitePoll code) ⟨.invitePoll code, none⟩ := by
    refine conforms_ofExcept.mpr ⟨fun c _ => ?_, fun _ _ => rfl⟩
    have hread : (collecting keys).Conforms (fun l _ => l = ⟨.invitePoll code, none⟩) (readInvite c)
        ⟨.invitePoll code, none⟩ := by
      refine Protocol.Conforms.of_all (writes_readInvite.mono fun c hc => ⟨fun _ => rfl, fun r => ?_⟩)
      exact Collected.next_of_collectless (collectless_of_writes (by simp) c hc) r
    refine hread.bind ?_ ?_ ?_
    · rintro l r rfl
      cases r.status with
      | dormant | waiting | denied => exact rfl
      | approved =>
        refine conforms_redis.mpr ⟨fun _ => rfl, fun payload _ => ?_, fun _ _ => rfl⟩
        match payload with
        | none => exact rfl
        | some (.corrupt text err) => exact rfl
        | some (.json d) => exact rfl
    · rintro l e rfl
      rfl
    · rintro l m rfl
      rfl
  exact hpoll.bimap fun l o h _ => h

theorem conforms_body (call : Call) :
    (collecting keys).Conforms (GrantsCollected keys) (cp.body call) ⟨call, none⟩ := by
  cases hcode : call.codeOnly keys with
  | false => exact conforms_others hcode _
  | true =>
    cases call with
    | inviteBegin code key => exact conforms_begin
    | invitePoll code => exact conforms_poll
    | _ => cases hcode

/-! ## Runs -/

theorem forall_getElem?_concat {α : Type} {p : α → Prop} {xs : List α} {x : α} {i : ℕ} :
    (∀ y ∈ (xs ++ [x])[i]?, p y) ↔ (∀ y ∈ xs[i]?, p y) ∧ (i = xs.length → p x) := by
  rcases Nat.lt_trichotomy i xs.length with hlt | rfl | hgt
  · rw [List.getElem?_append_left hlt]
    exact ⟨fun h => ⟨h, fun heq => absurd heq hlt.ne⟩, fun h => h.1⟩
  · rw [List.getElem?_concat_length, List.getElem?_eq_none (Nat.le_refl _)]
    exact ⟨fun h => ⟨nofun, fun _ => h x rfl⟩, fun h y hy => by cases hy; exact h.2 rfl⟩
  · have hlen : (xs ++ [x]).length ≤ i := by rw [List.length_append]; exact hgt
    rw [List.getElem?_eq_none hlen, List.getElem?_eq_none hgt.le]
    exact ⟨fun _ => ⟨nofun, fun heq => absurd heq hgt.ne'⟩, fun _ => nofun⟩

/-- The calls at the holder's places are such that the code is enough for them. -/
def HeldCalls (holder : List ℕ) (keys : List String) (_ : World) (ls : List Collected) : Prop :=
  ∀ i ∈ holder, ∀ l ∈ ls[i]?, l.call.codeOnly keys = true

theorem holding : Protocol.Steps (collecting keys) Cmd.exec cp.body (CodeAlone holder keys)
    (GrantsCollected keys) (HeldCalls holder keys) where
  conforms _ call _ := conforms_body call
  start σ call hcall h i hi := by
    refine forall_getElem?_concat.mpr ⟨h i hi, fun hlen => hcall ?_⟩
    rw [Protocol.states, List.length_map] at hlen
    exact hlen ▸ hi
  step σ i ch t c k _ hi _ _ h := by
    refine ⟨trivial, fun j hj l hl => ?_⟩
    rcases getElem?_set_cases hl with ⟨rfl, rfl⟩ | ⟨-, hl⟩
    · exact (congrArg (Call.codeOnly keys) (Collected.next_call _ _ _)).trans
        (h j hj _ (Protocol.getElem?_states hi))
    · exact h j hj l hl

/-- A step collects the payload that it finds. -/
theorem payload_next {σ : Server} {i : ℕ} {ch : Choice} {t : Handler} {c : Cmd}
    {k : c.Resp → Edge EdgeError Reply} (hi : σ.pool[i]? = some t) (ht : t.prog = .cmd c k)
    (hl : l.payload = none) : (l.next c (Cmd.exec ch c σ.world).1).payload = payloadFound σ i ch := by
  have hpending : σ.pool[i]?.bind Thread.pending = some c := by
    rw [hi, Option.bind_some, Thread.pending, ht]
  unfold payloadFound
  rw [hpending]
  by_cases hc : Collectless c
  · rw [Collected.next_of_collectless hc, hl]
    split
    · case h_1 heq => exact absurd (Option.some.inj heq) (hc _)
    · rfl
  · obtain ⟨code, hcode⟩ := not_forall.mp hc
    obtain rfl := not_not.mp hcode
    show _ = if ch.fails then none else payloadAt σ.world code
    split_ifs with hfails
    · rw [exec_redis_of_fails hfails]
      exact hl
    · rw [exec_redis_of_not_fails (Bool.eq_false_of_not_eq_true hfails), payloadAt]
      show (Collected.next l (.redis (.delivery code .getDel)) (Except.ok (σ.world.deliveries code))).payload = _
      rcases σ.world.deliveries code with _ | (d | ⟨text, err⟩)
      · exact hl
      · rfl
      · exact hl

/-- What one event adds to what the holder's calls have collected. -/
theorem collected_next_iff {σ : Server}
    (hσ : (collecting keys).Keeps (GrantsCollected keys) (HeldCalls holder keys) σ) (e : Tick) :
    (∀ i ∈ holder, ∀ l ∈ ((collecting keys).states (Conf.next Cmd.exec cp.body σ e).pool)[i]?,
        l.payload = none) ↔
      (∀ i ∈ holder, ∀ l ∈ ((collecting keys).states σ.pool)[i]?, l.payload = none) ∧
        FindsNothing holder σ e := by
  cases e with
  | start call =>
    rw [Conf.next_start, Protocol.states_append, FindsNothing, and_true]
    exact forall₂_congr fun i _ => forall_getElem?_concat.trans (and_iff_left fun _ => rfl)
  | step i ch =>
    have hidle (hpending : σ.pool[i]?.bind Thread.pending = none) : FindsNothing holder σ (.step i ch) :=
      fun _ => by rw [payloadFound, hpending]
    cases hi : σ.pool[i]? with
    | none =>
      have hnext : Conf.next Cmd.exec cp.body σ (.step i ch) = σ := by simp only [Conf.next, hi]
      rw [hnext]
      exact (and_iff_left (hidle (by rw [hi]; rfl))).symm
    | some t =>
      cases ht : t.prog with
      | done o =>
        have hnext : Conf.next Cmd.exec cp.body σ (.step i ch) = σ := by simp only [Conf.next, hi, ht]
        rw [hnext]
        refine (and_iff_left (hidle ?_)).symm
        rw [hi, Option.bind_some, Thread.pending, ht]
      | cmd c k =>
        have hstate := Protocol.getElem?_states (P := collecting keys) hi
        have hnone (hheld : i ∈ holder) : ((collecting keys).state t).payload = none := by
          have hc := hσ.conforms t (List.mem_of_getElem? hi)
          rw [ht] at hc
          exact hc.1 (hσ.holds i hheld _ hstate)
        rw [Conf.next_step hi ht, Protocol.states_set, Protocol.state_resume]
        constructor
        · intro h
          refine ⟨fun j hj l hl => ?_, fun hheld => ?_⟩
          · by_cases hij : i = j
            · subst hij
              obtain rfl := Option.some.inj (hstate.symm.trans hl)
              exact hnone hj
            · exact h j hj l ((List.getElem?_set_ne hij).trans hl)
          · rw [← payload_next hi ht (hnone hheld)]
            exact h i hheld _ (List.getElem?_set_self (List.getElem?_eq_some_iff.mp hstate).1)
        · rintro ⟨h, hfound⟩ j hj l hl
          rcases getElem?_set_cases hl with ⟨rfl, rfl⟩ | ⟨-, hl⟩
          · exact (payload_next hi ht (hnone hj)).trans (hfound hj)
          · exact h j hj l hl

/-- The holder's calls have collected nothing exactly if they found nothing. -/
theorem collected_iff {w : World} {ticks : List Tick}
    (hadm : Server.Admissible cp (CodeAlone holder keys) ⟨w, []⟩ ticks) :
    (∀ i ∈ holder, ∀ l ∈ ((collecting keys).states (Server.run cp ⟨w, []⟩ ticks).pool)[i]?,
        l.payload = none) ↔ Server.Admissible cp (FindsNothing holder) ⟨w, []⟩ ticks := by
  induction ticks using List.reverseRecOn with
  | nil => exact ⟨fun _ => trivial, fun _ i _ => nofun⟩
  | append_singleton ticks e ih =>
    obtain ⟨hbefore, -⟩ := Conf.admissible_append.mp hadm
    have hkeeps := holding.run_keeps (Protocol.keeps_nil fun _ _ => nofun) hbefore
    have hlast : Server.Admissible cp (FindsNothing holder) ⟨w, []⟩ (ticks ++ [e]) ↔
        Server.Admissible cp (FindsNothing holder) ⟨w, []⟩ ticks ∧
          FindsNothing holder (Server.run cp ⟨w, []⟩ ticks) e :=
      Conf.admissible_append.trans (and_congr_right fun _ => and_iff_left trivial)
    rw [hlast, ← ih hbefore, Server.run, Conf.run_append]
    exact collected_next_iff hkeeps e

/-- A call of the holder's has been given nothing exactly if it has collected nothing. -/
theorem granted_nothing_iff {t : Handler}
    (hconforms : (collecting keys).Conforms (GrantsCollected keys) t.prog ((collecting keys).state t))
    (hcode : ((collecting keys).state t).call.codeOnly keys = true) :
    (∀ reply, t.result = some (.ok reply) → reply.grants = false) ↔
      ((collecting keys).state t).payload = none := by
  unfold Thread.result
  cases hprog : t.prog with
  | cmd c k =>
    rw [hprog] at hconforms
    exact iff_of_true (fun _ => nofun) (hconforms.1 hcode)
  | done o =>
    rw [hprog] at hconforms
    have hgranted : granted o = ((collecting keys).state t).payload.isSome := hconforms hcode
    rw [← Option.not_isSome_iff_eq_none, ← hgranted]
    cases o with
    | ok reply =>
      refine ⟨fun h => by simpa [granted] using h reply rfl, fun h r hr => ?_⟩
      cases hr
      simpa [granted] using h
    | err e => exact iff_of_true (fun _ => nofun) (by simp [granted])
    | panic m => exact iff_of_true (fun _ => nofun) (by simp [granted])

/-! ## Main result -/

/-- **What the code alone grants.**  The holder of the code is given neither a token nor a machine exactly
in the runs in which no poll of theirs finds a payload. -/
theorem grants_nothing_iff {w : World} {ticks : List Tick}
    (hadm : Server.Admissible cp (CodeAlone holder keys) ⟨w, []⟩ ticks) :
    (∀ i ∈ holder, ∀ t ∈ (Server.run cp ⟨w, []⟩ ticks).pool[i]?, ∀ reply,
        t.result = some (.ok reply) → reply.grants = false) ↔
      Server.Admissible cp (FindsNothing holder) ⟨w, []⟩ ticks := by
  have hkeeps := holding.run_keeps (Protocol.keeps_nil fun _ _ => nofun) hadm
  rw [← collected_iff hadm]
  refine forall₂_congr fun i hi => ?_
  rw [Protocol.states, List.getElem?_map]
  cases ht : (Server.run cp ⟨w, []⟩ ticks).pool[i]? with
  | none =>
    exact iff_of_true (fun t ht => absurd ht (Option.not_mem_none t))
      fun l hl => absurd hl (Option.not_mem_none l)
  | some t =>
    have hstate := Protocol.getElem?_states (P := collecting keys) ht
    have hone := granted_nothing_iff (hkeeps.conforms t (List.mem_of_getElem? ht)) (hkeeps.holds i hi _ hstate)
    simpa using hone

/-- A poll of the machine's, then a begin and a poll of the code holder's, who is given nothing. -/
theorem grants_nothing_iff_late :
    let ticks := enrollment ++ .start (.invitePoll sampleCode) :: List.replicate 2 (.step 4 {}) ++
      .start (.inviteBegin sampleCode keyB) :: .step 5 {} :: .start (.invitePoll sampleCode) ::
        List.replicate 2 (.step 6 {})
    ∀ i ∈ [5, 6], ∀ t ∈ (Server.run sample ⟨World.empty, []⟩ ticks).pool[i]?, ∀ reply,
      t.result = some (.ok reply) → reply.grants = false :=
  (@grants_nothing_iff sample _ [keyB] _ _ (by decide +kernel)).mpr (by decide +kernel)

/-- The owner approves the machine's key, the code holder polls first, and is given the machine's token. -/
theorem leakedToken :
    let ticks := enrollment ++ .start (.invitePoll sampleCode) :: List.replicate 2 (.step 4 {})
    Server.Admissible sample (CodeAlone [4] [keyB]) ⟨World.empty, []⟩ ticks ∧
      (((Server.run sample ⟨World.empty, []⟩ ticks).pool[4]?.bind Thread.result).any granted = true) := by
  decide +kernel

end ControlPlane
end Cococoir
