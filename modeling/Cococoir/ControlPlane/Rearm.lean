import Cococoir.ControlPlane.RouteMoves

/-!
# The machine that a re-arm delivers

A begin on an approved invite delivers once more.  It looks for the machine by its public key,
in allocation order, and nothing makes the key belong to one machine, nor keeps the record that
was found in its place until it is written back.

* `RouteKept`: there is one approved machine at most, and what is read, found, stored and
  collected for the code is about it.
* `delivers_approved`: when the first record with the enrolled key that a re-arm reads is that of
  the machine which the invite's approval allocated, and is still there when it is written back,
  every re-arm and every payload is about that machine.
* `strayDelivery`: another machine with the same key, listed before, is what a re-arm delivers.

## Following one machine

The approval's allocation makes a machine, and its identity is what an allocation fixes: name,
owner, addresses.  `RouteKept` says that whatever a call on the code has read, found, stored or
collected has the identity of the approved machine.  An approval brings its own.  A begin finds
its machine by a search, and that is the point at which another machine can come in; the condition
is on that read, and on the write-back, over which another call may have deleted the name or given
it away.
-/

namespace Cococoir
namespace ControlPlane

open Concurrency

/-! ## One machine -/

variable (cp : ControlPlane) (code : String)

/-- What a call in progress has done for its invite's machine. -/
def routeView (t : Handler) : RouteView := (routeMoves cp).state t

def routeViews (σ : Server) : List RouteView := (routeMoves cp).states σ.pool

/-- The machines that the approvals of the code allocated. -/
def approvedMachines (vs : List RouteView) : List Machine :=
  vs.filterMap fun v => if cp.codeOf v.call = some code ∧ v.recorded then v.claimed else none

/-- What is asked of one command of a call on the code.  The first record with the enrolled key
that a re-arm reads is that of the approved machine, and is still there, or nothing is, when it is
written back; an approval stores its payload while no approval is recorded, and is recorded while
no other is and its own payload is the one stored. -/
def routeStep (w : World) (vs : List RouteView) (v : RouteView) : Cmd → Bool
  | .redis (.machine n .get) =>
    match w.machines n with
    | some (.json m) =>
      !v.finds m || (approvedMachines cp code vs).any fun a => a.identity = m.identity
    | _ => true
  | .redis (.machine n (.set (.json m))) =>
    match w.machines n with
    | some (.json old) => !v.call.begins || old.identity = m.identity
    | some (.corrupt _ _) => !v.call.begins
    | none => true
  | .redis (.delivery _ (.setEx _ _)) =>
    v.call.begins || (approvedMachines cp code vs).isEmpty
  | .redis (.invite _ (.setEx (.json r) _)) =>
    r.status ≠ .approved ||
      (approvedMachines cp code vs).isEmpty && w.deliveries code = v.armed.map .json
  | _ => true

/-- Every operation, with the commands of those on the code meeting `routeStep`. -/
def KeepsRoute (σ : Server) : Tick → Prop
  | .start _ => True
  | .step i _ => ∀ t ∈ σ.pool[i]?, ∀ c ∈ t.pending, cp.codeOf t.call = some code →
      routeStep cp code σ.world (routeViews cp σ) (routeView cp t) c

instance : ∀ σ e, Decidable (KeepsRoute cp code σ e)
  | _, .start _ => isTrue trivial
  | σ, .step i _ => inferInstanceAs (Decidable (∀ t ∈ σ.pool[i]?, ∀ c ∈ t.pending,
      cp.codeOf t.call = some code →
        routeStep cp code σ.world (routeViews cp σ) (routeView cp t) c = true))

/-- What a call on the code has read, found and collected is about an approved machine. -/
structure ViewKept (as : List Machine) (v : RouteView) : Prop where
  read : ∀ r, v.invite = some r → r.status = .approved → ∃ a, a ∈ as
  found : ∀ m, v.found = some m → ∃ a ∈ as, a.identity = m.identity
  got : ∀ d, v.got = some d → ∃ a ∈ as, a.identity = d.machine.identity

/-- There is one approved machine at most, and everything is about it. -/
structure RouteKept (w : World) (vs : List RouteView) : Prop where
  one : ∀ a ∈ approvedMachines cp code vs, ∀ b ∈ approvedMachines cp code vs, a = b
  status : ∀ r, w.invites code = some (.json r) → r.status = .approved →
    ∃ a, a ∈ approvedMachines cp code vs
  slot : ∀ d, w.deliveries code = some (.json d) → ∀ a ∈ approvedMachines cp code vs,
    a.identity = d.machine.identity
  views : ∀ v ∈ vs, cp.codeOf v.call = some code → ViewKept (approvedMachines cp code vs) v

variable {cp code} {v : RouteView} {w w' : World} {vs : List RouteView} {i : ℕ} {v' : RouteView}

theorem mem_approvedMachines {a : Machine} : a ∈ approvedMachines cp code vs ↔
    ∃ v ∈ vs, cp.codeOf v.call = some code ∧ v.recorded = true ∧ v.claimed = some a := by
  unfold approvedMachines
  rw [List.mem_filterMap]
  constructor
  · rintro ⟨v, hv, h⟩
    split_ifs at h with hc
    exact ⟨v, hv, hc.1, hc.2, h⟩
  · rintro ⟨v, hv, hcode, hrec, hcl⟩
    exact ⟨v, hv, by rw [if_pos ⟨hcode, hrec⟩]; exact hcl⟩

/-- A call that records nothing leaves the approved machines. -/
theorem approvedMachines_set (hvi : vs[i]? = some v) (hcall : v'.call = v.call)
    (hrecorded : v'.recorded = v.recorded) (hclaimed : v.recorded = true → v'.claimed = v.claimed)
    {a : Machine} :
    a ∈ approvedMachines cp code (vs.set i v') ↔ a ∈ approvedMachines cp code vs := by
  rw [mem_approvedMachines, mem_approvedMachines]
  constructor
  · rintro ⟨u, hu, hcode, hrec, hcl⟩
    rcases List.mem_or_eq_of_mem_set hu with hu | rfl
    · exact ⟨u, hu, hcode, hrec, hcl⟩
    · rw [hrecorded] at hrec
      exact ⟨v, List.mem_of_getElem? hvi, hcall ▸ hcode, hrec, (hclaimed hrec).symm.trans hcl⟩
  · intro h
    refine exists_mem_set hvi (fun hv => ?_) h
    exact ⟨hcall ▸ hv.1, hrecorded.trans hv.2.1, (hclaimed hv.2.1).trans hv.2.2⟩

theorem ViewKept.mono {as bs : List Machine} (h : ViewKept as v) (hsub : ∀ a ∈ as, a ∈ bs) :
    ViewKept bs v := by
  refine ⟨fun r hr hs => ?_, fun m hm => ?_, fun d hd => ?_⟩
  · obtain ⟨a, ha⟩ := h.read r hr hs
    exact ⟨a, hsub a ha⟩
  · obtain ⟨a, ha, hroute⟩ := h.found m hm
    exact ⟨a, hsub a ha, hroute⟩
  · obtain ⟨a, ha, hroute⟩ := h.got d hd
    exact ⟨a, hsub a ha, hroute⟩

/-- A step that records no approval. -/
theorem RouteKept.step (h : RouteKept cp code w vs) (hvi : vs[i]? = some v)
    (hcall : v'.call = v.call) (hrecorded : v'.recorded = v.recorded)
    (hclaimed : v.recorded = true → v'.claimed = v.claimed)
    (hstatus : ∀ r, w'.invites code = some (.json r) → r.status = .approved →
      ∃ a, a ∈ approvedMachines cp code vs)
    (hslot : ∀ d, w'.deliveries code = some (.json d) → ∀ a ∈ approvedMachines cp code vs,
      a.identity = d.machine.identity)
    (hview : cp.codeOf v.call = some code → ViewKept (approvedMachines cp code vs) v') :
    RouteKept cp code w' (vs.set i v') := by
  have hsame : ∀ a, a ∈ approvedMachines cp code (vs.set i v') ↔ a ∈ approvedMachines cp code vs :=
    fun a => approvedMachines_set hvi hcall hrecorded hclaimed
  refine ⟨fun a ha b hb => ?_, fun r hr hs => ?_, fun d hd a ha => ?_, fun u hu hcode => ?_⟩
  · exact h.one a ((hsame a).mp ha) b ((hsame b).mp hb)
  · obtain ⟨a, ha⟩ := hstatus r hr hs
    exact ⟨a, (hsame a).mpr ha⟩
  · exact hslot d hd a ((hsame a).mp ha)
  · have hsub : ∀ a ∈ approvedMachines cp code vs, a ∈ approvedMachines cp code (vs.set i v') :=
      fun a => (hsame a).mpr
    rcases List.mem_or_eq_of_mem_set hu with hu | rfl
    · exact (h.views u hu hcode).mono hsub
    · exact (hview (hcall ▸ hcode)).mono hsub

/-- A step that changes neither invites nor payloads. -/
theorem RouteKept.frame (h : RouteKept cp code w vs) (hvi : vs[i]? = some v)
    (hinvites : w'.invites = w.invites) (hdeliveries : w'.deliveries = w.deliveries)
    (hcall : v'.call = v.call) (hrecorded : v'.recorded = v.recorded)
    (hclaimed : v.recorded = true → v'.claimed = v.claimed)
    (hview : cp.codeOf v.call = some code → ViewKept (approvedMachines cp code vs) v →
      ViewKept (approvedMachines cp code vs) v') :
    RouteKept cp code w' (vs.set i v') := by
  refine h.step hvi hcall hrecorded hclaimed (fun r hr => ?_) (fun d hd => ?_) fun hcode => ?_
  · rw [hinvites] at hr
    exact h.status r hr
  · rw [hdeliveries] at hd
    exact h.slot d hd
  · exact hview hcode (h.views v (List.mem_of_getElem? hvi) hcode)

/-- A step of a call on another code. -/
theorem RouteKept.elsewhere (h : RouteKept cp code w vs) (hvi : vs[i]? = some v)
    (hcall : v'.call = v.call) (hne : cp.codeOf v.call ≠ some code)
    (hinvites : w'.invites code = w.invites code) (hdeliveries : w'.deliveries = w.deliveries) :
    RouteKept cp code w' (vs.set i v') := by
  have hold : ∀ u ∈ vs.set i v', cp.codeOf u.call = some code → u ∈ vs := by
    intro u hu hc
    rcases List.mem_or_eq_of_mem_set hu with hu | rfl
    · exact hu
    · exact absurd (hcall ▸ hc) hne
  have hsame : ∀ a, a ∈ approvedMachines cp code (vs.set i v') ↔
      a ∈ approvedMachines cp code vs := by
    intro a
    rw [mem_approvedMachines, mem_approvedMachines]
    constructor
    · rintro ⟨u, hu, hc, hrest⟩
      exact ⟨u, hold u hu hc, hc, hrest⟩
    · exact fun hex => exists_mem_set hvi (fun hv => absurd hv.1 hne) hex
  refine ⟨fun a ha b hb => ?_, fun r hr hs => ?_, fun d hd a ha => ?_, fun u hu hc => ?_⟩
  · exact h.one a ((hsame a).mp ha) b ((hsame b).mp hb)
  · rw [hinvites] at hr
    obtain ⟨a, ha⟩ := h.status r hr hs
    exact ⟨a, (hsame a).mpr ha⟩
  · rw [hdeliveries] at hd
    exact h.slot d hd a ((hsame a).mp ha)
  · exact (h.views u (hold u hu hc) hc).mono fun a => (hsame a).mpr

/-- The approval is recorded, with its own payload stored. -/
theorem RouteKept.approve (h : RouteKept cp code w vs) (hvi : vs[i]? = some v)
    (hnone : approvedMachines cp code vs = []) {m : Machine} {d : EnrollmentDelivery}
    (hclaimed : v.claimed = some m) (hslot : w.deliveries code = some (.json d))
    (hroute : m.identity = d.machine.identity) (hcode : cp.codeOf v.call = some code)
    (hdeliveries : w'.deliveries = w.deliveries) :
    RouteKept cp code w' (vs.set i { v with recorded := true }) := by
  have hmem : ∀ {u}, u ∈ vs → cp.codeOf u.call = some code → u.recorded = true →
      u.claimed = none := by
    intro u hu hc hr
    by_contra hne
    obtain ⟨a, ha⟩ := Option.ne_none_iff_exists'.mp hne
    have : a ∈ approvedMachines cp code vs := mem_approvedMachines.mpr ⟨u, hu, hc, hr, ha⟩
    rw [hnone] at this
    cases this
  have hself : { v with recorded := true } ∈ vs.set i { v with recorded := true } :=
    List.mem_of_getElem? (List.getElem?_set_self (List.getElem?_eq_some_iff.mp hvi).1)
  have hthere : m ∈ approvedMachines cp code (vs.set i { v with recorded := true }) :=
    mem_approvedMachines.mpr ⟨_, hself, hcode, rfl, hclaimed⟩
  have honly : ∀ a ∈ approvedMachines cp code (vs.set i { v with recorded := true }), a = m := by
    intro a ha
    obtain ⟨u, hu, hc, hr, hcl⟩ := mem_approvedMachines.mp ha
    rcases List.mem_or_eq_of_mem_set hu with hu | rfl
    · rw [hmem hu hc hr] at hcl
      cases hcl
    · exact Option.some.inj (hcl.symm.trans hclaimed)
  refine ⟨fun a ha b hb => ?_, fun _ _ _ => ⟨m, hthere⟩, fun d' hd' a ha => ?_,
    fun u hu hc => ?_⟩
  · rw [honly a ha, honly b hb]
  · rw [hdeliveries, hslot] at hd'
    cases hd'
    rw [honly a ha]
    exact hroute
  · -- nobody had read, found or collected anything yet
    have hold : ViewKept [] u := by
      rcases List.mem_or_eq_of_mem_set hu with hu | rfl
      · exact hnone ▸ h.views u hu hc
      · have hv := hnone ▸ h.views v (List.mem_of_getElem? hvi) hcode
        exact ⟨hv.read, hv.found, hv.got⟩
    exact hold.mono fun a ha => by cases ha

/-- A harmless command approves nothing and leaves the payloads. -/
theorem exec_harmless {c : Cmd} (h : Harmless c) (ch : Choice) (w : World) :
    (Cmd.exec ch c w).2.deliveries = w.deliveries ∧ ∀ r, r.status = .approved →
      (Cmd.exec ch c w).2.invites code = some (.json r) → w.invites code = some (.json r) := by
  rcases h with ⟨hinvite, hdelivery⟩ | ⟨code', op, rfl, hop⟩
  · have hsame : (Cmd.exec ch c w).2.invites = w.invites := exec_of_writes hinvite ch w
    refine ⟨exec_of_writes hdelivery ch w, fun r _ hr => ?_⟩
    rw [hsame] at hr
    exact hr
  · rcases exec_redis_cases ch (.invite code' op) w with he | he
    · rw [he]
      exact ⟨rfl, fun _ _ hr => hr⟩
    · rw [he]
      refine ⟨rfl, fun r hs hr => ?_⟩
      change Function.update w.invites code' (op.exec (w.invites code')).2 code = _ at hr
      by_cases hc : code = code'
      · subst hc
        rw [Function.update_self] at hr
        cases op with
        | del =>
          rw [Redis.exec_del] at hr
          cases hr
        | setEx x ttl =>
          obtain rfl : x = .json r := Option.some.inj hr
          exact absurd hs hop
        | setNxEx x ttl =>
          rw [Redis.exec_setNxEx] at hr
          cases hx : w.invites code with
          | none =>
            rw [hx] at hr
            obtain rfl : x = .json r := Option.some.inj hr
            exact absurd hs hop
          | some y =>
            rw [hx] at hr
            exact hr
        | _ => exact hop.elim
      · rw [Function.update_of_ne hc] at hr
        exact hr

/-! ## The rule -/

theorem RouteView.next_cases (v : RouteView) (c : Cmd) (r : c.Resp) :
    v.next c r = v ∨ v.next c r = v.after c r := by
  unfold next
  split_ifs
  · exact Or.inr rfl
  · exact Or.inl rfl

/-- A command whose response leaves the view, as long as it leaves invites and payloads too. -/
theorem RouteKept.same (h : RouteKept cp code w vs) (hvi : vs[i]? = some v) (hv' : v' = v)
    (hinvites : w'.invites = w.invites) (hdeliveries : w'.deliveries = w.deliveries) :
    RouteKept cp code w' (vs.set i v') := by
  subst hv'
  exact h.frame hvi hinvites hdeliveries rfl rfl (fun _ => rfl) fun _ hv => hv

/-- A payload of a call on the code that has found, or allocated, its machine. -/
theorem RouteKept.deliver (h : RouteKept cp code w vs) (hvi : vs[i]? = some v) {code' : String}
    {d : EnrollmentDelivery} (hinvites : w'.invites = w.invites)
    (hdeliveries : w'.deliveries = Function.update w.deliveries code' (some (.json d)))
    (hv' : v' = v ∨ v' = { v with armed := some d })
    (hroute : code' = code → ∀ a ∈ approvedMachines cp code vs, a.identity = d.machine.identity) :
    RouteKept cp code w' (vs.set i v') := by
  have hfields : v'.call = v.call ∧ v'.recorded = v.recorded ∧ v'.claimed = v.claimed ∧
      v'.invite = v.invite ∧ v'.found = v.found ∧ v'.got = v.got := by
    rcases hv' with rfl | rfl <;> exact ⟨rfl, rfl, rfl, rfl, rfl, rfl⟩
  obtain ⟨hcall, hrecorded, hclaimed, hinvite, hfound, hgot⟩ := hfields
  refine h.step hvi hcall hrecorded (fun _ => hclaimed) (fun r hr => ?_) (fun d' hd' => ?_)
    fun hcode => ?_
  · rw [hinvites] at hr
    exact h.status r hr
  · rw [hdeliveries] at hd'
    by_cases hc : code' = code
    · subst hc
      rw [Function.update_self] at hd'
      cases hd'
      exact hroute rfl
    · rw [Function.update_of_ne (Ne.symm hc)] at hd'
      exact h.slot d' hd'
  · obtain ⟨hr, hf, hg⟩ := h.views v (List.mem_of_getElem? hvi) hcode
    exact ⟨hinvite ▸ hr, hfound ▸ hf, hgot ▸ hg⟩

theorem routeView_call (t : Handler) : (routeView cp t).call = t.call := by
  suffices h : ∀ (l : List (Σ c : Cmd, c.Resp)) (v : RouteView),
      (l.foldl (fun v e => v.next e.1 e.2) v).call = v.call from h t.log _
  intro l
  induction l with
  | nil => exact fun v => rfl
  | cons e l ih => exact fun v => (ih _).trans (v.next_call e.1 e.2)

/-- **One permitted command that meets the condition keeps the assertion.** -/
theorem RouteKept.move {c : Cmd} (h : RouteKept cp code w vs) (hvi : vs[i]? = some v)
    (hmove : RouteMove cp v c)
    (hstep : cp.codeOf v.call = some code → routeStep cp code w vs v c = true) (ch : Choice) :
    RouteKept cp code (Cmd.exec ch c w).2 (vs.set i (v.next c (Cmd.exec ch c w).1)) := by
  -- a Redis command that fails changes nothing
  have hredis : ∀ op, RouteKept cp code (op.exec w).2
        (vs.set i (v.next (.redis op) (.ok (op.exec w).1))) →
      RouteKept cp code (Cmd.exec ch (.redis op) w).2
        (vs.set i (v.next (.redis op) (Cmd.exec ch (.redis op) w).1)) := by
    intro op hok
    rcases exec_redis_cases ch op w with he | he
    · rw [he]
      exact h.same hvi (v.next_error op _) rfl rfl
    · rw [he]
      exact hok
  cases hmove with
  | harmless hc hnext hset =>
    obtain ⟨hdeliveries, hinvites⟩ := @exec_harmless code _ hc ch w
    rw [hnext]
    refine h.step hvi rfl rfl (fun _ => rfl) (fun r hr hs => ?_) (fun d hd => ?_) fun hcode => ?_
    · exact h.status r (hinvites r hs hr) hs
    · rw [hdeliveries] at hd
      exact h.slot d hd
    · exact h.views v (List.mem_of_getElem? hvi) hcode
  | @readInvite code' hrecorded hcode =>
    refine hredis _ ?_
    rw [exec_invite_get]
    rcases v.next_cases (.redis (.invite code' .get)) (.ok (w.invites code')) with hn | hn
    · exact h.same hvi hn rfl rfl
    · rw [hn]
      cases hx : w.invites code' with
      | none => exact h.same hvi rfl rfl rfl
      | some x =>
        cases x with
        | corrupt text err => exact h.same hvi rfl rfl rfl
        | json r =>
          refine h.frame hvi rfl rfl rfl rfl (fun _ => rfl) fun hc hv => ⟨fun r' hr' hs => ?_,
            hv.found, hv.got⟩
          cases hr'
          obtain rfl : code' = code := Option.some.inj (hcode.symm.trans hc)
          exact h.status r hx hs
  | @readMachine n hrecorded =>
    refine hredis _ ?_
    rw [exec_machine_get]
    rcases v.next_cases (.redis (.machine n .get)) (.ok (w.machines n)) with hn | hn
    · exact h.same hvi hn rfl rfl
    · rw [hn]
      cases hx : w.machines n with
      | none => exact h.same hvi rfl rfl rfl
      | some x =>
        cases x with
        | corrupt text err => exact h.same hvi rfl rfl rfl
        | json m =>
          show RouteKept cp code w (vs.set i (if v.finds m then _ else v))
          split_ifs with hfinds
          · refine h.frame hvi rfl rfl rfl rfl (fun _ => rfl) fun hc hv => ⟨hv.read,
              fun m' hm' => ?_, hv.got⟩
            cases hm'
            have hs := hstep hc
            simp only [routeStep, hx, hfinds, Bool.not_true, Bool.false_or, List.any_eq_true,
              decide_eq_true_eq] at hs
            exact hs
          · exact h.same hvi rfl rfl rfl
  | @claim m hrecorded =>
    refine hredis _ ?_
    have hframe : ∀ {w' : World} (r : Bool), w'.invites = w.invites →
        w'.deliveries = w.deliveries → RouteKept cp code w'
          (vs.set i (v.next (.redis (.machine m.name (.setNx (.json m)))) (.ok r))) := by
      intro w' r hinvites hdeliveries
      rcases v.next_cases (.redis (.machine m.name (.setNx (.json m)))) (.ok r) with hn | hn
      · exact h.same hvi hn hinvites hdeliveries
      · rw [hn]
        cases r with
        | false => exact h.same hvi rfl hinvites hdeliveries
        | true =>
          refine h.frame hvi hinvites hdeliveries rfl rfl (fun hr => ?_) fun _ hv =>
            ⟨hv.read, hv.found, hv.got⟩
          rw [hrecorded] at hr
          cases hr
    exact hframe _ rfl rfl
  | @unclaim n hrecorded =>
    refine hredis _ ?_
    rcases v.next_cases (.redis (.machine n .del))
      (.ok ((RedisOp.machine n .del).exec w).1) with hn | hn
    · exact h.same hvi hn rfl rfl
    · rw [hn]
      refine h.frame hvi rfl rfl rfl rfl (fun hr => ?_) fun _ hv => ⟨hv.read, hv.found, hv.got⟩
      rw [hrecorded] at hr
      cases hr
  | @attach m hash hfound =>
    refine hredis _ (h.same hvi (RouteView.next_eq_self rfl) rfl rfl)
  | @deliver code' ttl m d hcode hcall hclaimed hroute hrecorded =>
    refine hredis _ (h.deliver hvi rfl rfl (v.next_cases _ _) ?_)
    rintro rfl a ha
    have hs := hstep hcode
    simp only [routeStep, hcall, Bool.false_or, List.isEmpty_iff] at hs
    rw [hs] at ha
    cases ha
  | @deliverAgain code' ttl m d hcode hcall hfound hroute hrecorded =>
    refine hredis _ (h.deliver hvi rfl rfl (v.next_cases _ _) ?_)
    rintro rfl a ha
    obtain ⟨b, hb, hbm⟩ := (h.views v (List.mem_of_getElem? hvi) hcode).found m hfound
    rw [h.one a ha b hb, hbm, hroute]
  | @collect code' r hcode hread happroved hrecorded =>
    refine hredis _ ?_
    have hslot : ∀ d, ((RedisOp.delivery code' .getDel).exec w).2.deliveries code =
        some (.json d) → w.deliveries code = some (.json d) := by
      intro d hd
      change Function.update w.deliveries code' none code = _ at hd
      by_cases hc : code = code'
      · rw [hc, Function.update_self] at hd
        cases hd
      · rwa [Function.update_of_ne hc] at hd
    have hview : v.next (.redis (.delivery code' .getDel)) (.ok (w.deliveries code')) = v ∨
        ∃ d, w.deliveries code' = some (.json d) ∧
          v.next (.redis (.delivery code' .getDel)) (.ok (w.deliveries code')) =
            { v with got := some d } := by
      rcases v.next_cases (.redis (.delivery code' .getDel)) (.ok (w.deliveries code')) with hn | hn
      · exact Or.inl hn
      · rw [hn]
        rcases w.deliveries code' with _ | d | ⟨text, err⟩
        · exact Or.inl rfl
        · exact Or.inr ⟨d, rfl, rfl⟩
        · exact Or.inl rfl
    show RouteKept cp code _ (vs.set i
      (v.next (.redis (.delivery code' .getDel)) (.ok (w.deliveries code'))))
    rcases hview with hn | ⟨d, hd, hn⟩
    · rw [hn]
      exact h.step hvi rfl rfl (fun _ => rfl) h.status (fun d hd => h.slot d (hslot d hd))
        (h.views v (List.mem_of_getElem? hvi))
    · rw [hn]
      refine h.step hvi rfl rfl (fun _ => rfl) h.status (fun d hd => h.slot d (hslot d hd))
        fun hc => ?_
      obtain rfl : code' = code := Option.some.inj (hcode.symm.trans hc)
      have hv := h.views v (List.mem_of_getElem? hvi) hc
      refine ⟨hv.read, hv.found, fun d' hd' => ?_⟩
      cases hd'
      obtain ⟨a, ha⟩ := hv.read r hread happroved
      exact ⟨a, ha, h.slot d hd a ha⟩
  | @approve code' ttl r m d hcode hclaimed harmed hroute hstatus hdelivers =>
    refine hredis _ ?_
    have hnext : v.next (.redis (.invite code' (.setEx (.json r) ttl))) (.ok ()) =
        { v with recorded := true } := by
      rw [v.next_eq_after hdelivers]
      exact if_pos hstatus
    show RouteKept cp code _ (vs.set i
      (v.next (.redis (.invite code' (.setEx (.json r) ttl))) (.ok ())))
    rw [hnext]
    by_cases hc : code' = code
    · subst hc
      have hs := hstep hcode
      simp only [routeStep, hstatus, ne_eq, not_true_eq_false, decide_false, Bool.false_or,
        Bool.and_eq_true, List.isEmpty_iff, harmed, Option.map_some, decide_eq_true_eq] at hs
      exact h.approve hvi hs.1 hclaimed hs.2 hroute hcode rfl
    · have hne : cp.codeOf v.call ≠ some code := by
        rw [hcode]
        exact fun he => hc (Option.some.inj he)
      exact h.elsewhere hvi rfl hne (Function.update_of_ne (Ne.symm hc) _ _) rfl

/-- The protocol rule for the machine of an invite. -/
theorem routeSteps : Protocol.Steps (routeMoves cp) Cmd.exec cp.body (KeepsRoute cp code)
    RouteView.Returns (RouteKept cp code) where
  conforms σ call _ := body_routeMoves call
  start σ call _ h := by
    have hsame : ∀ a, a ∈ approvedMachines cp code ((routeMoves cp).states σ.pool ++ [.init call]) ↔
        a ∈ approvedMachines cp code ((routeMoves cp).states σ.pool) := by
      intro a
      unfold approvedMachines
      rw [List.filterMap_append, List.mem_append]
      simp [RouteView.init]
    refine ⟨fun a ha b hb => ?_, fun r hr hs => ?_, fun d hd a ha => ?_, fun u hu hc => ?_⟩
    · exact h.one a ((hsame a).mp ha) b ((hsame b).mp hb)
    · obtain ⟨a, ha⟩ := h.status r hr hs
      exact ⟨a, (hsame a).mpr ha⟩
    · exact h.slot d hd a ((hsame a).mp ha)
    · rcases List.mem_append.mp hu with hu | hu
      · exact (h.views u hu hc).mono fun a => (hsame a).mpr
      · obtain rfl := List.mem_singleton.mp hu
        exact ⟨fun _ hr => (by cases hr), fun _ hm => (by cases hm), fun _ hd => (by cases hd)⟩
  step σ i ch t c k hallowed hi ht hok h := by
    refine ⟨trivial, h.move (Protocol.getElem?_states hi) hok (fun hcode => ?_) ch⟩
    refine hallowed t hi c (by rw [Thread.pending, ht]; rfl) ?_
    rw [← routeView_call t]
    exact hcode

/-! ## Schedules -/

/-- The machine a poll has returned. -/
def polledMachine (t : Handler) : Option Machine :=
  match t.call, t.result with
  | .invitePoll _, some (.ok (.poll out)) => out.machine
  | _, _ => none

/-- The record a re-arm writes next, and where. -/
def rearmWrite (t : Handler) : Option (String × Machine) :=
  match t.call, t.pending with
  | .inviteBegin _ _, some (.redis (.machine n (.set (.json m)))) => some (n, m)
  | _, _ => none

variable (cp code) in
/-- Re-arms and polls of the code are about the machine that its approval allocated. -/
structure DeliversApproved (σ : Server) : Prop where
  one : ∀ a ∈ approvedMachines cp code (routeViews cp σ),
    ∀ b ∈ approvedMachines cp code (routeViews cp σ), a = b
  rearmed : ∀ t ∈ σ.pool, cp.codeOf t.call = some code → ∀ x ∈ rearmWrite t,
    x.1 = x.2.name ∧
      ∃ a ∈ approvedMachines cp code (routeViews cp σ), a.identity = x.2.identity
  polled : ∀ t ∈ σ.pool, cp.codeOf t.call = some code → ∀ m ∈ polledMachine t,
    ∃ a ∈ approvedMachines cp code (routeViews cp σ), a.identity = m.identity

section Kept

variable {σ : Server} {t : Handler}

/-- What a re-arm is about to write is the machine it found, under its name. -/
theorem rearmWrite_found
    (h : Protocol.Keeps (routeMoves cp) RouteView.Returns (RouteKept cp code) σ) (ht : t ∈ σ.pool)
    {n : String} {m : Machine} (hw : rearmWrite t = some (n, m)) :
    t.pending = some (.redis (.machine n (.set (.json m)))) ∧ t.call.begins = true ∧
      n = m.name ∧ ∃ m', (routeView cp t).found = some m' ∧ m'.identity = m.identity := by
  unfold rearmWrite at hw
  split at hw
  · rename_i code' key n' m' hcall hpend
    cases hw
    have hbegins : t.call.begins = true := by
      rw [hcall]
      rfl
    refine ⟨hpend, hbegins, ?_⟩
    have hc := h.conforms t ht
    unfold Thread.pending at hpend
    split at hpend
    · cases hpend
    · rename_i c k hp
      obtain rfl := Option.some.inj hpend
      rw [hp] at hc
      cases hc.1 with
      | harmless _ _ hset =>
        exact absurd rfl (hset ((congrArg Call.begins (routeView_call t)).trans hbegins) _ _)
      | attach hfound => exact ⟨rfl, _, hfound, rfl⟩
  · cases hw

/-- The views of the calls on the code. -/
theorem viewKept (h : Protocol.Keeps (routeMoves cp) RouteView.Returns (RouteKept cp code) σ)
    (ht : t ∈ σ.pool) (hcode : cp.codeOf t.call = some code) :
    ViewKept (approvedMachines cp code (routeViews cp σ)) (routeView cp t) :=
  h.holds.views _ (List.mem_map_of_mem ht) ((congrArg _ (routeView_call t)).trans hcode)

theorem approved_of_rearmWrite
    (h : Protocol.Keeps (routeMoves cp) RouteView.Returns (RouteKept cp code) σ) (ht : t ∈ σ.pool)
    (hcode : cp.codeOf t.call = some code) {n : String} {m : Machine}
    (hw : rearmWrite t = some (n, m)) :
    ∃ a ∈ approvedMachines cp code (routeViews cp σ), a.identity = m.identity := by
  obtain ⟨-, -, -, m', hm', hroute⟩ := rearmWrite_found h ht hw
  obtain ⟨a, ha, hroute'⟩ := (viewKept h ht hcode).found m' hm'
  exact ⟨a, ha, hroute'.trans hroute⟩

theorem deliversApproved_of_keeps
    (h : Protocol.Keeps (routeMoves cp) RouteView.Returns (RouteKept cp code) σ) :
    DeliversApproved cp code σ := by
  refine ⟨h.holds.one, fun t ht hcode x hx => ?_, fun t ht hcode m hm => ?_⟩
  · obtain ⟨-, -, hname, -⟩ := rearmWrite_found h ht (n := x.1) (m := x.2) hx
    exact ⟨hname, approved_of_rearmWrite h ht hcode hx⟩
  · unfold polledMachine at hm
    split at hm
    · rename_i code' out hcall hresult
      have hret := h.fin_of_result ht hresult
      unfold RouteView.Returns at hret
      rw [show ((routeMoves cp).state t).call = .invitePoll code' from
        (routeView_call t).trans hcall] at hret
      change out.machine = (routeView cp t).got.map (·.machine) at hret
      rw [hret] at hm
      obtain ⟨d, hd, rfl⟩ := Option.map_eq_some_iff.mp hm
      exact (viewKept h ht hcode).got d hd
    · cases hm

/-- When a re-arm writes back as the condition asks, what it replaces is the approved machine. -/
theorem replaces_approved
    (h : Protocol.Keeps (routeMoves cp) RouteView.Returns (RouteKept cp code) σ) {i : ℕ}
    {ch : Choice} (hallowed : KeepsRoute cp code σ (.step i ch)) (hi : σ.pool[i]? = some t)
    (hcode : cp.codeOf t.call = some code) {n : String} {m : Machine}
    (hw : rearmWrite t = some (n, m)) {x : Stored Machine} (hx : σ.world.machines n = some x) :
    ∃ old, x = .json old ∧
      ∃ a ∈ approvedMachines cp code (routeViews cp σ), a.identity = old.identity := by
  have ht : t ∈ σ.pool := List.mem_of_getElem? hi
  obtain ⟨hpend, hbegins, -⟩ := rearmWrite_found h ht hw
  have hs := hallowed t hi _ hpend hcode
  have hb : (routeView cp t).call.begins = true :=
    (congrArg Call.begins (routeView_call t)).trans hbegins
  cases x with
  | corrupt text err => simp [routeStep, hx, hb] at hs
  | json old =>
    simp only [routeStep, hx, hb, Bool.not_true, Bool.false_or, decide_eq_true_eq] at hs
    obtain ⟨a, ha, hroute⟩ := approved_of_rearmWrite h ht hcode hw
    exact ⟨old, rfl, a, ha, hroute.trans hs.symm⟩

end Kept

/-- Another machine has the key that the invite's machine enrolls with, and is listed first; the
invite is approved, its machine dials again and polls. -/
def sharedKeyFirst : List Tick :=
  .start (.allocate none "garage" keyA) :: List.replicate 10 (.step 0 {}) ++
    .start (.inviteApprove "owner@example.net" sampleCode "kitchen") ::
      List.replicate 16 (.step 1 {}) ++
    .start (.inviteBegin sampleCode keyA) :: List.replicate 7 (.step 2 {}) ++
    .start (.invitePoll sampleCode) :: List.replicate 2 (.step 3 {})

/-- The poll returns the other machine. -/
theorem strayDelivery :
    ¬DeliversApproved sample sampleCode
      (Server.run sample ⟨waitingWorld, []⟩ sharedKeyFirst) := by
  intro h
  have hstray : ¬∀ t ∈ (Server.run sample ⟨waitingWorld, []⟩ sharedKeyFirst).pool,
      sample.codeOf t.call = some sampleCode → ∀ m ∈ polledMachine t,
        ∃ a ∈ approvedMachines sample sampleCode
          (routeViews sample (Server.run sample ⟨waitingWorld, []⟩ sharedKeyFirst)),
          a.identity = m.identity := by decide +kernel
  exact hstray h.polled

/-- **Only the approved machine is delivered.**  In every schedule of all operations whose commands
on the code meet `routeStep`, from a store in which the invite is not approved, re-arms and polls
are about the machine that the approval allocated, and so is the record that a re-arm replaces. -/
theorem delivers_approved
    (hnew : ∀ r, w.invites code = some (.json r) → r.status ≠ .approved) {ticks : List Tick}
    (hadm : Server.Admissible cp (KeepsRoute cp code) ⟨w, []⟩ ticks) :
    DeliversApproved cp code (Server.run cp ⟨w, []⟩ ticks) ∧
      ∀ i ch t n m, KeepsRoute cp code (Server.run cp ⟨w, []⟩ ticks) (.step i ch) →
        (Server.run cp ⟨w, []⟩ ticks).pool[i]? = some t → cp.codeOf t.call = some code →
        rearmWrite t = some (n, m) →
        ∀ x, (Server.run cp ⟨w, []⟩ ticks).world.machines n = some x →
          ∃ old, x = .json old ∧ ∃ a ∈ approvedMachines cp code
            (routeViews cp (Server.run cp ⟨w, []⟩ ticks)), a.identity = old.identity := by
  have hinit : RouteKept cp code w [] :=
    ⟨fun _ ha => (by cases ha), fun r hr hs => absurd hs (hnew r hr), fun _ _ _ ha => (by cases ha),
      fun _ hv => absurd hv List.not_mem_nil⟩
  have hkeeps := routeSteps.run_keeps (Protocol.keeps_nil hinit) hadm
  refine ⟨deliversApproved_of_keeps hkeeps, fun i ch t n m hallowed hi hcode hw x hx => ?_⟩
  exact replaces_approved hkeeps hallowed hi hcode hw hx

/-- The other machine with the key is listed after the approved one. -/
def sharedKeyLater : List Tick :=
  .start (.inviteApprove "owner@example.net" sampleCode "kitchen") ::
      List.replicate 16 (.step 0 {}) ++
    .start (.allocate none "garage" keyA) :: List.replicate 10 (.step 1 {}) ++
    .start (.inviteBegin sampleCode keyA) :: List.replicate 7 (.step 2 {}) ++
    .start (.invitePoll sampleCode) :: List.replicate 2 (.step 3 {})

theorem delivers_approved_later :
    DeliversApproved sample sampleCode (Server.run sample ⟨waitingWorld, []⟩ sharedKeyLater) ∧
      ((Server.run sample ⟨waitingWorld, []⟩ sharedKeyLater).pool.filterMap
        polledMachine).map (·.name) = ["kitchen"] := by
  have hnew : ∀ r, waitingWorld.invites sampleCode = some (.json r) → r.status ≠ .approved := by
    intro r hr
    cases hr
    decide
  exact ⟨(delivers_approved hnew (by decide +kernel)).1, by decide +kernel⟩

end ControlPlane
end Cococoir
