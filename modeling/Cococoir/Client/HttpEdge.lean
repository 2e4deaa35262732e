import Cococoir.Client.Enroll
import Cococoir.ControlPlane.OneInvite
import Cococoir.Site.Api

/-!
# A box and the real edge

The edge that a box dials is the site's API over the control plane.  A request can be lost on its way, and
so can its response; the edge serves one request at a time.  The owner of the invite decides about it from
the outside.

* `httpEdge`: the edge as the HTTP client asks it.
* `Owner.act`: what the owner's attempts do.
* `Ledger.Sound`: what the edge knows of the invite agrees with what the owner was told.
* `Ledger.Sound.begin`, `Ledger.Sound.poll`, `Ledger.Sound.act`: every request and attempt keeps this.

## Who knows what

A request can be served and its response lost, and then the edge has moved on and the box does not
know it.  `Exchange` is what becomes of a request, `request_cases` the three things that a client
can see: the response, an error with the edge as it was, an error with the edge moved.  What is
proved of a begin, of a poll and of an owner's attempt is proved of the edge's side first, by the
invariant of `ControlPlane.OneInvite`, and holds however the response fares.

`Ledger` has next to the world what the owner was told: the machines that approvals have returned,
and whether a decision was taken.  `Ledger.Armed` says that an approved machine's payload waits in
the store, and it is this that a poll whose response was lost has used up and that the next begin
makes true again.
-/

namespace Cococoir
namespace Client
namespace Enroll

open Box (PollOutcome pollOutcome boxView)
open Concurrency
open ControlPlane (Approved Closed InviteError InviteStatus KeyUnused Machine OneInvite TunnelInfo World
  enrolledWith)
open Json (Value)
open Site.Api (Response)

/-! ## Model -/

/-- The edge, and what the owner of the invite was told. -/
structure Ledger : Type where
  world : World
  /-- The machines that approvals have returned. -/
  approvals : List Machine
  /-- A denial or a revocation succeeded. -/
  decided : Bool

/-- What becomes of one request. -/
structure Exchange : Type where
  /-- The request does not reach the edge. -/
  unsent : Bool
  /-- The response does not reach the box. -/
  lost : Bool
  /-- What the HTTP client says of it. -/
  text : String
  /-- What the environment of the edge decides. -/
  choices : List ControlPlane.Choice

/-- Nothing goes wrong on the way. -/
def Exchange.arrives (x : Exchange) : Bool := !x.unsent && !x.lost

/-- What the client makes of a response. -/
def received (url : String) (x : Exchange) : Response → Except EnrollError Value
  | none => .error (.api (url ++ ": " ++ x.text))
  | some (.error err) => .error (.api (url ++ ": " ++ err.status.text ++ " \"" ++ err.message ++ "\""))
  | some (.ok value) => .ok value

/-- One request, from the box and back. -/
def request (url : String) (x : Exchange) (handler : World → Response × World) (l : Ledger) :
    Except EnrollError Value × Ledger :=
  if x.unsent then (.error (.api (url ++ ": " ++ x.text)), l)
  else
    let r := handler l.world
    (if x.lost then .error (.api (url ++ ": " ++ x.text)) else received url x r.1, { l with world := r.2 })

/-- Read the tunnel facts. -/
def edgeInfoOf (value : Value) : Except EnrollError EdgeInfo :=
  let field := fun name => (value.get name).bind Value.asStr
  match field "public_key", field "endpoint", field "allowed_ips" with
  | some publicKey, some endpoint, some allowedIps => .ok ⟨publicKey, endpoint, allowedIps⟩
  | _, _, _ => .error (.api "tunnel info response must carry public_key, endpoint and allowed_ips")

variable (cp : ControlPlane)

/-- The edge over HTTP, from the base of the invite link. -/
def httpEdge (base : String) : EdgeClient Ledger Exchange where
  begin code publicKey x l :=
    let r := request (base ++ "/api/invites/" ++ code ++ "/begin") x
      (fun w => Site.Api.inviteBegin cp x.choices w code publicKey) l
    (r.1.map pollOutcome, r.2)
  poll code x l :=
    let r := request (base ++ "/api/invites/" ++ code ++ "/poll") x
      (fun w => Site.Api.invitePoll cp x.choices w code) l
    (r.1.map pollOutcome, r.2)
  edgeInfo x l :=
    let r := request (base ++ "/api/wireguard/info") x (Site.Api.wireguardInfo cp x.choices) l
    (r.1.bind edgeInfoOf, r.2)

/-- What an owner can attempt; the email is that of the session. -/
inductive Owner : Type where
  | approve (email name : String) (choices : List ControlPlane.Choice) : Owner
  | deny (email : String) (choices : List ControlPlane.Choice) : Owner
  | revoke (email : String) (choices : List ControlPlane.Choice) : Owner

/-- The machine that an approval returned. -/
def approvedBy : Outcome InviteError Machine → List Machine
  | .ok m => [m]
  | _ => []

/-- A decision was taken. -/
def isDecision : Outcome InviteError Unit → Bool
  | .ok _ => true
  | _ => false

/-- An attempt of the owner's at the invite. -/
def Owner.act (code : String) : Owner → Ledger → Ledger
  | .approve email name choices, l =>
    let r := Site.Api.perform (cp.inviteApprove email code name) choices l.world
    ⟨r.2, l.approvals ++ approvedBy r.1, l.decided⟩
  | .deny email choices, l =>
    let r := Site.Api.perform (cp.inviteDeny email code) choices l.world
    ⟨r.2, l.approvals, l.decided || isDecision r.1⟩
  | .revoke email choices, l =>
    let r := Site.Api.perform (cp.inviteRevoke email code) choices l.world
    ⟨r.2, l.approvals, l.decided || isDecision r.1⟩

/-- The name of an approval is that of no machine, as long as none is approved. -/
def Owner.Free (l : Ledger) : Owner → Prop
  | .approve _ name _ => l.world.machines name = none ∨ l.approvals ≠ []
  | _ => True

instance (l : Ledger) : ∀ op : Owner, Decidable (op.Free l)
  | .approve _ name _ => inferInstanceAs (Decidable (l.world.machines name = none ∨ l.approvals ≠ []))
  | .deny _ _ | .revoke _ _ => isTrue trivial

/-! ## What the box is answered -/

variable {cp} {base code c key url : String} {x : Exchange} {l l' : Ledger} {m : Machine} {token : String}

/-- What a request comes to: the response, or an error, with or without the edge's having served it. -/
theorem request_cases {handler : World → Response × World} {answer : Except EnrollError Value}
    (h : request url x handler l = (answer, l')) :
    (∃ text, answer = .error (.api text)) ∧ (l' = l ∨ l' = { l with world := (handler l.world).2 }) ∧
        x.arrives = false ∨
      answer = received url x (handler l.world).1 ∧ l' = { l with world := (handler l.world).2 } := by
  unfold request at h
  split_ifs at h with hunsent hlost
  · cases h
    exact .inl ⟨⟨_, rfl⟩, .inl rfl, by rw [Exchange.arrives, hunsent]; rfl⟩
  · cases h
    exact .inl ⟨⟨_, rfl⟩, .inr rfl, by rw [Exchange.arrives, hlost, Bool.not_true, Bool.and_false]⟩
  · cases h
    exact .inr ⟨rfl, rfl⟩

/-- A box reads the facts that the site writes. -/
theorem edgeInfoOf_json (info : TunnelInfo) : edgeInfoOf (Site.Api.wireguardInfoJson info) =
    .ok ⟨info.publicKey, info.endpoint, info.allowedIps⟩ := by
  have hkey : (Site.Api.wireguardInfoJson info).get "public_key" = some (.string info.publicKey) := rfl
  have hendpoint : (Site.Api.wireguardInfoJson info).get "endpoint" = some (.string info.endpoint) := rfl
  have hips : (Site.Api.wireguardInfoJson info).get "allowed_ips" = some (.string info.allowedIps) := rfl
  simp only [edgeInfoOf, hkey, hendpoint, hips]
  rfl

/-! ## The ledger -/

variable (cp c key) in
/-- What the edge stores agrees with what the owner was told. -/
structure Ledger.Sound (l : Ledger) : Prop where
  one : OneInvite cp c key l.world l.approvals
  closed : l.decided = true → l.approvals = [] ∧ Closed c l.world

variable (c) in
/-- The payload of an approved machine waits to be collected. -/
def Ledger.Armed (l : Ledger) : Prop := l.approvals ≠ [] → (l.world.deliveries c).isSome

variable (cp c key) in
/-- The payload is that of the approved machine, with its current token. -/
def Ledger.Holds (l : Ledger) (wgIp hostname deviceToken : String) : Prop :=
  ∃ m, l.approvals = [m] ∧ Approved cp c key l.world m deviceToken ∧ m.wgIp = wgIp ∧ m.hostname = hostname

/-- **A begin** keeps the ledger, and one that is answered leaves a payload for an approved machine. -/
theorem Ledger.Sound.begin (hcode : cp.canonicalInviteCode code = some c) (h : l.Sound cp c key)
    {answer : Except EnrollError PollOutcome} (hbegin : (httpEdge cp base).begin code key x l = (answer, l')) :
    l'.Sound cp c key ∧ l'.approvals = l.approvals ∧ l'.decided = l.decided ∧
      ((∃ err, answer = .error err) ∧ (x.arrives = true → l.approvals = []) ∨
        (∃ begun, answer = .ok begun ∧ begun.status ≠ "denied") ∧ l'.Armed c) := by
  have hone := h.one.begin hcode (Site.Api.runs_perform (cp.inviteBegin code key) x.choices l.world)
  set served := Site.Api.perform (cp.inviteBegin code key) x.choices l.world with hserved
  have hkeep : Ledger.Sound cp c key { l with world := served.2 } := by
    rcases hone with ⟨hnil, hone', hclosed, -⟩ | ⟨m, token, happrovals, -, happroved, -⟩
    · exact ⟨hnil ▸ hone', fun hd => ⟨hnil, (hclosed (h.closed hd).2).1⟩⟩
    · refine ⟨happrovals ▸ .approved happroved, fun hd => ?_⟩
      cases happrovals.symm.trans (h.closed hd).1
  obtain ⟨value, hrequest, rfl⟩ : ∃ value, request (base ++ "/api/invites/" ++ code ++ "/begin") x
      (fun w => Site.Api.inviteBegin cp x.choices w code key) l = (value, l') ∧ answer = value.map pollOutcome := by
    cases hbegin
    exact ⟨_, rfl, rfl⟩
  rcases request_cases hrequest with ⟨⟨text, rfl⟩, hl, harrives⟩ | ⟨rfl, rfl⟩
  · have hnever : x.arrives = true → l.approvals = [] := fun ha => by
      cases harrives.symm.trans ha
    rcases hl with rfl | rfl
    · exact ⟨h, rfl, rfl, .inl ⟨⟨_, rfl⟩, hnever⟩⟩
    · exact ⟨hkeep, rfl, rfl, .inl ⟨⟨_, rfl⟩, hnever⟩⟩
  · refine ⟨hkeep, rfl, rfl, ?_⟩
    dsimp only [Site.Api.inviteBegin, Site.Api.serve]
    rw [← hserved]
    rcases hone with ⟨hnil, -, -, ⟨e, ho⟩ | ⟨ho, -⟩⟩ | ⟨m, token, -, ho, -, harmed⟩
    · rw [ho]
      exact .inl ⟨⟨_, rfl⟩, fun _ => hnil⟩
    · rw [ho]
      exact .inr ⟨⟨_, congrArg Except.ok (Box.poll_wire_agrees _).1, by decide⟩, fun hne => absurd hnil hne⟩
    · rw [ho]
      exact .inr ⟨⟨_, congrArg Except.ok (Box.poll_wire_agrees _).1, by decide⟩, fun _ => harmed⟩

/-- **A poll** keeps the ledger.  It tells no payload before an approval; after one it collects the payload
that waits, unless it does not arrive. -/
theorem Ledger.Sound.poll (hcode : cp.canonicalInviteCode code = some c) (h : l.Sound cp c key)
    (harmed : l.Armed c) {answer : Except EnrollError PollOutcome}
    (hpoll : (httpEdge cp base).poll code x l = (answer, l')) :
    l'.Sound cp c key ∧ l'.approvals = l.approvals ∧ l'.decided = l.decided ∧
      (((∃ err, answer = .error err) ∧ (x.arrives = true → l.approvals = [])) ∨
        (l.approvals = [] ∧ ∃ outcome, answer = .ok outcome ∧ outcome.status ≠ "approved") ∨
        ∃ wgIp hostname token, l'.Holds cp c key wgIp hostname token ∧
          answer = .ok ⟨"approved", some wgIp, some hostname, some token⟩) := by
  have hone := h.one.poll hcode (Site.Api.runs_perform (cp.invitePoll code) x.choices l.world)
  set served := Site.Api.perform (cp.invitePoll code) x.choices l.world with hserved
  have hkeep : Ledger.Sound cp c key { l with world := served.2 } := by
    rcases hone with ⟨-, hw, -⟩ | ⟨m, token, happrovals, -, happroved, -⟩
    · rw [hw]
      exact h
    · refine ⟨happrovals ▸ .approved happroved, fun hd => ?_⟩
      cases happrovals.symm.trans (h.closed hd).1
  obtain ⟨value, hrequest, rfl⟩ : ∃ value, request (base ++ "/api/invites/" ++ code ++ "/poll") x
      (fun w => Site.Api.invitePoll cp x.choices w code) l = (value, l') ∧ answer = value.map pollOutcome := by
    cases hpoll
    exact ⟨_, rfl, rfl⟩
  rcases request_cases hrequest with ⟨⟨text, rfl⟩, hl, harrives⟩ | ⟨rfl, rfl⟩
  · have hnever : x.arrives = true → l.approvals = [] := fun ha => by
      cases harrives.symm.trans ha
    rcases hl with rfl | rfl
    · exact ⟨h, rfl, rfl, .inl ⟨⟨_, rfl⟩, hnever⟩⟩
    · exact ⟨hkeep, rfl, rfl, .inl ⟨⟨_, rfl⟩, hnever⟩⟩
  · refine ⟨hkeep, rfl, rfl, ?_⟩
    dsimp only [Site.Api.invitePoll, Site.Api.serve]
    rw [← hserved]
    rcases hone with ⟨hnil, -, ⟨e, ho⟩ | ⟨r, -, hstatus, ho⟩⟩ |
      ⟨m, token, happrovals, -, happroved, ⟨hnone, -⟩ | ⟨-, ho⟩⟩
    · rw [ho]
      exact .inl ⟨⟨_, rfl⟩, fun _ => hnil⟩
    · rw [ho]
      refine .inr (.inl ⟨hnil, _, congrArg Except.ok (Box.poll_wire_agrees _).1, ?_⟩)
      show r.status.text ≠ "approved"
      generalize r.status = status at hstatus
      cases status with
      | approved => exact absurd rfl hstatus
      | _ => decide
    · have := harmed (by rw [happrovals]; exact List.cons_ne_nil _ _)
      rw [hnone] at this
      cases this
    · rw [ho]
      exact .inr (.inr ⟨m.wgIp, m.hostname, token, ⟨m, happrovals, happroved, rfl, rfl⟩,
        congrArg Except.ok (Box.poll_wire_agrees _).1⟩)

/-- **The tunnel facts** leave the edge alone; the edge has them once a machine is approved. -/
theorem edgeInfo_cases (hroot : cp.rootDomain ≠ "") {answer : Except EnrollError EdgeInfo}
    (hinfo : (httpEdge cp base).edgeInfo x l = (answer, l')) :
    l' = l ∧ (x.arrives = true → ∀ c key wgIp hostname token, l.Holds cp c key wgIp hostname token →
      ∃ info, answer = .ok info) := by
  obtain ⟨value, hrequest, rfl⟩ : ∃ value, request (base ++ "/api/wireguard/info") x
      (Site.Api.wireguardInfo cp x.choices) l = (value, l') ∧ answer = value.bind edgeInfoOf := by
    cases hinfo
    exact ⟨_, rfl, rfl⟩
  obtain ⟨oe, hedge⟩ := cp.edgePublicKey_done
  have hdone : ∃ o, cp.tunnelInfo = .done o := by
    cases oe with
    | ok edge =>
      obtain ⟨range, -, hfacts⟩ := ControlPlane.tunnelInfo_eq hedge hroot
      exact ⟨_, hfacts⟩
    | err e => exact ⟨.err e, by rw [ControlPlane.tunnelInfo, hedge]; rfl⟩
    | panic msg => exact ⟨.panic msg, by rw [ControlPlane.tunnelInfo, hedge]; rfl⟩
  obtain ⟨o, ho⟩ := hdone
  have hserved : Site.Api.wireguardInfo cp x.choices l.world =
      (Site.Api.respond .ofControlPlane Site.Api.wireguardInfoJson o, l.world) := by
    rw [Site.Api.wireguardInfo, ho]
    rfl
  rcases request_cases hrequest with ⟨⟨text, rfl⟩, hl, harrives⟩ | ⟨rfl, rfl⟩
  · rw [hserved] at hl
    refine ⟨hl.elim id id, fun ha => ?_⟩
    cases harrives.symm.trans ha
  · rw [hserved]
    refine ⟨rfl, ?_⟩
    rintro - c key wgIp hostname token ⟨m, -, happroved, -, -⟩
    obtain ⟨edge, hgate⟩ := happroved.gate
    obtain ⟨range, -, hfacts⟩ := ControlPlane.tunnelInfo_eq (ControlPlane.passes_of_allocationGate hgate).2.2 hroot
    rw [hfacts] at ho
    cases ho
    exact ⟨_, edgeInfoOf_json _⟩

/-! ## The owner -/

/-- **An attempt of the owner's** keeps the ledger, and what a machine that was approved before has. -/
theorem Ledger.Sound.act (hcode : cp.canonicalInviteCode code = some c) (h : l.Sound cp c key) {op : Owner}
    (hfree : op.Free l) :
    (op.act cp code l).Sound cp c key ∧ (l.Armed c → (op.act cp code l).Armed c) ∧
      ∀ wgIp hostname token, l.Holds cp c key wgIp hostname token →
        (op.act cp code l).Holds cp c key wgIp hostname token := by
  have hclose : ∀ {o : Outcome InviteError Unit} {w' : World},
      ((∃ e, o = .err e) ∧ w' = l.world ∨
        o = .ok () ∧ l.approvals = [] ∧ OneInvite cp c key w' [] ∧ Closed c w') →
      Ledger.Sound cp c key ⟨w', l.approvals, l.decided || isDecision o⟩ ∧
        (l.Armed c → Ledger.Armed c ⟨w', l.approvals, l.decided || isDecision o⟩) ∧
        ∀ wgIp hostname token, l.Holds cp c key wgIp hostname token →
          Ledger.Holds cp c key ⟨w', l.approvals, l.decided || isDecision o⟩ wgIp hostname token := by
    rintro o w' (⟨⟨e, rfl⟩, rfl⟩ | ⟨rfl, hnil, hone, hclosed⟩)
    · rw [show isDecision (.err e) = false from rfl, Bool.or_false]
      exact ⟨h, id, fun _ _ _ => id⟩
    · refine ⟨⟨hnil ▸ hone, fun _ => ⟨hnil, hclosed⟩⟩, fun _ hne => absurd hnil hne, ?_⟩
      rintro wgIp hostname token ⟨m, happrovals, -⟩
      cases hnil.symm.trans happrovals
  cases op with
  | approve email name choices =>
    have hrun := Site.Api.runs_perform (cp.inviteApprove email code name) choices l.world
    dsimp only [Owner.act]
    set served := Site.Api.perform (cp.inviteApprove email code name) choices l.world
    rcases h.one.approve hcode hfree hrun with
      ⟨m, token, ho, hnil, hopen, happroved, harmed⟩ | ⟨hnot, hone, hinvites, -, hsame⟩
    · have happrovals : l.approvals ++ approvedBy served.1 = [m] := by rw [ho, hnil]; rfl
      refine ⟨⟨happrovals ▸ .approved happroved, fun hd => absurd (h.closed hd).2 hopen⟩, fun _ _ => harmed, ?_⟩
      rintro wgIp hostname token ⟨m, hm, -⟩
      cases hnil.symm.trans hm
    · have happrovals : l.approvals ++ approvedBy served.1 = l.approvals := by
        generalize served.1 = o at hnot
        cases o with
        | ok m => exact absurd rfl (hnot m)
        | _ => exact List.append_nil _
      rw [happrovals]
      refine ⟨⟨hone, fun hd => ?_⟩, fun hl hne => ?_, ?_⟩
      · obtain ⟨hnil, hclosed⟩ := h.closed hd
        refine ⟨hnil, ?_⟩
        show Closed c served.2
        rwa [Closed, hinvites]
      · rw [hsame hne]
        exact hl hne
      · rintro wgIp hostname token hholds
        rw [hsame (by obtain ⟨m, hm, -⟩ := hholds; rw [hm]; exact List.cons_ne_nil _ _)]
        exact hholds
  | deny email choices =>
    exact hclose (h.one.deny hcode (Site.Api.runs_perform (cp.inviteDeny email code) choices l.world))
  | revoke email choices =>
    exact hclose (h.one.revoke hcode (Site.Api.runs_perform (cp.inviteRevoke email code) choices l.world))

end Enroll
end Client
end Cococoir
