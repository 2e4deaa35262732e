import Cococoir.Client.HttpEdge
import Cococoir.Client.Persistence

/-!
# Enrollment, end to end

One box with its key, the edge, and the owner of the invite, in any interleaving.  The box can
crash anywhere and be started again; its requests, their responses and its disk can fail.

* `Joint`: what box, disk and edge know of each other, by where the enrollment is.
* `joint_runs`: it holds in every run, and so does `Told` if nothing fails.
* `Told`, `told_step`: what the polls of an enrollment have seen, if nothing fails.
* `enrollment_exclusive`: what holds whatever fails.
* `enrollment_end_to_end`: what an undisturbed enrollment comes to.

## The invariant

`Joint` joins three states.  On the edge the invite is undecided, closed, or approved for one
machine, with the token that is current: this is the ledger of `Client.HttpEdge`, and it is kept
by everything that the edge does.  On the disk the state file is of no use or that of the approved
machine: `Settled`.  And the box, if it is past its approval, has in hand the payload of that
machine.  An action of the owner, a command of the box and a crash each keep it; the case that
costs work is the one in which a payload was collected and the box crashed before it was written.
Then the next begin draws another token, and the old payload is the machine's no longer.

## Two kinds of results

Whatever fails, one machine at most has the box's key, and what is on the disk is about that
machine.  If nothing fails, more is true: the polls of the box saw the invite wait until the owner
decided, so an enrollment that returns has persisted what the owner approved, and one that gives
up was denied, or polled as often as it may.

In both, nobody else has to do with the invite: `Alone` says that the starts of the box have one
key, and that the owner approves under names that are free.
-/

namespace Cococoir
namespace Client
namespace Enroll

open Box (PollOutcome)
open Claims (Codec TunnelConfig persistedTunnelState)
open Concurrency
open ControlPlane (HashApart KeyUnused RotatesOnly enrolledWith)
open FormUrl (utf8)

variable {codec : Codec} {cfg : InviteConfig} {crates : Keypair.Crates} {cp : ControlPlane}
  {base code c key : String} {maxPolls : ℕ} {d : Disk} {l l' : Ledger} {t t' : Enrollment Ledger}
  {s : System Ledger}

/-! ## The invariant -/

variable (codec cfg cp c key) in
/-- The state file is of no use, or that of the approved machine. -/
def Settled (l : Ledger) (d : Disk) : Prop :=
  Unpersisted codec d ∨
    ∃ p : Payload, l.Holds cp c key p.wgIp p.hostname p.deviceToken ∧ p.StateOn codec cfg d

variable (codec cfg cp c key) in
/-- What box, disk and edge know of each other, by where the enrollment is. -/
def Joint (l : Ledger) (d : Disk) : Option Phase → Prop
  | none => Settled codec cfg cp c key l d
  | some .starting => Unpersisted codec d
  | some (.keyed pubkey) => pubkey = key ∧ Unpersisted codec d
  | some (.polling _) | some (.sleeping _) => l.Armed c ∧ Unpersisted codec d
  | some (.fetching wgIp hostname token) => l.Holds cp c key wgIp hostname token ∧ Unpersisted codec d
  | some (.saving ops o) =>
    (ops = [] ∧ (∃ err, o = .err err) ∧ Settled codec cfg cp c key l d) ∨
      ∃ (p : Payload) (d₀ : Disk) (pre : List FileOp), l.Holds cp c key p.wgIp p.hostname p.deviceToken ∧
        Unpersisted codec d₀ ∧ save codec cfg p = (pre ++ ops, o) ∧ d = execAll pre d₀

/-- The command that an enrollment issues next. -/
def pending : Option (Program TunnelConfig) → Option Cmd
  | some (.cmd c _) => some c
  | _ => none

variable (crates key) in
/-- Nobody else has to do with the invite: the box has this key, and the owner approves under a name that
is free. -/
def Alone (s : System Ledger) : Event Exchange Owner → Prop
  | .advance ch => pending s.box = some .ensureKeypair →
    ∀ pubkey ∈ (keypairOf crates ch s.disk).1.toOption, pubkey = key
  | .outside op => op.Free s.edge
  | _ => True

instance (crates : Keypair.Crates) (key : String) (s : System Ledger) : ∀ ev, Decidable (Alone crates key s ev)
  | .advance ch => inferInstanceAs (Decidable (pending s.box = some .ensureKeypair →
      ∀ pubkey ∈ (keypairOf crates ch s.disk).1.toOption, pubkey = key))
  | .outside op => inferInstanceAs (Decidable (op.Free s.edge))
  | .start | .crash => isTrue trivial

/-- An enrollment that was broken off leaves the disk settled. -/
theorem Joint.settled (hclosed : codec.Closed) {phase : Option Phase}
    (h : Joint codec cfg cp c key l d phase) : Settled codec cfg cp c key l d := by
  match phase, h with
  | none, h => exact h
  | some .starting, h => exact .inl h
  | some (.keyed _), h | some (.polling _), h | some (.sleeping _), h | some (.fetching _ _ _), h =>
    exact .inl h.2
  | some (.saving _ _), .inl ⟨_, _, h⟩ => exact h
  | some (.saving ops o), .inr ⟨p, d₀, pre, hholds, hd₀, hsave, hd⟩ =>
    have hpre : pre <+: (save codec cfg p).1 := ⟨ops, by rw [hsave]⟩
    rw [hd]
    exact (broken_off hclosed hd₀ hpre).imp_right fun hstate => ⟨p, hholds, hstate⟩

/-- What the owner does leaves an enrollment what it has. -/
theorem Joint.act {phase : Option Phase} (h : Joint codec cfg cp c key l d phase)
    (harmed : l.Armed c → l'.Armed c)
    (hholds : ∀ wgIp hostname token, l.Holds cp c key wgIp hostname token →
      l'.Holds cp c key wgIp hostname token) : Joint codec cfg cp c key l' d phase := by
  have hsettled : Settled codec cfg cp c key l d → Settled codec cfg cp c key l' d :=
    Or.imp_right fun ⟨p, hp, hstate⟩ => ⟨p, hholds _ _ _ hp, hstate⟩
  match phase, h with
  | none, h => exact hsettled h
  | some .starting, h => exact h
  | some (.keyed _), h => exact h
  | some (.polling _), h | some (.sleeping _), h => exact ⟨harmed h.1, h.2⟩
  | some (.fetching _ _ _), h => exact ⟨hholds _ _ _ h.1, h.2⟩
  | some (.saving _ _), .inl ⟨hops, herr, h⟩ => exact .inl ⟨hops, herr, hsettled h⟩
  | some (.saving _ _), .inr ⟨p, d₀, pre, hp, h⟩ => exact .inr ⟨p, d₀, pre, hholds _ _ _ hp, h⟩

/-- The enrollment ended with an error before it wrote anything. -/
theorem joint_ended {err : EnrollError} (hd : Unpersisted codec d) :
    Joint codec cfg cp c key l d (some (.ended (.err err))) := .inl ⟨rfl, ⟨err, rfl⟩, .inl hd⟩

/-- Where an answer that is no approval leads. -/
theorem judged_of_not_approved (left : ℕ) {outcome : PollOutcome} (h : outcome.status ≠ "approved") :
    (∃ err, judged left outcome = .ended (.err err)) ∨ ∃ rest, judged left outcome = .sleeping rest := by
  rcases judged_cases left outcome with herr | ⟨wgIp, hostname, token, -, rfl⟩ | ⟨rest, -, hj, -⟩
  · exact .inl herr
  · exact absurd rfl h
  · exact .inr ⟨rest, hj⟩

/-- **One command** keeps the invariant, whatever fails. -/
theorem Joint.next (hcode : cp.canonicalInviteCode code = some c) (hroot : cp.rootDomain ≠ "")
    (hclosed : codec.Closed) {phase : Phase} (hended : phase.isEnded = false) {ch : Choice Exchange}
    (hl : l.Sound cp c key) (h : Joint codec cfg cp c key l d (some phase))
    (hkey : phase = .starting → ∀ pubkey ∈ (keypairOf crates ch d).1.toOption, pubkey = key) :
    (phase.next codec cfg crates (httpEdge cp base) maxPolls code ch (d, l)).2.2.Sound cp c key ∧
      Joint codec cfg cp c key (phase.next codec cfg crates (httpEdge cp base) maxPolls code ch (d, l)).2.2
        (phase.next codec cfg crates (httpEdge cp base) maxPolls code ch (d, l)).2.1
        (some (phase.next codec cfg crates (httpEdge cp base) maxPolls code ch (d, l)).1) := by
  cases phase with
  | starting =>
    have hd : Unpersisted codec (keypairOf crates ch d).2 := by
      rw [Unpersisted, keypairOf_files]
      exact h
    have hkey := hkey rfl
    refine ⟨hl, ?_⟩
    dsimp only [Phase.next]
    generalize (keypairOf crates ch d).1 = found at hkey
    cases found with
    | ok pubkey => exact ⟨hkey pubkey rfl, hd⟩
    | error err => exact joint_ended hd
  | keyed pubkey =>
    obtain ⟨rfl, hd⟩ := h
    dsimp only [Phase.next]
    generalize hbegin : (httpEdge cp base).begin code pubkey ch.edge l = begun
    obtain ⟨answer, l'⟩ := begun
    obtain ⟨hsound, -, -, ⟨⟨err, rfl⟩, -⟩ | ⟨⟨begun, rfl, hstatus⟩, harmed⟩⟩ := hl.begin hcode hbegin
    · exact ⟨hsound, joint_ended hd⟩
    · dsimp only
      rw [if_neg hstatus]
      exact ⟨hsound, harmed, hd⟩
  | polling left =>
    obtain ⟨harmed, hd⟩ := h
    dsimp only [Phase.next]
    generalize hpoll : (httpEdge cp base).poll code ch.edge l = polled
    obtain ⟨answer, l'⟩ := polled
    obtain ⟨hsound, happrovals, -, ⟨⟨err, rfl⟩, -⟩ | ⟨hnil, outcome, rfl, hstatus⟩ |
      ⟨wgIp, hostname, token, hholds, rfl⟩⟩ := hl.poll hcode harmed hpoll
    · exact ⟨hsound, joint_ended hd⟩
    · refine ⟨hsound, ?_⟩
      dsimp only
      rcases judged_of_not_approved left hstatus with ⟨err, hj⟩ | ⟨rest, hj⟩
      · rw [hj]
        exact joint_ended hd
      · rw [hj]
        exact ⟨fun hne => absurd (happrovals.trans hnil) hne, hd⟩
    · exact ⟨hsound, hholds, hd⟩
  | sleeping left => exact ⟨hl, h⟩
  | fetching wgIp hostname token =>
    obtain ⟨hholds, hd⟩ := h
    dsimp only [Phase.next]
    generalize hinfo : (httpEdge cp base).edgeInfo ch.edge l = fetched
    obtain ⟨answer, l'⟩ := fetched
    obtain ⟨rfl, -⟩ := edgeInfo_cases hroot hinfo
    refine ⟨hl, ?_⟩
    cases answer with
    | ok info => exact .inr ⟨⟨wgIp, hostname, token, info⟩, d, [], hholds, hd, rfl, rfl⟩
    | error err => exact joint_ended hd
  | saving ops o =>
    cases ops with
    | nil => cases hended
    | cons op ops =>
      dsimp only [Phase.next]
      have hsettled := h.settled hclosed
      split_ifs with hfails
      · exact ⟨hl, .inl ⟨rfl, ⟨_, rfl⟩, hsettled⟩⟩
      · refine ⟨hl, ?_⟩
        rcases h with ⟨hops, -⟩ | ⟨p, d₀, pre, hholds, hd₀, hsave, rfl⟩
        · cases hops
        · refine .inr ⟨p, d₀, pre ++ [op], hholds, hd₀, ?_, ?_⟩
          · rw [hsave, List.append_assoc, List.singleton_append]
          · rw [execAll_append]
            rfl

/-- **One step** of the joint system. -/
theorem joint_step (hcode : cp.canonicalInviteCode code = some c) (hroot : cp.rootDomain ≠ "")
    (hclosed : codec.Closed) {ev : Event Exchange Owner}
    (h : t.edge.Sound cp c key ∧ Joint codec cfg cp c key t.edge t.disk t.phase)
    (hok : Alone crates key (t.system codec cfg maxPolls code) ev)
    (hstep : t.step codec cfg crates (httpEdge cp base) (Owner.act cp code) maxPolls code ev = some t') :
    t'.edge.Sound cp c key ∧ Joint codec cfg cp c key t'.edge t'.disk t'.phase := by
  cases ev with
  | start =>
    simp only [Enrollment.step] at hstep
    split_ifs at hstep with hnot
    cases hstep
    exact ⟨h.1, Option.not_isSome_iff_eq_none.mp fun hsome => hnot (.inr hsome)⟩
  | advance ch =>
    simp only [Enrollment.step] at hstep
    cases hphase : t.phase with
    | none =>
      rw [hphase] at hstep
      cases hstep
    | some phase =>
      rw [hphase] at hstep h
      dsimp only at hstep
      split_ifs at hstep with hended
      cases hstep
      refine h.2.next hcode hroot hclosed (Bool.eq_false_iff.mpr hended) h.1 fun hstarting => ?_
      refine hok ?_
      rw [Enrollment.system, hphase, hstarting]
      rfl
  | crash =>
    cases hstep
    exact ⟨h.1, h.2.settled hclosed⟩
  | outside op =>
    cases hstep
    obtain ⟨hsound, harmed, hholds⟩ := h.1.act hcode hok
    exact ⟨hsound, h.2.act harmed hholds⟩

/-! ## An undisturbed enrollment -/

/-- Nothing fails. -/
def Undisturbed : Event Exchange Owner → Prop
  | .advance ch => ch.fails = false ∧ ch.edge.arrives = true
  | _ => True

instance : ∀ ev, Decidable (Undisturbed ev)
  | .advance ch => inferInstanceAs (Decidable (ch.fails = false ∧ ch.edge.arrives = true))
  | .start | .crash | .outside _ => isTrue trivial

/-- What the polls of an enrollment have seen, if nothing fails. -/
def Told (seen : List Ledger) : Option Phase → Prop
  | none => True
  | some .starting | some (.keyed _) => seen = []
  | some (.polling _) | some (.sleeping _) => ∀ l ∈ seen, l.approvals = []
  | some (.fetching _ _ _) => ∃ l ∈ seen, l.approvals ≠ []
  | some (.saving _ o) => (∃ err, o = .err err) ∧ (∀ l ∈ seen, l.approvals = []) ∨
      (∃ tunnel, o = .ok tunnel) ∧ ∃ l ∈ seen, l.approvals ≠ []

/-- An approved machine has a name and a token, so its payload is written without a panic. -/
theorem save_of_holds {p : Payload} (h : l.Holds cp c key p.wgIp p.hostname p.deviceToken) :
    (save codec cfg p).2 = .ok (tunnelOf cfg p.wgIp p.info) := by
  obtain ⟨m, -, happroved, -, hhostname⟩ := h
  rw [save, if_neg (hhostname ▸ happroved.hostname), if_neg happroved.isToken.ne_empty]

variable (crates base maxPolls) in
/-- **One command**, if nothing fails. -/
theorem Told.next (hcode : cp.canonicalInviteCode code = some c) (hroot : cp.rootDomain ≠ "")
    {phase : Phase} (hended : phase.isEnded = false) {ch : Choice Exchange} (hfails : ch.fails = false)
    (harrives : ch.edge.arrives = true) {seen : List Ledger} (hl : l.Sound cp c key)
    (hjoint : Joint codec cfg cp c key l d (some phase)) (h : Told seen (some phase)) :
    Told (seen ++ (phase.answer (httpEdge cp base) code ch l).toList.map fun _ => l)
      (some (phase.next codec cfg crates (httpEdge cp base) maxPolls code ch (d, l)).1) := by
  cases phase with
  | starting =>
    dsimp only [Phase.next, Phase.answer, Option.toList]
    rw [List.map_nil, List.append_nil, show seen = [] from h]
    cases (keypairOf crates ch d).1 with
    | ok pubkey => rfl
    | error err => exact .inl ⟨⟨_, rfl⟩, nofun⟩
  | keyed pubkey =>
    dsimp only [Phase.next, Phase.answer, Option.toList]
    rw [List.map_nil, List.append_nil, show seen = [] from h]
    cases ((httpEdge cp base).begin code pubkey ch.edge l).1 with
    | ok begun =>
      dsimp only
      split_ifs
      · exact .inl ⟨⟨_, rfl⟩, nofun⟩
      · exact nofun
    | error err => exact .inl ⟨⟨_, rfl⟩, nofun⟩
  | polling left =>
    dsimp only [Phase.next, Phase.answer, Option.toList]
    rw [List.map_cons, List.map_nil]
    generalize hpoll : (httpEdge cp base).poll code ch.edge l = polled
    obtain ⟨answer, l'⟩ := polled
    have hnone : l.approvals = [] → ∀ l' ∈ seen ++ [l], l'.approvals = [] := by
      intro hnil l' hmem
      rcases List.mem_append.mp hmem with hmem | hmem
      · exact h l' hmem
      · rw [List.mem_singleton.mp hmem]
        exact hnil
    obtain ⟨-, happrovals, -, ⟨⟨err, rfl⟩, hnil⟩ | ⟨hnil, outcome, rfl, hstatus⟩ |
      ⟨wgIp, hostname, token, ⟨m, hm, -⟩, rfl⟩⟩ := hl.poll hcode hjoint.1 hpoll
    · exact .inl ⟨⟨_, rfl⟩, hnone (hnil harrives)⟩
    · dsimp only
      rcases judged_of_not_approved left hstatus with ⟨err, hj⟩ | ⟨rest, hj⟩
      · rw [hj]
        exact .inl ⟨⟨_, rfl⟩, hnone hnil⟩
      · rw [hj]
        exact hnone hnil
    · refine ⟨l, List.mem_append_right _ (List.mem_singleton_self l), ?_⟩
      rw [← happrovals, hm]
      exact List.cons_ne_nil _ _
  | sleeping left =>
    dsimp only [Phase.next, Phase.answer, Option.toList]
    rw [List.map_nil, List.append_nil]
    exact h
  | fetching wgIp hostname token =>
    dsimp only [Phase.next, Phase.answer, Option.toList]
    rw [List.map_nil, List.append_nil]
    generalize hinfo : (httpEdge cp base).edgeInfo ch.edge l = fetched
    obtain ⟨answer, l'⟩ := fetched
    obtain ⟨-, hthere⟩ := edgeInfo_cases hroot hinfo
    obtain ⟨info, rfl⟩ := hthere harrives c key wgIp hostname token hjoint.1
    exact .inr ⟨⟨_, save_of_holds (p := ⟨wgIp, hostname, token, info⟩) hjoint.1⟩, h⟩
  | saving ops o =>
    cases ops with
    | nil => cases hended
    | cons op ops =>
      dsimp only [Phase.next, Phase.answer, Option.toList]
      rw [List.map_nil, List.append_nil, if_neg (by rw [hfails]; exact Bool.false_ne_true)]
      exact h

/-- The edge as each poll of an enrollment found it. -/
def Enrollment.seen (t : Enrollment Ledger) : List Ledger := t.polled.map (·.1)

/-- **One step**, if nothing fails. -/
theorem told_step (hcode : cp.canonicalInviteCode code = some c) (hroot : cp.rootDomain ≠ "")
    {ev : Event Exchange Owner} (hjoint : t.edge.Sound cp c key ∧ Joint codec cfg cp c key t.edge t.disk t.phase)
    (h : Told t.seen t.phase) (hok : Undisturbed ev)
    (hstep : t.step codec cfg crates (httpEdge cp base) (Owner.act cp code) maxPolls code ev = some t') :
    Told t'.seen t'.phase := by
  cases ev with
  | start =>
    simp only [Enrollment.step] at hstep
    split_ifs at hstep
    cases hstep
    rfl
  | advance ch =>
    simp only [Enrollment.step] at hstep
    cases hphase : t.phase with
    | none =>
      rw [hphase] at hstep
      cases hstep
    | some phase =>
      rw [hphase] at hstep hjoint h
      dsimp only at hstep
      split_ifs at hstep with hended
      cases hstep
      have := Told.next crates base maxPolls hcode hroot (Bool.eq_false_iff.mpr hended) hok.1 hok.2 hjoint.1
        hjoint.2 h
      simpa [Enrollment.seen, Function.comp_def] using this
  | crash =>
    cases hstep
    trivial
  | outside op =>
    cases hstep
    exact h

/-! ## Every run -/

/-- Two invariants of every run, and that nothing failed gives the third. -/
theorem joint_runs (hparse : parseInviteUrl cfg.inviteUrl = .ok (base, code))
    (hcode : cp.canonicalInviteCode code = some c) (hroot : cp.rootDomain ≠ "") (hclosed : codec.Closed)
    (hl : l.Sound cp c key) (hd : Unpersisted codec d) {evs : List (Event Exchange Owner)}
    (halone : Along (step codec cfg crates (httpEdge cp base) (Owner.act cp code) maxPolls) (Alone crates key)
      (.init d l) evs)
    (hruns : runs (step codec cfg crates (httpEdge cp base) (Owner.act cp code) maxPolls) (.init d l) evs =
      some s) :
    ∃ t : Enrollment Ledger, t.system codec cfg maxPolls code = s ∧
      Traced codec cfg maxPolls t.heard t.disk t.phase ∧ t.edge.Sound cp c key ∧
      Joint codec cfg cp c key t.edge t.disk t.phase ∧
      ((∀ ev ∈ evs, Undisturbed ev) → Told t.seen t.phase) := by
  obtain ⟨t, htrace, rfl⟩ := exists_enrollment hparse hruns
  have hinit : System.init d l = Enrollment.system codec cfg maxPolls code ⟨d, l, none, []⟩ := rfl
  rw [hinit, along_map (Enrollment.system codec cfg maxPolls code) fun t ev => step_system hparse] at halone
  have hstart : l.Sound cp c key ∧ Joint codec cfg cp c key l d none := ⟨hl, .inl hd⟩
  have hjoint := runs_invariant_along
    (fun t : Enrollment Ledger => t.edge.Sound cp c key ∧ Joint codec cfg cp c key t.edge t.disk t.phase)
    (fun t ev t' h hok hstep => joint_step hcode hroot hclosed h hok hstep) hstart halone htrace
  refine ⟨t, rfl, traced_runs hclosed hd htrace, hjoint.1, hjoint.2, fun hcalm => ?_⟩
  have hboth := runs_invariant_along
    (fun t : Enrollment Ledger => (t.edge.Sound cp c key ∧ Joint codec cfg cp c key t.edge t.disk t.phase) ∧
      Told t.seen t.phase)
    (fun t ev t' h hok hstep => ⟨joint_step hcode hroot hclosed h.1 hok.1 hstep,
      told_step hcode hroot h.1 h.2 hok.2 hstep⟩)
    (show (l.Sound cp c key ∧ Joint codec cfg cp c key l d none) ∧ Told [] none from ⟨hstart, trivial⟩) (halone.and (along_of_forall fun ev hev _ => hcalm ev hev)) htrace
  exact hboth.2

variable (codec cp key) in
/-- What holds of the machine of an invite, whatever fails. -/
structure Exclusive (s : System Ledger) : Prop where
  /-- The owner was told of one machine at most, and it has the key of the box. -/
  one : ∀ m ∈ s.edge.approvals, s.edge.approvals = [m] ∧ m.wgPublicKey = key
  /-- What a boot takes for the enrollment is what the edge assigned to this machine. -/
  persisted : (persistedTunnelState codec (s.disk.files .tunnelState)).isSome →
    ∃ m token tunnel, s.edge.approvals = [m] ∧ tunnel.ip = m.wgIp ∧
      s.disk.files .tunnelState = some (codec.toStringPretty ⟨tunnel, m.hostname⟩) ∧
      s.edge.world.machines m.name = some (.json (enrolledWith cp m token))
  /-- After a decision against the invite no machine has the key of the box, and none is persisted. -/
  decided : s.edge.decided = true → s.edge.approvals = [] ∧ KeyUnused key s.edge.world ∧
    Unpersisted codec s.disk

/-- **One machine for one invite**: wherever the box crashes, whichever requests, responses and writes are
lost, and whatever the owner tries in between. -/
theorem enrollment_exclusive (hparse : parseInviteUrl cfg.inviteUrl = .ok (base, code))
    (hcode : cp.canonicalInviteCode code = some c) (hroot : cp.rootDomain ≠ "") (hclosed : codec.Closed)
    (hl : l.Sound cp c key) (hd : Unpersisted codec d) {evs : List (Event Exchange Owner)}
    (halone : Along (step codec cfg crates (httpEdge cp base) (Owner.act cp code) maxPolls) (Alone crates key)
      (.init d l) evs)
    (hruns : runs (step codec cfg crates (httpEdge cp base) (Owner.act cp code) maxPolls) (.init d l) evs =
      some s) : Exclusive codec cp key s := by
  obtain ⟨t, rfl, -, hsound, hjoint, -⟩ := joint_runs hparse hcode hroot hclosed hl hd halone hruns
  have hsettled := hjoint.settled hclosed
  refine ⟨fun m hm => ?_, fun hsome => ?_, fun hdecided => ?_⟩
  · have hone := hsound.one
    revert hm
    show m ∈ t.edge.approvals → t.edge.approvals = [m] ∧ m.wgPublicKey = key
    generalize t.edge.approvals = approvals at hone
    intro hm
    rcases hone with _ | happroved
    · cases hm
    · obtain rfl := List.mem_singleton.mp hm
      exact ⟨rfl, happroved.key_eq⟩
  · rcases hsettled with hnone | ⟨p, ⟨m, happrovals, happroved, hip, hhostname⟩, hstate⟩
    · have hnone : persistedTunnelState codec
          ((t.system codec cfg maxPolls code).disk.files .tunnelState) = none := hnone
      rw [hnone] at hsome
      cases hsome
    · refine ⟨m, p.deviceToken, tunnelOf cfg p.wgIp p.info, happrovals, hip.symm, ?_, happroved.enrolled⟩
      rw [hhostname]
      exact hstate
  · obtain ⟨hnil, -⟩ := hsound.closed hdecided
    have hone := hsound.one
    rw [hnil] at hone
    refine ⟨hnil, ?_, ?_⟩
    · rcases hone with ⟨-, hfree, -⟩
      exact hfree
    · rcases hsettled with hnone | ⟨p, ⟨m, happrovals, -⟩, -⟩
      · exact hnone
      · cases hnil.symm.trans happrovals

theorem isWhitespace_digitChar : ∀ n < 16, ControlPlane.isWhitespace (Nat.digitChar n) = false := by
  decide

/-- A text that was written whole is read back. -/
theorem readToString_utf8 (text : String) : readToString (utf8 text) = some text := by
  show String.fromUTF8? text.toByteArray = some text
  rw [String.fromUTF8?, dif_pos text.isValidUTF8]
  rfl

/-- A device token that was written whole is read back. -/
theorem persistedDeviceToken_utf8 {token : String} (h : ControlPlane.IsToken token) :
    persistedDeviceToken (some (utf8 token)) = some token := by
  have hne := h.ne_empty
  obtain ⟨bytes, -, rfl⟩ := h
  have hchars : ∀ ch ∈ (ControlPlane.hexEncode bytes).toList, ControlPlane.isWhitespace ch = false := by
    intro ch hch
    simp only [ControlPlane.hexEncode, String.toList_ofList, List.mem_flatMap] at hch
    obtain ⟨b, -, hch⟩ := hch
    have hb := b.toNat_lt
    rcases List.mem_cons.mp hch with rfl | hch
    · exact isWhitespace_digitChar _ (by omega)
    · rw [List.mem_singleton.mp hch]
      exact isWhitespace_digitChar _ (by omega)
  generalize ControlPlane.hexEncode bytes = token at hne hchars
  have hdrop : ∀ chars : List Char, (∀ ch ∈ chars, ControlPlane.isWhitespace ch = false) →
      chars.dropWhile ControlPlane.isWhitespace = chars := by
    intro chars hall
    cases chars with
    | nil => rfl
    | cons ch chars => exact List.dropWhile_cons_of_neg (by rw [hall ch List.mem_cons_self]; simp)
  have htrim : ControlPlane.trim token = token := by
    rw [ControlPlane.trim, hdrop _ hchars, hdrop _ fun ch hch => hchars ch (List.mem_reverse.mp hch),
      List.reverse_reverse, String.ofList_toList]
  simp [persistedDeviceToken, readToString_utf8, htrim, hne]

variable (codec cp key maxPolls) in
/-- What an undisturbed enrollment comes to. -/
structure Enrolled (s : System Ledger) : Prop where
  polls : s.polled.length ≤ maxPolls + 1
  /-- It succeeds exactly if the owner had approved before one of its polls. -/
  ok_iff : ∀ o, s.box = some (.done o) → ((∃ tunnel, o = .ok tunnel) ↔ ∃ e ∈ s.polled, e.1.approvals ≠ [])
  /-- It persists what the one approved machine was assigned, and a token that rotates this machine. -/
  persisted : ∀ tunnel, s.box = some (.done (.ok tunnel)) → ∃ m token, s.edge.approvals = [m] ∧
    m.wgPublicKey = key ∧ tunnel.ip = m.wgIp ∧
    s.disk.files .tunnelState = some (codec.toStringPretty ⟨tunnel, m.hostname⟩) ∧
    persistedDeviceToken (s.disk.files .deviceToken) = some token ∧
    s.edge.world.machines m.name = some (.json (enrolledWith cp m token)) ∧
    (HashApart (enrolledWith cp m token) s.edge.world →
      RotatesOnly cp token (enrolledWith cp m token) s.edge.world)
  /-- After a decision against the invite there is no machine, and no enrollment succeeds. -/
  decided : s.edge.decided = true → s.edge.approvals = [] ∧ KeyUnused key s.edge.world ∧
    ∀ o, s.box = some (.done o) → ∃ err, o = .err err

/-- How an enrollment that has ended was told. -/
theorem told_ended {ops : List FileOp} {seen : List Ledger} {o : Outcome EnrollError TunnelConfig}
    (h : Told seen (some (.saving ops o))) :
    ((∃ tunnel, o = .ok tunnel) ↔ ∃ l ∈ seen, l.approvals ≠ []) ∧
      ((∃ err, o = .err err) ∨ ∃ tunnel, o = .ok tunnel) := by
  rcases h with ⟨⟨err, rfl⟩, hnone⟩ | ⟨⟨tunnel, rfl⟩, hsome⟩
  · refine ⟨⟨?_, fun ⟨l, hl, hne⟩ => absurd (hnone l hl) hne⟩, .inl ⟨err, rfl⟩⟩
    rintro ⟨tunnel, htunnel⟩
    cases htunnel
  · exact ⟨⟨fun _ => hsome, fun _ => ⟨tunnel, rfl⟩⟩, .inr ⟨tunnel, rfl⟩⟩

/-- An enrollment that has returned. -/
theorem Joint.returned {tunnel : TunnelConfig} (h : Joint codec cfg cp c key l d (some (.ended (.ok tunnel)))) :
    ∃ m token, l.approvals = [m] ∧ ControlPlane.Approved cp c key l.world m token ∧ tunnel.ip = m.wgIp ∧
      d.files .tunnelState = some (codec.toStringPretty ⟨tunnel, m.hostname⟩) ∧
      persistedDeviceToken (d.files .deviceToken) = some token := by
  rcases h with ⟨-, ⟨err, herr⟩, -⟩ | ⟨p, d₀, pre, ⟨m, happrovals, happroved, hip, hhostname⟩, -, hsave, hd⟩
  · cases herr
  · rw [List.append_nil] at hsave
    obtain ⟨htunnel, -, hstate, htoken⟩ := saved d₀ hsave
    rw [← hd] at hstate htoken
    refine ⟨m, p.deviceToken, happrovals, happroved, by rw [htunnel, hip]; rfl, ?_, ?_⟩
    · rw [show d.files .tunnelState = _ from hstate, Payload.persisted, ← htunnel, ← hhostname]
    · rw [show d.files .deviceToken = _ from htoken]
      exact persistedDeviceToken_utf8 happroved.isToken

/-- **Enrollment, end to end**, if nothing fails: in every interleaving of the box, which may crash and be
started again anywhere, with the owner's attempts to approve, to deny and to revoke.  And an enrollment that
goes on ends. -/
theorem enrollment_end_to_end (hparse : parseInviteUrl cfg.inviteUrl = .ok (base, code))
    (hcode : cp.canonicalInviteCode code = some c) (hroot : cp.rootDomain ≠ "") (hclosed : codec.Closed)
    (hl : l.Sound cp c key) (hd : Unpersisted codec d) {evs : List (Event Exchange Owner)}
    (halone : Along (step codec cfg crates (httpEdge cp base) (Owner.act cp code) maxPolls) (Alone crates key)
      (.init d l) evs)
    (hcalm : ∀ ev ∈ evs, Undisturbed ev)
    (hruns : runs (step codec cfg crates (httpEdge cp base) (Owner.act cp code) maxPolls) (.init d l) evs =
      some s) :
    Enrolled codec cp key maxPolls s ∧ (s.box.isSome → ∀ rounds : ℕ → List Owner × Choice Exchange, ∃ n s' o,
      runs (step codec cfg crates (httpEdge cp base) (Owner.act cp code) maxPolls) s (interleaved rounds n) =
        some s' ∧ s'.box = some (.done o)) := by
  refine ⟨?_, fun hsome rounds => ?_⟩
  swap
  · obtain ⟨p, hp⟩ := Option.isSome_iff_exists.mp hsome
    exact enroll_ends hp rounds
  obtain ⟨t, rfl, htraced, hsound, hjoint, htold⟩ := joint_runs hparse hcode hroot hclosed hl hd halone hruns
  have htold := htold hcalm
  have hended : ∀ o, (t.system codec cfg maxPolls code).box = some (.done o) → t.phase = some (.ended o) := by
    intro o hbox
    obtain ⟨phase, hphase, hprog⟩ := Option.map_eq_some_iff.mp hbox
    rw [hphase, prog_eq_done hprog]
  have hseen : (∃ l ∈ t.seen, l.approvals ≠ []) ↔ ∃ e ∈ t.polled, e.1.approvals ≠ [] := by
    simp [Enrollment.seen]
  refine ⟨?_, fun o hbox => ?_, fun tunnel hbox => ?_, fun hdecided => ?_⟩
  · have := (htraced.rests hclosed).1.budget
    rwa [Enrollment.heard, List.length_map] at this
  · rw [hended o hbox] at htold
    exact (told_ended htold).1.trans hseen
  · rw [hended _ hbox] at hjoint
    obtain ⟨m, token, happrovals, happroved, hip, hstate, htoken⟩ := hjoint.returned
    exact ⟨m, token, happrovals, happroved.key_eq, hip, hstate, htoken, happroved.enrolled, happroved.rotates⟩
  · obtain ⟨hnil, -⟩ := hsound.closed hdecided
    refine ⟨hnil, ?_, fun o hbox => ?_⟩
    · have hone := hsound.one
      rw [hnil] at hone
      cases hone with
      | undecided _ free _ => exact free
    · rw [hended o hbox] at htold hjoint
      rcases (told_ended htold).2 with herr | ⟨tunnel, rfl⟩
      · exact herr
      · obtain ⟨m, -, happrovals, -⟩ := hjoint.returned
        cases hnil.symm.trans happrovals

/-! ## A kitchen is enrolled -/

/-- The edge of the tests, with the base64 of the box. -/
def sampleEdge : ControlPlane := { ControlPlane.sample with b64Decode := Keypair.sampleCrates.b64Decode }

abbrev sampleInvite : String := "polluted-move-cheetah-apple"

/-- The public key of the sample secret. -/
def samplePubkey : String := (Keypair.generateKeypair Keypair.sampleCrates Keypair.sampleSecret).1

/-- An account has created an invite. -/
def invitedLedger : Ledger where
  world := { ControlPlane.waitingWorld with
    invites := Function.update (fun _ => none) sampleInvite
      (some (.json ⟨"owner@example.net", .dormant, none⟩)) }
  approvals := []
  decided := false

theorem invitedLedger_sound : invitedLedger.Sound sampleEdge sampleInvite samplePubkey where
  one := by
    refine .undecided ⟨nofun, nofun⟩ nofun fun r hr => ?_
    have hinvite : invitedLedger.world.invites sampleInvite =
        some (.json ⟨"owner@example.net", .dormant, none⟩) := by
      simp [invitedLedger]
    cases hinvite.symm.trans hr
    exact ⟨nofun, nofun⟩
  closed := nofun

/-- A choice in which nothing fails. -/
def calm : Choice Exchange := ⟨false, "", Keypair.sampleSecret, ⟨false, false, "", []⟩⟩

/-- The box waits once, is approved, and persists. -/
def kitchenRun : List (Event Exchange Owner) :=
  [.start, .advance calm, .advance calm, .advance calm, .advance calm,
    .outside (.approve "owner@example.net" "kitchen" [])] ++ List.replicate 70 (.advance calm)

/-- A box is enrolled with its second poll. -/
theorem enrollment_end_to_end_kitchen : ∃ s : System Ledger,
    s.polled.length = 2 ∧ s.edge.approvals.map (·.name) = ["kitchen"] ∧
    Enrolled Claims.sampleCodec sampleEdge samplePubkey 10 s := by
  have hend : (runs (step Claims.sampleCodec sampleConfig Keypair.sampleCrates
      (httpEdge sampleEdge "https://example.net") (Owner.act sampleEdge sampleInvite) 10)
      (.init ⟨none, fun _ => none⟩ invitedLedger) kitchenRun).map
        (fun s => (s.polled.length, s.edge.approvals.map (·.name))) = some (2, ["kitchen"]) := by
    decide +kernel
  have halone : Along (step Claims.sampleCodec sampleConfig Keypair.sampleCrates
      (httpEdge sampleEdge "https://example.net") (Owner.act sampleEdge sampleInvite) 10)
      (Alone Keypair.sampleCrates samplePubkey) (.init ⟨none, fun _ => none⟩ invitedLedger) kitchenRun := by
    decide +kernel
  have hcode : sampleEdge.canonicalInviteCode sampleInvite = some sampleInvite := by decide +kernel
  obtain ⟨s, hruns, hs⟩ := Option.map_eq_some_iff.mp hend
  obtain ⟨hlength, hnames⟩ := Prod.mk.inj hs
  exact ⟨s, hlength, hnames, (enrollment_end_to_end sampleConfig_parses hcode (by decide) Claims.sampleCodec_closed
    invitedLedger_sound (show Unpersisted Claims.sampleCodec ⟨none, fun _ => none⟩ from rfl) halone (by decide)
    hruns).1⟩

/-- The box crashes after it has collected its payload and before it has asked for the tunnel facts. -/
theorem enrollment_exclusive_crashed : ∃ s : System Ledger,
    s.edge.approvals.map (·.name) = ["kitchen"] ∧ s.box = none ∧
    Exclusive Claims.sampleCodec sampleEdge samplePubkey s := by
  have hend : (runs (step Claims.sampleCodec sampleConfig Keypair.sampleCrates
      (httpEdge sampleEdge "https://example.net") (Owner.act sampleEdge sampleInvite) 10)
      (.init ⟨none, fun _ => none⟩ invitedLedger) (kitchenRun.take 9 ++ [.crash])).map
        (fun s => (s.edge.approvals.map (·.name), s.box.isNone)) = some (["kitchen"], true) := by
    decide +kernel
  have halone : Along (step Claims.sampleCodec sampleConfig Keypair.sampleCrates
      (httpEdge sampleEdge "https://example.net") (Owner.act sampleEdge sampleInvite) 10)
      (Alone Keypair.sampleCrates samplePubkey) (.init ⟨none, fun _ => none⟩ invitedLedger)
      (kitchenRun.take 9 ++ [.crash]) := by
    decide +kernel
  have hcode : sampleEdge.canonicalInviteCode sampleInvite = some sampleInvite := by decide +kernel
  obtain ⟨s, hruns, hs⟩ := Option.map_eq_some_iff.mp hend
  obtain ⟨hnames, hbox⟩ := Prod.mk.inj hs
  exact ⟨s, hnames, Option.isNone_iff_eq_none.mp hbox, enrollment_exclusive sampleConfig_parses hcode (by decide)
    Claims.sampleCodec_closed invitedLedger_sound
    (show Unpersisted Claims.sampleCodec ⟨none, fun _ => none⟩ from rfl) halone hruns⟩

end Enroll
end Client
end Cococoir
