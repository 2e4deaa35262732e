import Cococoir.Client.Enrollment

/-!
# Restarts

A boot takes a state file that it can read for an enrollment, and does not enroll again.  The state file is
written first, so a box that crashes, or whose disk fails, before the device token is written as well has no
token for good: `stranded`.

* `Exposed`: the box is between the two files.
* `restart_safe`: a box that is never broken off there has both files or none, and where it has none, a
  restart completes the enrollment.

## Why the order of the files matters

A box boots in one of two ways, and it asks the state file which.  If the file can be read, the
box takes itself for enrolled and never dials the edge again; so whatever was to be written after
it, and was not, is never written.  The device token is.  `Exposed` is the stretch of an
enrollment in which a crash does this harm: the state file is whole and the token is not.

A box that is not broken off there is safe.  Before the stretch a boot finds no state file, begins
again and is given a new payload, because the edge re-arms for a machine that it has approved;
that this comes to an end is `restart_completes`, a run in which nothing fails any more.  After
the stretch both files are there.  `Restartable` puts the two together, of every run and every
moment at which the box rests.
-/

namespace Cococoir
namespace Client
namespace Enroll

open Box (PollOutcome)
open Claims (Codec TunnelConfig persistedTunnelState)
open Concurrency
open ControlPlane (enrolledWith)

variable {codec : Codec} {cfg : InviteConfig} {crates : Keypair.Crates} {cp : ControlPlane}
  {base code c key : String} {maxPolls : ℕ} {d : Disk} {l : Ledger} {t t' : Enrollment Ledger}
  {s : System Ledger}

/-! ## Between the two files -/

variable (codec) in
/-- The enrollment is not over, and a boot would take the state file for one that is. -/
def Exposed (s : System Ledger) : Prop :=
  running s.box = true ∧ (persistedTunnelState codec (s.disk.files .tunnelState)).isSome

variable (codec) in
/-- The enrollment is not broken off between the two files: the box does not crash there, and its disk does
not fail. -/
def Careful (s : System Ledger) : Event Exchange Owner → Prop
  | .crash => ¬Exposed codec s
  | .advance ch => ch.fails = true → ¬Exposed codec s
  | _ => True

instance (codec : Codec) (s : System Ledger) : ∀ ev, Decidable (Careful codec s ev)
  | .crash => inferInstanceAs (Decidable ¬(_ ∧ _))
  | .advance ch => inferInstanceAs (Decidable (ch.fails = true → ¬(_ ∧ _)))
  | .start | .outside _ => isTrue trivial

variable (codec cfg cp c key) in
/-- There is no state file that can be read, or both files are whole, with the payload of the approved
machine. -/
def Whole (l : Ledger) (d : Disk) : Prop :=
  Unpersisted codec d ∨ ∃ p : Payload, l.Holds cp c key p.wgIp p.hostname p.deviceToken ∧
    p.StateOn codec cfg d ∧ p.TokenOn d

/-- An enrollment that has returned has written both files. -/
theorem Joint.whole {tunnel : TunnelConfig} (h : Joint codec cfg cp c key l d (some (.ended (.ok tunnel)))) :
    Whole codec cfg cp c key l d := by
  rcases h with ⟨-, ⟨err, herr⟩, -⟩ | ⟨p, d₀, pre, hholds, -, hsave, hd⟩
  · cases herr
  · rw [List.append_nil] at hsave
    obtain ⟨-, -, hstate, htoken⟩ := saved d₀ hsave
    rw [← hd] at hstate htoken
    exact .inr ⟨p, hholds, hstate, htoken⟩

/-- **One command** ends an enrollment with both files, or before a boot could take the first for one. -/
theorem Joint.next_whole {phase : Phase} (hended : phase.isEnded = false) {ch : Choice Exchange}
    (h : Joint codec cfg cp c key l d (some phase))
    (hfails : ch.fails = true → Unpersisted codec d)
    (hnext : (phase.next codec cfg crates (httpEdge cp base) maxPolls code ch (d, l)).1.isEnded = true)
    (hjoint : Joint codec cfg cp c key (phase.next codec cfg crates (httpEdge cp base) maxPolls code ch (d, l)).2.2
      (phase.next codec cfg crates (httpEdge cp base) maxPolls code ch (d, l)).2.1
      (some (phase.next codec cfg crates (httpEdge cp base) maxPolls code ch (d, l)).1)) :
    Whole codec cfg cp c key (phase.next codec cfg crates (httpEdge cp base) maxPolls code ch (d, l)).2.2
      (phase.next codec cfg crates (httpEdge cp base) maxPolls code ch (d, l)).2.1 := by
  cases phase with
  | starting =>
    refine .inl ?_
    show Unpersisted codec (keypairOf crates ch d).2
    rw [Unpersisted, keypairOf_files]
    exact h
  | keyed pubkey => exact .inl h.2
  | polling left => exact .inl h.2
  | sleeping left => exact .inl h.2
  | fetching wgIp hostname token => exact .inl h.2
  | saving ops o =>
    cases ops with
    | nil => cases hended
    | cons op ops =>
      dsimp only [Phase.next] at hnext hjoint ⊢
      split_ifs at hnext hjoint ⊢ with hf
      · exact .inl (hfails hf)
      · cases ops with
        | cons op' ops => cases hnext
        | nil =>
          rcases h with ⟨hops, -⟩ | ⟨p, d₀, pre, hholds, -, hsave, -⟩
          · cases hops
          · obtain rfl : o = .ok (tunnelOf cfg p.wgIp p.info) := by
              have hok : (save codec cfg p).2 = .ok (tunnelOf cfg p.wgIp p.info) := save_of_holds hholds
              rwa [hsave] at hok
            exact hjoint.whole

/-- **One step** of a box that is careful. -/
theorem whole_step (hcode : cp.canonicalInviteCode code = some c) (hroot : cp.rootDomain ≠ "")
    (hclosed : codec.Closed) {ev : Event Exchange Owner}
    (hjoint : t.edge.Sound cp c key ∧ Joint codec cfg cp c key t.edge t.disk t.phase)
    (h : t.running = false → Whole codec cfg cp c key t.edge t.disk)
    (halone : Alone crates key (t.system codec cfg maxPolls code) ev)
    (hcareful : Careful codec (t.system codec cfg maxPolls code) ev)
    (hstep : t.step codec cfg crates (httpEdge cp base) (Owner.act cp code) maxPolls code ev = some t') :
    t'.running = false → Whole codec cfg cp c key t'.edge t'.disk := by
  have hjoint' := joint_step hcode hroot hclosed hjoint halone hstep
  have hunpersisted : t.running = true → ¬Exposed codec (t.system codec cfg maxPolls code) →
      Unpersisted codec t.disk := by
    intro hrunning hnot
    refine Option.not_isSome_iff_eq_none.mp fun hsome => hnot ⟨?_, hsome⟩
    rw [running_system, hrunning]
  cases ev with
  | start =>
    simp only [Enrollment.step] at hstep
    split_ifs at hstep
    cases hstep
    rintro ⟨⟩
  | advance ch =>
    intro hrest
    simp only [Enrollment.step] at hstep
    cases hphase : t.phase with
    | none =>
      rw [hphase] at hstep
      cases hstep
    | some phase =>
      rw [hphase] at hstep hjoint
      dsimp only at hstep
      split_ifs at hstep with hended
      cases hstep
      have hrunning : t.running = true := by
        rw [Enrollment.running, hphase, Option.any_some, Bool.eq_false_iff.mpr hended]
        rfl
      refine hjoint.2.next_whole (Bool.eq_false_iff.mpr hended)
        (fun hfails => hunpersisted hrunning (hcareful hfails)) ?_ hjoint'.2
      simpa [Enrollment.running] using hrest
  | crash =>
    cases hstep
    rintro -
    cases hrunning : t.running with
    | true => exact .inl (hunpersisted hrunning hcareful)
    | false => exact h hrunning
  | outside op =>
    cases hstep
    obtain ⟨-, -, hholds⟩ := hjoint.1.act hcode halone
    intro hrest
    refine (h hrest).imp_right ?_
    rintro ⟨p, hp, hfiles⟩
    exact ⟨p, hholds _ _ _ hp, hfiles⟩

/-! ## A restart -/

variable (crates key) in
/-- The box has the key already, and it can be read. -/
def HasKey (d : Disk) : Prop := ∀ secret, Keypair.ensureKeypair crates secret d.key = (.ok key, d.key)

variable (crates key) in
/-- An enrollment of an approved machine goes ahead. -/
def Ahead (t : Enrollment Ledger) : Prop :=
  t.edge.approvals ≠ [] ∧ HasKey crates key t.disk ∧ match t.phase with
    | none => False
    | some (.saving _ o) => ∃ tunnel, o = .ok tunnel
    | some _ => True

/-- What happens while it does: nothing fails, and the owner may go on to try things. -/
def Going : Event Exchange Owner → Prop
  | .advance ch => ch.fails = false ∧ ch.edge.arrives = true
  | .outside _ => True
  | _ => False

theorem key_exec (op : FileOp) : (op.exec d).key = d.key := by
  cases op <;> rfl

theorem HasKey.keypairOf (h : HasKey crates key d) {ch : Choice Exchange} (hfails : ch.fails = false) :
    (keypairOf crates ch d).1 = .ok key ∧ HasKey crates key (keypairOf crates ch d).2 := by
  unfold Enroll.keypairOf
  rw [if_neg (by rw [hfails]; exact Bool.false_ne_true), h ch.secret]
  exact ⟨rfl, h⟩

/-- **One command** of an approved machine's enrollment leads on. -/
theorem Ahead.next (hcode : cp.canonicalInviteCode code = some c) (hroot : cp.rootDomain ≠ "")
    {phase : Phase} (hended : phase.isEnded = false) {ch : Choice Exchange} (hfails : ch.fails = false)
    (harrives : ch.edge.arrives = true) (hl : l.Sound cp c key)
    (hjoint : Joint codec cfg cp c key l d (some phase)) {polled : List (Ledger × Except EnrollError PollOutcome)}
    (h : Ahead crates key ⟨d, l, some phase, polled⟩)
    {polled' : List (Ledger × Except EnrollError PollOutcome)} :
    Ahead crates key ⟨(phase.next codec cfg crates (httpEdge cp base) maxPolls code ch (d, l)).2.1,
      (phase.next codec cfg crates (httpEdge cp base) maxPolls code ch (d, l)).2.2,
      some (phase.next codec cfg crates (httpEdge cp base) maxPolls code ch (d, l)).1, polled'⟩ := by
  obtain ⟨hne, hkey, hphase⟩ := h
  cases phase with
  | starting =>
    obtain ⟨hfound, hkey'⟩ := hkey.keypairOf hfails
    dsimp only [Phase.next]
    rw [hfound]
    exact ⟨hne, hkey', trivial⟩
  | keyed pubkey =>
    obtain ⟨rfl, -⟩ := hjoint
    dsimp only [Phase.next]
    generalize hbegin : (httpEdge cp base).begin code pubkey ch.edge l = begun
    obtain ⟨answer, l'⟩ := begun
    obtain ⟨-, happrovals, -, ⟨-, hnil⟩ | ⟨⟨begun, rfl, hstatus⟩, -⟩⟩ := hl.begin hcode hbegin
    · exact absurd (hnil harrives) hne
    · refine ⟨happrovals ▸ hne, hkey, ?_⟩
      dsimp only
      rw [if_neg hstatus]
      trivial
  | polling left =>
    dsimp only [Phase.next]
    generalize hpoll : (httpEdge cp base).poll code ch.edge l = polled
    obtain ⟨answer, l'⟩ := polled
    obtain ⟨-, happrovals, -, ⟨-, hnil⟩ | ⟨hnil, -⟩ | ⟨wgIp, hostname, token, -, rfl⟩⟩ :=
      hl.poll hcode hjoint.1 hpoll
    · exact absurd (hnil harrives) hne
    · exact absurd hnil hne
    · exact ⟨happrovals ▸ hne, hkey, trivial⟩
  | sleeping left => exact ⟨hne, hkey, trivial⟩
  | fetching wgIp hostname token =>
    dsimp only [Phase.next]
    generalize hinfo : (httpEdge cp base).edgeInfo ch.edge l = fetched
    obtain ⟨answer, l'⟩ := fetched
    obtain ⟨rfl, hthere⟩ := edgeInfo_cases hroot hinfo
    obtain ⟨info, rfl⟩ := hthere harrives c key wgIp hostname token hjoint.1
    exact ⟨hne, hkey, _, save_of_holds (p := ⟨wgIp, hostname, token, info⟩) hjoint.1⟩
  | saving ops o =>
    cases ops with
    | nil => cases hended
    | cons op ops =>
      dsimp only [Phase.next]
      rw [if_neg (by rw [hfails]; exact Bool.false_ne_true)]
      refine ⟨hne, fun secret => ?_, hphase⟩
      rw [key_exec]
      exact hkey secret

/-- **One step** of an enrollment that goes ahead. -/
theorem ahead_step (hcode : cp.canonicalInviteCode code = some c) (hroot : cp.rootDomain ≠ "")
    (hclosed : codec.Closed) {ev : Event Exchange Owner}
    (h : (t.edge.Sound cp c key ∧ Joint codec cfg cp c key t.edge t.disk t.phase) ∧ Ahead crates key t)
    (hok : Going ev)
    (hstep : t.step codec cfg crates (httpEdge cp base) (Owner.act cp code) maxPolls code ev = some t') :
    (t'.edge.Sound cp c key ∧ Joint codec cfg cp c key t'.edge t'.disk t'.phase) ∧ Ahead crates key t' := by
  obtain ⟨hjoint, hne, hkey, hphase⟩ := h
  have halone : Alone crates key (t.system codec cfg maxPolls code) ev := by
    cases ev with
    | advance ch =>
      rintro - pubkey hpubkey
      have hpubkey : pubkey ∈ (keypairOf crates ch t.disk).1.toOption := hpubkey
      rw [(hkey.keypairOf hok.1).1] at hpubkey
      exact (Option.some.inj hpubkey).symm
    | outside op =>
      cases op with
      | approve email name choices => exact .inr hne
      | _ => trivial
    | _ => trivial
  refine ⟨joint_step hcode hroot hclosed hjoint halone hstep, ?_⟩
  cases ev with
  | start => cases hok
  | crash => cases hok
  | advance ch =>
    obtain ⟨disk, edge, phase, polled⟩ := t
    cases phase with
    | none => cases hstep
    | some phase =>
      simp only [Enrollment.step] at hstep
      split_ifs at hstep with hended
      cases hstep
      exact Ahead.next hcode hroot (Bool.eq_false_iff.mpr hended) hok.1 hok.2 hjoint.1 hjoint.2
        ⟨hne, hkey, hphase⟩
  | outside op =>
    cases hstep
    obtain ⟨-, -, hholds⟩ := hjoint.1.act hcode halone
    refine ⟨fun hnil => ?_, hkey, hphase⟩
    cases op with
    | approve email name choices => exact hne (List.append_eq_nil_iff.mp hnil).1
    | deny email choices => exact hne hnil
    | revoke email choices => exact hne hnil

theorem going_interleaved {rounds : ℕ → List Owner × Choice Exchange}
    (hrounds : ∀ i, (rounds i).2.fails = false ∧ (rounds i).2.edge.arrives = true) (n : ℕ) :
    ∀ ev ∈ interleaved rounds n, Going ev := by
  induction n generalizing rounds with
  | zero => nofun
  | succ n ih =>
    intro ev hev
    rcases List.mem_append.mp hev with hev | hev
    · obtain ⟨op, -, rfl⟩ := List.mem_map.mp hev
      trivial
    · rcases List.mem_cons.mp hev with rfl | hev
      · exact hrounds 0
      · exact ih (fun i => hrounds (i + 1)) ev hev

variable (codec cp key) in
/-- Both files are there, with the payload of the approved machine. -/
def BothFiles (s : System Ledger) : Prop :=
  ∃ m token tunnel, s.edge.approvals = [m] ∧ m.wgPublicKey = key ∧ tunnel.ip = m.wgIp ∧
    s.disk.files .tunnelState = some (codec.toStringPretty ⟨tunnel, m.hostname⟩) ∧
    persistedDeviceToken (s.disk.files .deviceToken) = some token ∧
    s.edge.world.machines m.name = some (.json (enrolledWith cp m token))

/-- **A restart** of a box without a state file, after the owner has approved: it completes the enrollment,
whatever the owner goes on to try. -/
theorem restart_completes (hparse : parseInviteUrl cfg.inviteUrl = .ok (base, code))
    (hcode : cp.canonicalInviteCode code = some c) (hroot : cp.rootDomain ≠ "") (hclosed : codec.Closed)
    (hl : s.edge.Sound cp c key) (happroved : s.edge.approvals ≠ []) (hd : Unpersisted codec s.disk)
    (hkey : HasKey crates key s.disk) (hrest : running s.box = false)
    {rounds : ℕ → List Owner × Choice Exchange}
    (hrounds : ∀ i, (rounds i).2.fails = false ∧ (rounds i).2.edge.arrives = true) :
    ∃ n s' tunnel, runs (step codec cfg crates (httpEdge cp base) (Owner.act cp code) maxPolls) s
        (.start :: interleaved rounds n) = some s' ∧
      s'.box = some (.done (.ok tunnel)) ∧ BothFiles codec cp key s' := by
  have hstart : step codec cfg crates (httpEdge cp base) (Owner.act cp code) maxPolls s .start =
      some (Enrollment.system codec cfg maxPolls code ⟨s.disk, s.edge, some .starting, []⟩) := by
    rw [step, if_neg, enroll_eq hparse]
    · rfl
    · rintro (hrunning | hsome)
      · exact absurd (hrest.symm.trans hrunning) Bool.false_ne_true
      · rw [show persistedTunnelState codec (s.disk.files .tunnelState) = none from hd] at hsome
        cases hsome
  obtain ⟨n, s', o, hruns, hdone⟩ : ∃ n s' o,
      runs (step codec cfg crates (httpEdge cp base) (Owner.act cp code) maxPolls)
        (Enrollment.system codec cfg maxPolls code ⟨s.disk, s.edge, some .starting, []⟩) (interleaved rounds n) =
          some s' ∧ s'.box = some (.done o) := enroll_ends rfl rounds
  have hmap := hruns
  rw [runs_map (Enrollment.system codec cfg maxPolls code) fun t ev => step_system hparse] at hmap
  obtain ⟨t, htrace, rfl⟩ := Option.map_eq_some_iff.mp hmap
  obtain ⟨⟨hsound, hjoint⟩, -, -, hahead⟩ := runs_invariant_along
    (fun t : Enrollment Ledger => (t.edge.Sound cp c key ∧ Joint codec cfg cp c key t.edge t.disk t.phase) ∧
      Ahead crates key t)
    (fun t ev t' h hok hstep => ahead_step hcode hroot hclosed h hok hstep)
    (show (s.edge.Sound cp c key ∧ Joint codec cfg cp c key s.edge s.disk (some .starting)) ∧
      Ahead crates key ⟨s.disk, s.edge, some .starting, []⟩ from ⟨⟨hl, hd⟩, happroved, hkey, trivial⟩)
    (along_of_forall fun ev hev _ => going_interleaved hrounds n ev hev) htrace
  obtain ⟨phase, hphase, hprog⟩ := Option.map_eq_some_iff.mp hdone
  rw [hphase, prog_eq_done hprog] at hjoint hahead
  obtain ⟨tunnel, rfl⟩ := hahead
  obtain ⟨m, token, happrovals, happroved, hip, hstate, htoken⟩ := hjoint.returned
  exact ⟨n, _, tunnel, runs_cons.mpr ⟨_, hstart, hruns⟩, hdone,
    m, token, tunnel, happrovals, happroved.key_eq, hip, hstate, htoken, happroved.enrolled⟩

/-! ## Every run -/

variable (codec cfg crates cp base code key maxPolls) in
/-- What can be relied on of a box that rests, because its enrollment ended or was broken off. -/
structure Restartable (s : System Ledger) : Prop where
  /-- If a boot takes the state file for an enrollment, both files are there. -/
  both : ∀ q, persistedTunnelState codec (s.disk.files .tunnelState) = some q → BothFiles codec cp key s
  /-- Otherwise a restart completes the enrollment of an approved machine. -/
  completes : persistedTunnelState codec (s.disk.files .tunnelState) = none → s.edge.approvals ≠ [] →
    HasKey crates key s.disk → ∀ rounds : ℕ → List Owner × Choice Exchange,
      (∀ i, (rounds i).2.fails = false ∧ (rounds i).2.edge.arrives = true) →
      ∃ n s' tunnel, runs (step codec cfg crates (httpEdge cp base) (Owner.act cp code) maxPolls) s
          (.start :: interleaved rounds n) = some s' ∧
        s'.box = some (.done (.ok tunnel)) ∧ BothFiles codec cp key s'

/-- **A careful box can always be restarted**: wherever else it crashes, whatever else fails and whatever the
owner does. -/
theorem restart_safe (hparse : parseInviteUrl cfg.inviteUrl = .ok (base, code))
    (hcode : cp.canonicalInviteCode code = some c) (hroot : cp.rootDomain ≠ "") (hclosed : codec.Closed)
    (hl : l.Sound cp c key) (hd : Unpersisted codec d) {evs : List (Event Exchange Owner)}
    (halone : Along (step codec cfg crates (httpEdge cp base) (Owner.act cp code) maxPolls) (Alone crates key)
      (.init d l) evs)
    (hcareful : Along (step codec cfg crates (httpEdge cp base) (Owner.act cp code) maxPolls) (Careful codec)
      (.init d l) evs)
    (hruns : runs (step codec cfg crates (httpEdge cp base) (Owner.act cp code) maxPolls) (.init d l) evs =
      some s) (hrest : running s.box = false) :
    Restartable codec cfg crates cp base code key maxPolls s := by
  obtain ⟨t, htrace, rfl⟩ := exists_enrollment hparse hruns
  have hinit : System.init d l = Enrollment.system codec cfg maxPolls code ⟨d, l, none, []⟩ := rfl
  have hok := halone.and hcareful
  rw [hinit, along_map (Enrollment.system codec cfg maxPolls code) fun t ev => step_system hparse] at hok
  obtain ⟨⟨hsound, -⟩, hwhole⟩ := runs_invariant_along
    (fun t : Enrollment Ledger => (t.edge.Sound cp c key ∧ Joint codec cfg cp c key t.edge t.disk t.phase) ∧
      (t.running = false → Whole codec cfg cp c key t.edge t.disk))
    (fun t ev t' h hok hstep => ⟨joint_step hcode hroot hclosed h.1 hok.1 hstep,
      whole_step hcode hroot hclosed h.1 h.2 hok.1 hok.2 hstep⟩)
    (show (l.Sound cp c key ∧ Joint codec cfg cp c key l d none) ∧
      (Enrollment.running ⟨d, l, none, []⟩ = false → Whole codec cfg cp c key l d) from
      ⟨⟨hl, .inl hd⟩, fun _ => .inl hd⟩) hok htrace
  rw [running_system] at hrest
  refine ⟨fun q hq => ?_, fun hnone happroved hkey rounds hrounds => ?_⟩
  · rcases hwhole hrest with hnone | ⟨p, ⟨m, happrovals, happroved, hip, hhostname⟩, hstate, htoken⟩
    · cases hnone.symm.trans hq
    · refine ⟨m, p.deviceToken, tunnelOf cfg p.wgIp p.info, happrovals, happroved.key_eq, hip.symm, ?_, ?_,
        happroved.enrolled⟩
      · rw [hhostname]
        exact hstate
      · rw [show (t.system codec cfg maxPolls code).disk.files .deviceToken = _ from htoken]
        exact persistedDeviceToken_utf8 happroved.isToken
  · exact restart_completes hparse hcode hroot hclosed hsound happroved hnone hkey
      (by rw [running_system, hrest]) hrounds

/-! ## A box without a token -/

/-- A box that was broken off between the files never enrolls again. -/
theorem stranded_runs {Ch Op E : Type} {client : EdgeClient E Ch} {act : Op → E → E} {s s' : System E}
    (hbox : s.box = none) (hsome : (persistedTunnelState codec (s.disk.files .tunnelState)).isSome)
    {evs : List (Event Ch Op)} (hruns : runs (step codec cfg crates client act maxPolls) s evs = some s') :
    s'.disk = s.disk ∧ s'.box = none := by
  refine runs_invariant (fun s' : System E => s'.disk = s.disk ∧ s'.box = none) (fun s₁ ev s₂ h hstep => ?_)
    ⟨rfl, hbox⟩ hruns
  obtain ⟨hdisk, hnone⟩ := h
  cases ev with
  | start =>
    rw [step, if_pos (.inr (hdisk ▸ hsome))] at hstep
    cases hstep
  | advance ch =>
    simp only [step, hnone] at hstep
    cases hstep
  | crash =>
    cases hstep
    exact ⟨hdisk, rfl⟩
  | outside op =>
    cases hstep
    exact ⟨hdisk, hnone⟩

/-- An edge whose public key is that of the sample. -/
def tunnelEdge : ControlPlane :=
  { sampleEdge with b64Encode := fun _ => "AAAAAAAAAAAAAAAAAAAAAAAAAAAAAAAAAAAAAAAAAAA=" }

/-- The box is approved, and crashes once it has written the state file. -/
def strandedRun : List (Event Exchange Owner) :=
  [.start, .advance calm, .advance calm, .advance calm, .advance calm,
    .outside (.approve "owner@example.net" "kitchen" [])] ++
    List.replicate (4 + Claims.sampleText.toUTF8.size) (.advance calm) ++ [.crash]

/-- It is enrolled for every boot, and has no device token, whatever happens afterwards. -/
theorem stranded : ∃ s, runs (step Claims.sampleCodec sampleConfig Keypair.sampleCrates
      (httpEdge tunnelEdge "https://example.net") (Owner.act tunnelEdge sampleInvite) 10)
      (.init ⟨none, fun _ => none⟩ invitedLedger) strandedRun = some s ∧
    running s.box = false ∧ (persistedTunnelState Claims.sampleCodec (s.disk.files .tunnelState)).isSome ∧
    ∀ evs s', runs (step Claims.sampleCodec sampleConfig Keypair.sampleCrates
        (httpEdge tunnelEdge "https://example.net") (Owner.act tunnelEdge sampleInvite) 10) s evs = some s' →
      persistedDeviceToken (s'.disk.files .deviceToken) = none := by
  have hend : (runs (step Claims.sampleCodec sampleConfig Keypair.sampleCrates
      (httpEdge tunnelEdge "https://example.net") (Owner.act tunnelEdge sampleInvite) 10)
      (.init ⟨none, fun _ => none⟩ invitedLedger) strandedRun).map
        (fun s => (s.box.isSome, (persistedTunnelState Claims.sampleCodec (s.disk.files .tunnelState)).isSome,
          (persistedDeviceToken (s.disk.files .deviceToken)).isSome)) = some (false, true, false) := by
    decide +kernel
  obtain ⟨s, hruns, hs⟩ := Option.map_eq_some_iff.mp hend
  obtain ⟨hbox, hs⟩ := Prod.mk.inj hs
  obtain ⟨hsome, htoken⟩ := Prod.mk.inj hs
  have hbox := Option.not_isSome_iff_eq_none.mp (Bool.eq_false_iff.mp hbox)
  refine ⟨s, hruns, by rw [hbox]; rfl, hsome, fun evs s' hruns' => ?_⟩
  rw [(stranded_runs hbox hsome hruns').1]
  exact Option.not_isSome_iff_eq_none.mp (Bool.eq_false_iff.mp htoken)

/-- A box that crashes after its poll has collected the payload. -/
theorem restart_safe_collected : ∃ s : System Ledger, s.edge.approvals.map (·.name) = ["kitchen"] ∧
    Restartable Claims.sampleCodec sampleConfig Keypair.sampleCrates sampleEdge "https://example.net"
      sampleInvite samplePubkey 10 s := by
  have hend : (runs (step Claims.sampleCodec sampleConfig Keypair.sampleCrates
      (httpEdge sampleEdge "https://example.net") (Owner.act sampleEdge sampleInvite) 10)
      (.init ⟨none, fun _ => none⟩ invitedLedger) (kitchenRun.take 7 ++ [.crash])).map
        (fun s => (running s.box, s.edge.approvals.map (·.name))) = some (false, ["kitchen"]) := by
    decide +kernel
  have hok : Along (step Claims.sampleCodec sampleConfig Keypair.sampleCrates
      (httpEdge sampleEdge "https://example.net") (Owner.act sampleEdge sampleInvite) 10)
      (fun s ev => Alone Keypair.sampleCrates samplePubkey s ev ∧ Careful Claims.sampleCodec s ev)
      (.init ⟨none, fun _ => none⟩ invitedLedger) (kitchenRun.take 7 ++ [.crash]) := by
    decide +kernel
  have hcode : sampleEdge.canonicalInviteCode sampleInvite = some sampleInvite := by decide +kernel
  obtain ⟨s, hruns, hs⟩ := Option.map_eq_some_iff.mp hend
  obtain ⟨hrest, hnames⟩ := Prod.mk.inj hs
  exact ⟨s, hnames, restart_safe sampleConfig_parses hcode (by decide) Claims.sampleCodec_closed
    invitedLedger_sound (show Unpersisted Claims.sampleCodec ⟨none, fun _ => none⟩ from rfl)
    (Along.mono hok fun _ _ h => h.1)
    (Along.mono hok fun _ _ h => h.2) hruns hrest⟩

end Enroll
end Client
end Cococoir
