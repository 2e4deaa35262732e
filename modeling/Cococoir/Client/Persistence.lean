import Cococoir.Client.Enroll

/-!
# What an enrollment leaves on the disk

The state file is written before the device token, and a boot that can read it does not enroll again.  So
what matters is what the disk can look like when an enrollment was broken off.

* `broken_off`: the writing of a payload, broken off anywhere.
* `Traced`: what holds of the disk and of the polls, by where the enrollment is.
* `enroll_faithful`: what can be relied on, whatever the edge answers and wherever the box crashes.
* `enroll_ends`: an enrollment that goes on ends.

## Files that were broken off

Writing a file is a list of operations, and what a crash or a failure leaves is what a beginning
of the list did.  `execAll_prefix` says what that can be: the file as it was, or some beginning of
its new text that is not the whole of it.  Whether a boot can read such a beginning is a question
about the codec, which is a parameter; what is used of it is that no proper beginning of a state
file's text decodes.

`Traced` then follows an enrollment from phase to phase.  It says which answers the polls have
been given, all but the last one that the owner has not decided, and what the disk holds: nothing
of use, or what the payload in hand has brought there so far.  Nothing is assumed of the edge, so
these results also hold of one that answers anything, and `enroll_ends` is the only one that asks
the box to be scheduled again.
-/

namespace Cococoir
namespace Client
namespace Enroll

open Concurrency
open Box (PollOutcome)
open Claims (Codec PersistedTunnel TunnelConfig persistedTunnelState)
open FormUrl (utf8)

variable {E Ch Op : Type} {codec : Codec} {cfg : InviteConfig} {crates : Keypair.Crates}
  {client : EdgeClient E Ch} {act : Op → E → E} {maxPolls : ℕ} {code : String} {d : Disk} {e : E}
  {s s' : System E} {t t' : Enrollment E}

/-! ## What is on the disk -/

def execAll (ops : List FileOp) (d : Disk) : Disk := ops.foldl (fun d op => op.exec d) d

def FileOp.file : FileOp → File
  | .createDirAll file | .create file | .write file _ => file

variable {file : File} {bytes text : List UInt8} {op : FileOp} {ops pre : List FileOp}

theorem execAll_append : execAll (pre ++ ops) d = execAll ops (execAll pre d) := List.foldl_append

theorem exec_other (h : op.file ≠ file) : (op.exec d).files file = d.files file := by
  cases op with
  | createDirAll file' => rfl
  | create file' => exact Function.update_of_ne (Ne.symm h) _ _
  | write file' b => exact Function.update_of_ne (Ne.symm h) _ _

theorem execAll_other (h : ∀ op ∈ ops, op.file ≠ file) : (execAll ops d).files file = d.files file := by
  induction ops generalizing d with
  | nil => rfl
  | cons op ops ih =>
    rw [execAll, List.foldl_cons]
    exact (ih fun op' hop => h op' (List.mem_cons_of_mem _ hop)).trans (exec_other (h op List.mem_cons_self))

theorem file_of_mem_saveOps (h : op ∈ saveOps file bytes) : op.file = file := by
  simp only [saveOps, List.mem_cons, List.mem_map] at h
  rcases h with rfl | rfl | ⟨b, -, rfl⟩ <;> rfl

theorem execAll_writes : (execAll (bytes.map (.write file)) d).files file =
    (d.files file).map (· ++ bytes) := by
  induction bytes generalizing d with
  | nil => simp [execAll]
  | cons b bytes ih =>
    rw [List.map_cons, execAll, List.foldl_cons]
    refine ih.trans ?_
    simp [FileOp.exec, Function.comp_def]

theorem execAll_saveOps : (execAll (saveOps file bytes) d).files file = some bytes := by
  rw [saveOps, execAll, List.foldl_cons, List.foldl_cons]
  refine execAll_writes.trans ?_
  simp [FileOp.exec]

/-- **A file whose writing was broken off** is as it was, or has a beginning of its text, and not the whole
text unless all was done. -/
theorem execAll_prefix (h : pre <+: saveOps file bytes) :
    (execAll pre d).files file = d.files file ∨
      ∃ text, text <+: bytes ∧ (execAll pre d).files file = some text ∧
        (text = bytes → pre = saveOps file bytes) := by
  rw [saveOps, List.prefix_cons_iff] at h
  rcases h with rfl | ⟨pre, rfl, h⟩
  · exact .inl rfl
  · rw [List.prefix_cons_iff] at h
    rcases h with rfl | ⟨pre, rfl, h⟩
    · exact .inl rfl
    · obtain ⟨text, htext, rfl⟩ := List.prefix_map_iff.mp h
      refine .inr ⟨text, htext, execAll_saveOps, ?_⟩
      rintro rfl
      rfl

/-! ## Every enrollment -/

/-- The poll was answered that the owner has not decided. -/
def Waits (answer : Except EnrollError PollOutcome) : Prop :=
  ∃ outcome, answer = .ok outcome ∧ outcome.status = "waiting"

/-- The answer that carries a payload. -/
def Payload.answer (p : Payload) : PollOutcome :=
  ⟨"approved", some p.wgIp, some p.hostname, some p.deviceToken⟩

variable (codec cfg) in
/-- The state file is that of the payload. -/
def Payload.StateOn (p : Payload) (d : Disk) : Prop :=
  d.files .tunnelState = some (codec.toStringPretty (p.persisted cfg))

def Payload.TokenOn (p : Payload) (d : Disk) : Prop := d.files .deviceToken = some (utf8 p.deviceToken)

variable (codec) in
/-- A boot finds no enrollment. -/
def Unpersisted (d : Disk) : Prop := persistedTunnelState codec (d.files .tunnelState) = none

/-- The polls of one enrollment: they end with the first answer that decides. -/
structure Polls (maxPolls : ℕ) (answers : List (Except EnrollError PollOutcome)) : Prop where
  budget : answers.length ≤ maxPolls + 1
  early : ∀ answer ∈ answers.dropLast, Waits answer

variable (codec cfg) in
/-- The state file is of no use, or of the payload that the last poll gave. -/
def Rests (answers : List (Except EnrollError PollOutcome)) (d : Disk) : Prop :=
  Unpersisted codec d ∨ ∃ p : Payload, answers.getLast? = some (.ok p.answer) ∧ p.StateOn codec cfg d

variable (codec cfg maxPolls) in
/-- What holds of the disk and of the polls, by where the enrollment is. -/
def Traced (answers : List (Except EnrollError PollOutcome)) (d : Disk) : Option Phase → Prop
  | none => Polls maxPolls answers ∧ Rests codec cfg answers d
  | some .starting | some (.keyed _) => answers = [] ∧ Unpersisted codec d
  | some (.polling left) | some (.sleeping left) =>
    (∀ answer ∈ answers, Waits answer) ∧ answers.length + left = maxPolls ∧ Unpersisted codec d
  | some (.fetching wgIp hostname deviceToken) => Polls maxPolls answers ∧ Unpersisted codec d ∧
    answers.getLast? = some (.ok ⟨"approved", some wgIp, some hostname, some deviceToken⟩)
  | some (.saving ops o) => Polls maxPolls answers ∧
    ((ops = [] ∧ (∃ err, o = .err err) ∧ Rests codec cfg answers d) ∨
      ∃ (p : Payload) (d₀ : Disk) (pre : List FileOp), answers.getLast? = some (.ok p.answer) ∧
        Unpersisted codec d₀ ∧ save codec cfg p = (pre ++ ops, o) ∧ d = execAll pre d₀)

variable (codec cfg) in
/-- The operations of a payload, and how it ends. -/
theorem save_cases (p : Payload) :
    (save codec cfg p).1 = [] ∧ (∃ msg, (save codec cfg p).2 = .panic msg) ∨
    (save codec cfg p).1 = saveOps .tunnelState (codec.toStringPretty (p.persisted cfg)) ∧
      (∃ msg, (save codec cfg p).2 = .panic msg) ∨
    p.deviceToken ≠ "" ∧ (save codec cfg p).1 =
        saveOps .tunnelState (codec.toStringPretty (p.persisted cfg)) ++
          saveOps .deviceToken (utf8 p.deviceToken) ∧
      (save codec cfg p).2 = .ok (tunnelOf cfg p.wgIp p.info) := by
  unfold save
  by_cases hhost : p.hostname = ""
  · exact .inl ⟨by rw [if_pos hhost], _, by rw [if_pos hhost]⟩
  · by_cases htoken : p.deviceToken = ""
    · exact .inr (.inl ⟨by rw [if_neg hhost, if_pos htoken], _, by rw [if_neg hhost, if_pos htoken]⟩)
    · exact .inr (.inr ⟨htoken, by rw [if_neg hhost, if_neg htoken],
        by rw [if_neg hhost, if_neg htoken]⟩)

/-- **A payload whose writing was broken off** leaves a state file that is none, or the payload's. -/
theorem broken_off (hclosed : codec.Closed) {p : Payload} {d₀ : Disk} (hd : Unpersisted codec d₀)
    (h : pre <+: (save codec cfg p).1) :
    Unpersisted codec (execAll pre d₀) ∨ p.StateOn codec cfg (execAll pre d₀) := by
  have hfirst : ∀ pre, pre <+: saveOps .tunnelState (codec.toStringPretty (p.persisted cfg)) →
      Unpersisted codec (execAll pre d₀) ∨ p.StateOn codec cfg (execAll pre d₀) := by
    intro pre hpre
    rcases execAll_prefix (d := d₀) hpre with hsame | ⟨text, htext, hfile, -⟩
    · rw [Unpersisted, hsame]
      exact .inl hd
    · by_cases hall : text = codec.toStringPretty (p.persisted cfg)
      · rw [hall] at hfile
        exact .inr hfile
      · rw [Unpersisted, hfile]
        exact .inl (hclosed _ _ htext hall)
  rcases save_cases codec cfg p with ⟨hops, -⟩ | ⟨hops, -⟩ | ⟨-, hops, -⟩
  · rw [hops] at h
    rw [List.prefix_nil.mp h]
    exact .inl hd
  · rw [hops] at h
    exact hfirst _ h
  · rw [hops] at h
    rcases List.prefix_or_prefix_of_prefix h (List.prefix_append _ _) with hpre | ⟨rest, rfl⟩
    · exact hfirst _ hpre
    · refine .inr ?_
      have hrest : ∀ op ∈ rest, op.file ≠ .tunnelState := by
        intro op hop
        have hmem := ((List.prefix_append_right_inj _).mp h).subset hop
        rw [file_of_mem_saveOps hmem]
        decide
      rw [Payload.StateOn, execAll_append, execAll_other hrest]
      exact execAll_saveOps

/-- A payload that was written. -/
theorem saved (d₀ : Disk) {p : Payload} {tunnel : TunnelConfig} (h : save codec cfg p = (ops, .ok tunnel)) :
    tunnel = tunnelOf cfg p.wgIp p.info ∧ p.deviceToken ≠ "" ∧ p.StateOn codec cfg (execAll ops d₀) ∧
      p.TokenOn (execAll ops d₀) := by
  rcases save_cases codec cfg p with ⟨-, msg, ho⟩ | ⟨-, msg, ho⟩ | ⟨htoken, hops, ho⟩
  · rw [h] at ho
    cases ho
  · rw [h] at ho
    cases ho
  · rw [h] at hops ho
    cases ho
    have hother : ∀ op ∈ saveOps .deviceToken (utf8 p.deviceToken), op.file ≠ .tunnelState := by
      intro op hop
      rw [file_of_mem_saveOps hop]
      decide
    dsimp only at hops
    rw [hops, Payload.StateOn, Payload.TokenOn, execAll_append, execAll_other hother]
    exact ⟨rfl, htoken, execAll_saveOps, execAll_saveOps⟩

variable {answers : List (Except EnrollError PollOutcome)} {phase : Phase}

theorem Polls.nil : Polls maxPolls [] := ⟨Nat.zero_le _, nofun⟩

/-- One more answer, while the budget lasts. -/
theorem Polls.concat {left : ℕ} (h : ∀ answer ∈ answers, Waits answer) (hleft : answers.length + left = maxPolls)
    (answer : Except EnrollError PollOutcome) : Polls maxPolls (answers ++ [answer]) := by
  refine ⟨?_, ?_⟩
  · rw [List.length_append, List.length_singleton]
    omega
  · rwa [List.dropLast_concat]

theorem polls_of_waits {left : ℕ} (h : ∀ answer ∈ answers, Waits answer)
    (hleft : answers.length + left = maxPolls) : Polls maxPolls answers :=
  ⟨by omega, fun answer hmem => h answer (List.dropLast_subset _ hmem)⟩

/-- Where the payload of an approval leads. -/
theorem settled_cases (approved : PollOutcome) :
    (∃ err, settled approved = .ended (.err err)) ∨
      ∃ wgIp hostname deviceToken, settled approved = .fetching wgIp hostname deviceToken ∧
        approved = ⟨approved.status, some wgIp, some hostname, some deviceToken⟩ := by
  obtain ⟨status, wgIp, hostname, deviceToken⟩ := approved
  cases wgIp with
  | none => exact .inl ⟨_, rfl⟩
  | some wgIp =>
    cases hostname with
    | none => exact .inl ⟨_, rfl⟩
    | some hostname =>
      cases deviceToken with
      | none => exact .inl ⟨_, rfl⟩
      | some deviceToken => exact .inr ⟨_, _, _, rfl, rfl⟩

theorem approvedYet_cases (status : String) :
    (∃ err, approvedYet status = .error err) ∨ (status = "approved" ∧ approvedYet status = .ok true) ∨
      status = "waiting" ∧ approvedYet status = .ok false := by
  unfold approvedYet
  split_ifs with happroved hwaiting hdenied
  · exact .inr (.inl ⟨happroved, rfl⟩)
  · exact .inr (.inr ⟨hwaiting, rfl⟩)
  · exact .inl ⟨_, rfl⟩
  · exact .inl ⟨_, rfl⟩

/-- Where a poll's answer leads. -/
theorem judged_cases (left : ℕ) (answer : PollOutcome) :
    (∃ err, judged left answer = .ended (.err err)) ∨
      (∃ wgIp hostname deviceToken, judged left answer = .fetching wgIp hostname deviceToken ∧
        answer = ⟨"approved", some wgIp, some hostname, some deviceToken⟩) ∨
      ∃ rest, left = rest + 1 ∧ judged left answer = .sleeping rest ∧ answer.status = "waiting" := by
  unfold judged
  rcases approvedYet_cases answer.status with ⟨err, h⟩ | ⟨hstatus, h⟩ | ⟨hstatus, h⟩
  · rw [h]
    exact .inl ⟨err, rfl⟩
  · rw [h]
    rcases settled_cases answer with hend | ⟨wgIp, hostname, deviceToken, hfetch, hanswer⟩
    · exact .inl hend
    · exact .inr (.inl ⟨wgIp, hostname, deviceToken, hfetch, hstatus ▸ hanswer⟩)
  · rw [h]
    cases left with
    | zero => exact .inl ⟨_, rfl⟩
    | succ rest => exact .inr (.inr ⟨rest, rfl, rfl, hstatus⟩)

/-- The enrollment ended with an error, and left the disk alone. -/
theorem traced_ended {err : EnrollError} (hpolls : Polls maxPolls answers) (hd : Rests codec cfg answers d) :
    Traced codec cfg maxPolls answers d (some (.ended (.err err))) :=
  ⟨hpolls, .inl ⟨rfl, ⟨err, rfl⟩, hd⟩⟩

/-- An enrollment that is broken off anywhere leaves the disk at rest. -/
theorem Traced.rests (hclosed : codec.Closed) {phase : Option Phase}
    (h : Traced codec cfg maxPolls answers d phase) :
    Polls maxPolls answers ∧ Rests codec cfg answers d := by
  match phase, h with
  | none, h => exact h
  | some .starting, h | some (.keyed _), h =>
    rw [h.1]
    exact ⟨Polls.nil, .inl h.2⟩
  | some (.polling left), h | some (.sleeping left), h =>
    exact ⟨polls_of_waits h.1 h.2.1, .inl h.2.2⟩
  | some (.fetching _ _ _), h => exact ⟨h.1, .inl h.2.1⟩
  | some (.saving ops o), ⟨hpolls, .inl ⟨_, _, hd⟩⟩ => exact ⟨hpolls, hd⟩
  | some (.saving ops o), ⟨hpolls, .inr ⟨p, d₀, pre, hlast, hd₀, hsave, hd⟩⟩ =>
    have hpre : pre <+: (save codec cfg p).1 := ⟨ops, by rw [hsave]⟩
    rw [hd]
    refine ⟨hpolls, (broken_off hclosed hd₀ hpre).imp_right fun hstate => ⟨p, hlast, hstate⟩⟩

/-- Ensuring the keypair touches no other file. -/
theorem keypairOf_files {ch : Choice Ch} : (keypairOf crates ch d).2.files = d.files := by
  unfold keypairOf
  split_ifs <;> rfl

variable (crates client code e) in
/-- **One command of an enrollment**, whatever it is answered. -/
theorem Traced.next (ch : Choice Ch) (hclosed : codec.Closed) (hended : phase.isEnded = false)
    (h : Traced codec cfg maxPolls answers d (some phase)) :
    Traced codec cfg maxPolls (answers ++ (phase.answer client code ch e).toList)
      (phase.next codec cfg crates client maxPolls code ch (d, e)).2.1
      (some (phase.next codec cfg crates client maxPolls code ch (d, e)).1) := by
  cases phase with
  | starting =>
    obtain ⟨rfl, hd⟩ := h
    have hd' : Unpersisted codec (keypairOf crates ch d).2 := by
      rw [Unpersisted, keypairOf_files]
      exact hd
    dsimp only [Phase.next, Phase.answer, Option.toList, List.append_nil]
    cases (keypairOf crates ch d).1 with
    | ok pubkey => exact ⟨rfl, hd'⟩
    | error err => exact traced_ended Polls.nil (.inl hd')
  | keyed pubkey =>
    obtain ⟨rfl, hd⟩ := h
    dsimp only [Phase.next, Phase.answer, Option.toList, List.append_nil]
    cases (client.begin code pubkey ch.edge e).1 with
    | ok begun =>
      dsimp only
      split_ifs with hdenied
      · exact traced_ended Polls.nil (.inl hd)
      · exact ⟨nofun, Nat.zero_add _, hd⟩
    | error err => exact traced_ended Polls.nil (.inl hd)
  | polling left =>
    obtain ⟨hwaits, hleft, hd⟩ := h
    have hpolls := Polls.concat hwaits hleft (client.poll code ch.edge e).1
    dsimp only [Phase.next, Phase.answer, Option.toList]
    generalize (client.poll code ch.edge e).1 = answer at hpolls ⊢
    cases answer with
    | error err => exact traced_ended hpolls (.inl hd)
    | ok outcome =>
      dsimp only
      rcases judged_cases left outcome with ⟨err, hj⟩ | ⟨wgIp, hostname, deviceToken, hj, rfl⟩ |
        ⟨rest, rfl, hj, hwaiting⟩
      · rw [hj]
        exact traced_ended hpolls (.inl hd)
      · rw [hj]
        exact ⟨hpolls, hd, List.getLast?_concat⟩
      · rw [hj]
        refine ⟨fun answer hmem => ?_, ?_, hd⟩
        · rcases List.mem_append.mp hmem with hmem | hmem
          · exact hwaits answer hmem
          · exact List.mem_singleton.mp hmem ▸ ⟨outcome, rfl, hwaiting⟩
        · rw [List.length_append, List.length_singleton]
          omega
  | sleeping left =>
    dsimp only [Phase.next, Phase.answer, Option.toList]
    rw [List.append_nil]
    exact h
  | fetching wgIp hostname deviceToken =>
    obtain ⟨hpolls, hd, hlast⟩ := h
    dsimp only [Phase.next, Phase.answer, Option.toList]
    rw [List.append_nil]
    cases (client.edgeInfo ch.edge e).1 with
    | ok info => exact ⟨hpolls, .inr ⟨⟨wgIp, hostname, deviceToken, info⟩, d, [], hlast, hd, rfl, rfl⟩⟩
    | error err => exact traced_ended hpolls (.inl hd)
  | saving ops o =>
    cases ops with
    | nil => cases hended
    | cons op ops =>
      dsimp only [Phase.next, Phase.answer, Option.toList]
      rw [List.append_nil]
      have hrests := h.rests hclosed
      split_ifs with hfails
      · exact traced_ended hrests.1 hrests.2
      · rcases h.2 with ⟨hops, -⟩ | ⟨p, d₀, pre, hlast, hd₀, hsave, rfl⟩
        · cases hops
        · refine ⟨h.1, .inr ⟨p, d₀, pre ++ [op], hlast, hd₀, ?_, ?_⟩⟩
          · rw [hsave, List.append_assoc, List.singleton_append]
          · rw [execAll_append]
            rfl

/-- What an enrollment has been answered. -/
def Enrollment.heard (t : Enrollment E) : List (Except EnrollError PollOutcome) := t.polled.map (·.2)

theorem traced_step (hclosed : codec.Closed) {ev : Event Ch Op}
    (h : Traced codec cfg maxPolls t.heard t.disk t.phase)
    (hstep : t.step codec cfg crates client act maxPolls code ev = some t') :
    Traced codec cfg maxPolls t'.heard t'.disk t'.phase := by
  cases ev with
  | start =>
    simp only [Enrollment.step] at hstep
    split_ifs at hstep with hnot
    cases hstep
    exact ⟨rfl, Option.not_isSome_iff_eq_none.mp fun hsome => hnot (.inr hsome)⟩
  | advance ch =>
    simp only [Enrollment.step] at hstep
    cases hphase : t.phase with
    | none =>
      rw [hphase] at hstep
      cases hstep
    | some phase =>
      rw [hphase] at hstep h
      dsimp only at hstep
      split_ifs at hstep with hended
      cases hstep
      have := Traced.next crates client code t.edge ch hclosed (Bool.eq_false_iff.mpr hended) h
      simpa [Enrollment.heard] using this
  | crash =>
    cases hstep
    exact h.rests hclosed
  | outside op =>
    cases hstep
    exact h

theorem traced_runs (hclosed : codec.Closed) {evs : List (Event Ch Op)} (hd : Unpersisted codec d)
    (hruns : runs (Enrollment.step codec cfg crates client act maxPolls code) ⟨d, e, none, []⟩ evs = some t) :
    Traced codec cfg maxPolls t.heard t.disk t.phase :=
  runs_invariant (fun t => Traced codec cfg maxPolls t.heard t.disk t.phase)
    (fun _ _ _ h hstep => traced_step hclosed h hstep)
    (show Traced codec cfg maxPolls [] d none from ⟨Polls.nil, .inl hd⟩) hruns

/-- What an enrollment has been answered. -/
def System.heard (s : System E) : List (Except EnrollError PollOutcome) := s.polled.map (·.2)

variable (codec cfg maxPolls) in
/-- What can be relied on of a box, whatever its edge answers. -/
structure Faithful (s : System E) : Prop where
  /-- It polls until the first answer that decides, and not too often. -/
  polls : Polls maxPolls s.heard
  /-- A state file that a boot can read is the whole payload of the last poll. -/
  persisted : ∀ q, persistedTunnelState codec (s.disk.files .tunnelState) = some q →
    ∃ p : Payload, s.heard.getLast? = some (.ok p.answer) ∧ p.StateOn codec cfg s.disk
  /-- An enrollment that returns has left both files. -/
  returned : ∀ tunnel, s.box = some (.done (.ok tunnel)) →
    ∃ p : Payload, s.heard.getLast? = some (.ok p.answer) ∧ tunnel = tunnelOf cfg p.wgIp p.info ∧
      p.StateOn codec cfg s.disk ∧ p.TokenOn s.disk ∧ p.deviceToken ≠ ""

theorem prog_eq_done {o : Outcome EnrollError TunnelConfig}
    (h : phase.prog codec cfg maxPolls code = .done o) : phase = .ended o := by
  cases hended : phase.isEnded with
  | true =>
    obtain ⟨o', hphase, hprog⟩ := prog_ended codec cfg maxPolls code hended
    rw [hprog] at h
    cases h
    exact hphase
  | false =>
    have hrunning : running (some (phase.prog codec cfg maxPolls code)) = !phase.isEnded := running_prog
    rw [h, hended] at hrunning
    cases hrunning

theorem Traced.faithful (hclosed : codec.Closed)
    (h : Traced codec cfg maxPolls t.heard t.disk t.phase) :
    Faithful codec cfg maxPolls (t.system codec cfg maxPolls code) := by
  obtain ⟨hpolls, hrests⟩ := h.rests hclosed
  refine ⟨hpolls, fun q hq => ?_, fun tunnel hbox => ?_⟩
  · rcases hrests with hnone | ⟨p, hlast, hstate⟩
    · cases hnone.symm.trans hq
    · exact ⟨p, hlast, hstate⟩
  · obtain ⟨phase, hphase, hprog⟩ := Option.map_eq_some_iff.mp hbox
    rw [hphase, prog_eq_done hprog] at h
    rcases h.2 with ⟨-, ⟨err, herr⟩, -⟩ | ⟨p, d₀, pre, hlast, -, hsave, hd⟩
    · cases herr
    · rw [List.append_nil] at hsave
      obtain ⟨htunnel, htoken, hstate, htokenOn⟩ := saved d₀ hsave
      rw [← hd] at hstate htokenOn
      exact ⟨p, hlast, htunnel, hstate, htokenOn, htoken⟩

/-- The runs of a box are the runs of its phases. -/
theorem exists_enrollment {base : String} (hparse : parseInviteUrl cfg.inviteUrl = .ok (base, code))
    {evs : List (Event Ch Op)}
    (hruns : runs (step codec cfg crates client act maxPolls) (.init d e) evs = some s) :
    ∃ t, runs (Enrollment.step codec cfg crates client act maxPolls code) ⟨d, e, none, []⟩ evs = some t ∧
      t.system codec cfg maxPolls code = s := by
  have hinit : System.init d e = Enrollment.system codec cfg maxPolls code ⟨d, e, none, []⟩ := rfl
  rw [hinit, runs_map (Enrollment.system codec cfg maxPolls code) fun t ev => step_system hparse] at hruns
  exact Option.map_eq_some_iff.mp hruns

/-- **A box enrolls faithfully**, whatever its edge answers, wherever it crashes or its disk fails, and
however often it is started again: no more than one poll beyond the budget; a state file that a boot can
read is, as a whole, the payload of the last poll; and an enrollment that returns has left both files. -/
theorem enroll_faithful (hclosed : codec.Closed) {base : String}
    (hparse : parseInviteUrl cfg.inviteUrl = .ok (base, code)) (hd : Unpersisted codec d)
    {evs : List (Event Ch Op)}
    (hruns : runs (step codec cfg crates client act maxPolls) (.init d e) evs = some s) :
    Faithful codec cfg maxPolls s := by
  obtain ⟨t, htrace, rfl⟩ := exists_enrollment hparse hruns
  exact (traced_runs hclosed hd htrace).faithful hclosed

/-! ## An enrollment that goes on -/

/-- What happens in `n` rounds: in each, some things happen at the edge, and the enrollment issues its next
command. -/
def interleaved (rounds : ℕ → List Op × Choice Ch) : ℕ → List (Event Ch Op)
  | 0 => []
  | n + 1 => (rounds 0).1.map .outside ++ .advance (rounds 0).2 :: interleaved (fun i => rounds (i + 1)) n

/-- What happens at the edge leaves the box. -/
theorem runs_outside (ops : List Op) : ∃ e', runs (step codec cfg crates client act maxPolls) s
    (ops.map .outside) = some { s with edge := e' } := by
  induction ops generalizing s with
  | nil => exact ⟨s.edge, rfl⟩
  | cons op ops ih =>
    obtain ⟨e', h⟩ := ih (s := { s with edge := act op s.edge })
    exact ⟨e', h⟩

/-- **An enrollment that goes on ends**, whatever it is answered and whatever happens at the edge. -/
theorem enroll_ends {p : Program TunnelConfig} (hbox : s.box = some p) (rounds : ℕ → List Op × Choice Ch) :
    ∃ n s' o, runs (step codec cfg crates client act maxPolls) s (interleaved rounds n) = some s' ∧
      s'.box = some (.done o) := by
  induction p generalizing s rounds with
  | done o => exact ⟨0, s, o, rfl, hbox⟩
  | cmd c k ih =>
    obtain ⟨e', hout⟩ := runs_outside (rounds 0).1 (s := s)
    have hadvance : ∃ s' r, step codec cfg crates client act maxPolls { s with edge := e' }
        (.advance (rounds 0).2) = some s' ∧ s'.box = some (k r) := by
      simp only [step, hbox]
      exact ⟨_, _, rfl, rfl⟩
    obtain ⟨s₁, r, hstep, hbox₁⟩ := hadvance
    obtain ⟨n, s₂, o, hruns, hdone⟩ := ih r hbox₁ fun i => rounds (i + 1)
    exact ⟨n + 1, s₂, o, runs_split.mpr ⟨_, s₁, hout, hstep, hruns⟩, hdone⟩

/-! ## The edge of the tests -/

def waiting : PollOutcome := ⟨"waiting", none, none, none⟩

/-- An edge that answers its polls by a script, and that the machine waits once the script is over. -/
def mockEdge (info : EdgeInfo) : EdgeClient (List PollOutcome) Unit where
  begin _ _ _ script := (.ok waiting, script)
  poll _ _ script := (.ok (script.headD waiting), script.tail)
  edgeInfo _ script := (.ok info, script)

def sampleConfig : InviteConfig := ⟨Claims.sampleUrl, "wg0", 24, 0⟩

def sampleInfo : EdgeInfo :=
  ⟨"AAAAAAAAAAAAAAAAAAAAAAAAAAAAAAAAAAAAAAAAAAA=", "example.net:51820", "10.10.0.0/24"⟩

/-- A choice in which nothing fails. -/
def smooth : Choice Unit := ⟨false, "", Keypair.sampleSecret, ()⟩

theorem sampleConfig_parses : parseInviteUrl sampleConfig.inviteUrl =
    .ok ("https://example.net", "polluted-move-cheetah-apple") := by
  decide

/-- A box that waits once, is approved, and crashes before it has asked for the tunnel facts. -/
theorem enroll_faithful_crashed : ∃ s : System (List PollOutcome),
    runs (step Claims.sampleCodec sampleConfig Keypair.sampleCrates (mockEdge sampleInfo)
      (fun (_ : Unit) e => e) 10) (.init ⟨none, fun _ => none⟩
        [waiting, ⟨"approved", some "10.10.0.2", some "kitchen.example.net", some "00"⟩])
      ([.start] ++ List.replicate 5 (.advance smooth) ++ [.crash]) = some s ∧
    s.polled.length = 2 ∧ Faithful Claims.sampleCodec sampleConfig 10 s := by
  have hpolls : (runs (step Claims.sampleCodec sampleConfig Keypair.sampleCrates (mockEdge sampleInfo)
      (fun (_ : Unit) e => e) 10) (.init ⟨none, fun _ => none⟩
        [waiting, ⟨"approved", some "10.10.0.2", some "kitchen.example.net", some "00"⟩])
      ([.start] ++ List.replicate 5 (.advance smooth) ++ [.crash])).map (·.polled.length) = some 2 := by
    decide
  obtain ⟨s, hruns, hlength⟩ := Option.map_eq_some_iff.mp hpolls
  have hd : Unpersisted Claims.sampleCodec ⟨none, fun _ => none⟩ := rfl
  exact ⟨s, hruns, hlength, enroll_faithful Claims.sampleCodec_closed sampleConfig_parses hd hruns⟩

end Enroll
end Client
end Cococoir
