import Cococoir.Concurrency.Steps
import Cococoir.ControlPlane.Invites
import Cococoir.Encoding.Base64

/-!
# The keypair of a box

The private key of the tunnel is generated once and kept in a file.  A call reads the file and derives
the public key; where there is none, it generates a keypair, creates the file (which fails when another
call was faster) and writes the key, a chunk at a time.  Calls run side by side, and can crash between
any two of these actions.

* `ensureKeypair`: one call, alone.
* `step`: all calls, one action at a time; `alone_iff` says that both agree.
* `Holding`: whose key is in the file, and how much of it.
* `emptyKey`: a call that crashed after it had created the file leaves it empty for good.
* `ensureKeypair_iff`: when a later call returns the public key, and what it returns.

## Who writes the file

A file is created by one call: `create_new` fails for all others.  From then on the file has the
key of that call's secret as far as it was written, `Holding`, and nobody else writes.  A call
that finds the file reads what there is.  A beginning of a key is no key, since the reader wants
32 bytes and so a text of full length; thus it fails, or it derives the right public key, and
never another one.

A crash after the creation leaves a beginning for good.  If this beginning is empty, a call takes
it for no key, draws one of its own, fails to create the file and reads the empty file again.  The
equivalence is with a condition on the calls: no call is within writing the key, and none crashed
there.
-/

namespace Cococoir
namespace Client
namespace Keypair

open Concurrency ControlPlane

/-- The functions of other crates that a keypair needs. -/
structure Crates : Type where
  b64Decode : String → Option (List UInt8)
  b64Encode : List UInt8 → String
  x25519 : List UInt8 → List UInt8

/-- What is documented of base64: the standard alphabet, with canonical padding. -/
structure Crates.Documented (c : Crates) : Prop where
  decode_encode : ∀ bytes, c.b64Decode (c.b64Encode bytes) = some bytes
  length_encode : ∀ bytes, (c.b64Encode bytes).toList.length = 4 * ((bytes.length + 2) / 3)
  length_of_decode : ∀ text bytes, c.b64Decode text = some bytes →
    text.toList.length = 4 * ((bytes.length + 2) / 3)
  alphabet : ∀ bytes, ∀ ch ∈ (c.b64Encode bytes).toList,
    ch.isAlphanum = true ∨ ch = '+' ∨ ch = '/' ∨ ch = '='

inductive WgKeyError : Type where
  | invalid : WgKeyError
  deriving DecidableEq

inductive TunnelError : Type where
  | io : TunnelError
  | key (err : WgKeyError) : TunnelError
  deriving DecidableEq

/-- A private key that was drawn. -/
abbrev Secret : Type := {bytes : List UInt8 // bytes.length = 32}

abbrev Text : Type := List Char

variable (c : Crates)

/-- The public key and the private key, both as base64. -/
def generateKeypair (secret : Secret) : String × String :=
  (c.b64Encode (c.x25519 secret), c.b64Encode secret)

/-- Derive the public key.  The private key is exactly 32 bytes. -/
def derivePublicKey (privateKey : String) : Except WgKeyError String :=
  match c.b64Decode privateKey with
  | none => .error .invalid
  | some bytes =>
    if bytes.length = 32 then .ok (c.b64Encode (c.x25519 bytes)) else .error .invalid

/-- `text.trim()` -/
def key (text : Text) : String := trim (String.ofList text)

/-- The key that a call finds at first, if there is a file and it is not empty. -/
def readKey (file : Option Text) : Option String :=
  file.bind fun text => if key text = "" then none else some (key text)

def persisted (key : String) : Except TunnelError String := (derivePublicKey c key).mapError .key

/-- One call, alone, with the secret that it draws if it has to. -/
def ensureKeypair (secret : Secret) (file : Option Text) : Except TunnelError String × Option Text :=
  match readKey file with
  | some key => (persisted c key, file)
  | none =>
    let (pubkey, privkey) := generateKeypair c secret
    match file with
    | none => (.ok pubkey, some (privkey.toList ++ ['\n']))
    -- the file exists, so it is not created
    | some text => (persisted c (key text), file)

/-! ## Calls side by side -/

/-- Where a call is. -/
inductive Phase : Type where
  | reading : Phase
  /-- It found no key, and has generated a keypair. -/
  | creating (secret : Secret) : Phase
  /-- It has created the file, and this is left of the key. -/
  | writing (secret : Secret) (left : Text) : Phase
  /-- Another call has created the file. -/
  | rereading : Phase
  | done (result : Except TunnelError String) : Phase

structure Call : Type where
  phase : Phase
  crashed : Bool

structure State : Type where
  file : Option Text
  calls : List Call

/-- No file, and no call. -/
def State.init : State := ⟨none, []⟩

def State.setPhase (s : State) (i : ℕ) (file : Option Text) (phase : Phase) : State :=
  ⟨file, s.calls.set i ⟨phase, false⟩⟩

inductive Event : Type where
  | call : Event
  /-- A call reads the file, and draws a secret if there is no key. -/
  | read (i : ℕ) (secret : Secret) : Event
  /-- The file cannot be read. -/
  | readFails (i : ℕ) (secret : Secret) : Event
  | create (i : ℕ) : Event
  /-- The next characters of the key are written. -/
  | write (i n : ℕ) : Event
  | newline (i : ℕ) : Event
  | reread (i : ℕ) : Event
  /-- A call dies, or ends by an error of the file system. -/
  | crash (i : ℕ) : Event

/-- The private key as it is written. -/
def keyText (secret : Secret) : Text := (generateKeypair c secret).2.toList

def pubkey (secret : Secret) : String := (generateKeypair c secret).1

def step (s : State) : Event → Option State
  | .call => some ⟨s.file, s.calls ++ [⟨.reading, false⟩]⟩
  | .read i secret =>
    match s.calls[i]? with
    | some ⟨.reading, false⟩ =>
      some (s.setPhase i s.file
        (match readKey s.file with
        | some key => .done (persisted c key)
        | none => .creating secret))
    | _ => none
  | .readFails i secret =>
    match s.calls[i]? with
    | some ⟨.reading, false⟩ => some (s.setPhase i s.file (.creating secret))
    | _ => none
  | .create i =>
    match s.calls[i]? with
    | some ⟨.creating secret, false⟩ =>
      match s.file with
      | none => some (s.setPhase i (some []) (.writing secret (keyText c secret)))
      | some text => some (s.setPhase i (some text) .rereading)
    | _ => none
  | .write i n =>
    match s.calls[i]?, s.file with
    | some ⟨.writing secret left, false⟩, some text =>
      some (s.setPhase i (some (text ++ left.take n)) (.writing secret (left.drop n)))
    | _, _ => none
  | .newline i =>
    match s.calls[i]?, s.file with
    | some ⟨.writing secret [], false⟩, some text =>
      some (s.setPhase i (some (text ++ ['\n'])) (.done (.ok (pubkey c secret))))
    | _, _ => none
  | .reread i =>
    match s.calls[i]? with
    | some ⟨.rereading, false⟩ =>
      some (s.setPhase i s.file
        (.done (match s.file with
          | none => .error .io
          | some text => persisted c (key text))))
    | _ => none
  | .crash i =>
    match s.calls[i]? with
    | some ⟨phase, false⟩ => some ⟨s.file, s.calls.set i ⟨phase, true⟩⟩
    | _ => none

/-! ## What is to hold -/

/-- An action of one call, with nothing in its way. -/
def Event.Own (i : ℕ) (secret : Secret) : Event → Prop
  | .read j secret' => j = i ∧ secret' = secret
  | .create j | .write j _ | .newline j | .reread j => j = i
  | .call | .readFails _ _ | .crash _ => False

/-- A later call that runs alone, and what it returns and leaves. -/
def Alone (s : State) (secret : Secret) (result : Except TunnelError String) (file : Option Text) : Prop :=
  ∃ es s', (∀ e ∈ es, e.Own s.calls.length secret) ∧ runs (step c) s (.call :: es) = some s' ∧
    s'.calls[s.calls.length]? = some ⟨.done result, false⟩ ∧ s'.file = file

/-- A later call that runs alone returns the public key of the key then in the file. -/
def Recovers (s : State) : Prop :=
  ∀ secret, ∃ pubkey text, derivePublicKey c (key text) = .ok pubkey ∧
    ∀ result file, Alone c s secret result file ↔ result = .ok pubkey ∧ file = some text

/-- It created the file, and has not written the whole key. -/
def Call.Unfinished (call : Call) : Prop := ∃ secret left, call.phase = .writing secret left ∧ left ≠ []

/-! ## Keys and their texts -/

variable {c} {s s' : State} {e : Event} {es : List Event} {i j : ℕ} {call call' : Call}
  {phase phase' : Phase} {secret secret' : Secret} {text left : Text} {file : Option Text}
  {result : Except TunnelError String}

theorem dropWhile_of_forall {p : Char → Bool} (h : ∀ ch ∈ text, p ch = false) : text.dropWhile p = text := by
  cases text with
  | nil => rfl
  | cons ch text => rw [List.dropWhile_cons_of_neg (by simp [h ch List.mem_cons_self])]

/-- A text without whitespace is its own key. -/
theorem key_of_forall (h : ∀ ch ∈ text, isWhitespace ch = false) : key text = String.ofList text := by
  unfold key trim
  rw [String.toList_ofList, dropWhile_of_forall h, dropWhile_of_forall, List.reverse_reverse]
  exact fun ch hch => h ch (List.mem_reverse.mp hch)

/-- So it is with a newline at its end. -/
theorem key_newline (h : ∀ ch ∈ text, isWhitespace ch = false) (hne : text ≠ []) :
    key (text ++ ['\n']) = String.ofList text := by
  obtain ⟨ch, text, rfl⟩ := List.exists_cons_of_ne_nil hne
  have hnewline : isWhitespace '\n' = true := by decide
  unfold key trim
  rw [String.toList_ofList, List.cons_append, List.dropWhile_cons_of_neg (by simp [h ch List.mem_cons_self]),
    ← List.cons_append, List.reverse_append, List.reverse_singleton, List.singleton_append,
    List.dropWhile_cons_of_pos hnewline, dropWhile_of_forall, List.reverse_reverse]
  exact fun ch' hch => h ch' (List.mem_reverse.mp hch)

/-- No character of base64 is whitespace. -/
theorem not_whitespace {ch : Char} (h : ch.isAlphanum = true ∨ ch = '+' ∨ ch = '/' ∨ ch = '=') :
    isWhitespace ch = false := by
  by_contra hws
  have hmem := of_decide_eq_true (Bool.eq_true_of_not_eq_false hws)
  have hnone : ∀ n ∈ [0x09, 0x0a, 0x0b, 0x0c, 0x0d, 0x20, 0x85, 0xa0, 0x1680, 0x2000, 0x2001, 0x2002,
      0x2003, 0x2004, 0x2005, 0x2006, 0x2007, 0x2008, 0x2009, 0x200a, 0x2028, 0x2029, 0x202f, 0x205f,
      0x3000], ¬((Char.ofNat n).isAlphanum = true ∨ Char.ofNat n = '+' ∨ Char.ofNat n = '/' ∨
        Char.ofNat n = '=') := by
    decide
  refine hnone ch.toNat hmem ?_
  rwa [Char.ofNat_toNat]

section Texts

variable (hc : c.Documented)

include hc

theorem keyText_spec {ch : Char} (h : ch ∈ keyText c secret) : isWhitespace ch = false :=
  not_whitespace (hc.alphabet _ ch h)

theorem length_keyText (secret : Secret) : (keyText c secret).length = 44 := by
  show (c.b64Encode secret).toList.length = 44
  rw [hc.length_encode, secret.2]

theorem keyText_ne_nil (secret : Secret) : keyText c secret ≠ [] := by
  intro h
  have := length_keyText hc secret
  rw [h] at this
  cases this

/-- The key of a secret gives its public key. -/
theorem derivePublicKey_keyText (secret : Secret) :
    derivePublicKey c (String.ofList (keyText c secret)) = .ok (pubkey c secret) := by
  have hkey : String.ofList (keyText c secret) = c.b64Encode secret := String.ofList_toList
  unfold derivePublicKey
  rw [hkey, hc.decode_encode]
  exact if_pos secret.2

/-- The beginning of a key is its own key. -/
theorem key_of_append (h : text ++ left = keyText c secret) : key text = String.ofList text :=
  key_of_forall fun _ hch => keyText_spec hc (h ▸ List.mem_append_left _ hch)

theorem key_ended (secret : Secret) : key (keyText c secret ++ ['\n']) = String.ofList (keyText c secret) :=
  key_newline (fun _ => keyText_spec hc) (keyText_ne_nil hc secret)

/-- **The beginning of a key is no key.** -/
theorem left_eq_nil_of_derive {pub : String} (h : text ++ left = keyText c secret)
    (hderive : derivePublicKey c (key text) = .ok pub) : left = [] := by
  rw [key_of_append hc h] at hderive
  unfold derivePublicKey at hderive
  split at hderive
  · cases hderive
  · case h_2 bytes hdecode =>
    split_ifs at hderive with hbytes
    have htext := hc.length_of_decode _ _ hdecode
    have hkey := congrArg List.length h
    rw [String.toList_ofList, hbytes] at htext
    rw [List.length_append, length_keyText hc] at hkey
    exact List.eq_nil_of_length_eq_zero (by omega)

end Texts

/-! ## What one action does -/

variable (c) in
/-- What the actions of one call do to the file and to the call. -/
inductive Move : Option Text → Phase → Option Text → Phase → Prop where
  | found {file : Option Text} {key : String} (h : readKey file = some key) :
      Move file .reading file (.done (persisted c key))
  | generated {file : Option Text} (secret : Secret) : Move file .reading file (.creating secret)
  | created (secret : Secret) :
      Move none (.creating secret) (some []) (.writing secret (keyText c secret))
  | lost (secret : Secret) (text : Text) : Move (some text) (.creating secret) (some text) .rereading
  | wrote (secret : Secret) (text left : Text) (n : ℕ) :
      Move (some text) (.writing secret left) (some (text ++ left.take n)) (.writing secret (left.drop n))
  | ended (secret : Secret) (text : Text) :
      Move (some text) (.writing secret []) (some (text ++ ['\n'])) (.done (.ok (pubkey c secret)))
  | reread (text : Text) : Move (some text) .rereading (some text) (.done (persisted c (key text)))
  | gone : Move none .rereading none (.done (.error .io))
  | crashed {file : Option Text} {phase : Phase} : Move file phase file phase

/-- **What an action can do**: a new call begins, or one call moves. -/
theorem step_cases (hstep : step c s e = some s') :
    (s'.file = s.file ∧ s'.calls = s.calls ++ [⟨.reading, false⟩]) ∨
    ∃ (i : ℕ) (call call' : Call), s.calls[i]? = some call ∧ s'.calls = s.calls.set i call' ∧
      Move c s.file call.phase s'.file call'.phase := by
  cases e with
  | call =>
    cases hstep
    exact .inl ⟨rfl, rfl⟩
  | read i secret =>
    dsimp only [step] at hstep
    split at hstep
    · case h_1 hi =>
      cases hstep
      refine .inr ⟨i, _, _, hi, rfl, ?_⟩
      show Move c s.file .reading s.file _
      split
      · case h_1 key hkey => exact .found hkey
      · exact .generated secret
    · cases hstep
  | readFails i secret =>
    dsimp only [step] at hstep
    split at hstep
    · case h_1 hi =>
      cases hstep
      exact .inr ⟨i, _, _, hi, rfl, .generated secret⟩
    · cases hstep
  | create i =>
    dsimp only [step] at hstep
    split at hstep
    · case h_1 secret hi =>
      split at hstep
      · case h_1 hfile =>
        cases hstep
        exact .inr ⟨i, _, _, hi, rfl, hfile ▸ .created secret⟩
      · case h_2 text hfile =>
        cases hstep
        refine .inr ⟨i, _, ⟨.rereading, false⟩, hi, rfl, ?_⟩
        show Move c s.file (.creating secret) (some text) .rereading
        rw [hfile]
        exact .lost secret text
    · cases hstep
  | write i n =>
    dsimp only [step] at hstep
    split at hstep
    · case h_1 secret left text hi hfile =>
      cases hstep
      exact .inr ⟨i, _, _, hi, rfl, hfile ▸ .wrote secret text left n⟩
    · cases hstep
  | newline i =>
    dsimp only [step] at hstep
    split at hstep
    · case h_1 secret text hi hfile =>
      cases hstep
      exact .inr ⟨i, _, _, hi, rfl, hfile ▸ .ended secret text⟩
    · cases hstep
  | reread i =>
    dsimp only [step] at hstep
    split at hstep
    · case h_1 hi =>
      cases hstep
      refine .inr ⟨i, _, _, hi, rfl, ?_⟩
      show Move c s.file .rereading s.file _
      split
      · case h_1 hfile => exact hfile ▸ .gone
      · case h_2 text hfile => exact hfile ▸ .reread text
    · cases hstep
  | crash i =>
    dsimp only [step] at hstep
    split at hstep
    · case h_1 phase hi =>
      cases hstep
      exact .inr ⟨i, _, _, hi, rfl, .crashed⟩
    · cases hstep

/-! ## Whose key is in the file -/

def Phase.Writing (phase : Phase) : Prop := ∃ secret left, phase = .writing secret left

/-- Nothing is there yet. -/
structure Absent (s : State) : Prop where
  file : s.file = none
  early : ∀ call ∈ s.calls, call.phase = .reading ∨ ∃ secret, call.phase = .creating secret

variable (c) in
/-- The file holds the key of a secret, as far as its call has written it. -/
structure Holding (secret : Secret) (s : State) (text : Text) : Prop where
  file : s.file = some text
  writing : ∀ (i : ℕ) (call : Call), s.calls[i]? = some call → ∀ secret' left,
    call.phase = .writing secret' left → secret' = secret ∧ text ++ left = keyText c secret
  /-- One call writes at most. -/
  single : ∀ (i j : ℕ) (call call' : Call), s.calls[i]? = some call → s.calls[j]? = some call' →
    call.phase.Writing → call'.phase.Writing → i = j
  ended : text = keyText c secret ++ ['\n'] ∨
    ∃ (i : ℕ) (call : Call), s.calls[i]? = some call ∧ call.phase.Writing
  /-- Who returned a public key returned that of the key in the file, which is whole. -/
  returned : ∀ (i : ℕ) (call : Call), s.calls[i]? = some call → ∀ pub, call.phase = .done (.ok pub) →
    pub = pubkey c secret ∧ keyText c secret <+: text

theorem absent_init : Absent .init := ⟨rfl, nofun⟩

/-- The key in the file, as long as it is not whole, and when it is. -/
theorem Holding.text_cases (h : Holding c secret s text) :
    text = keyText c secret ++ ['\n'] ∨ ∃ left, text ++ left = keyText c secret := by
  rcases h.ended with htext | ⟨i, call, hi, secret', left, hphase⟩
  · exact .inl htext
  · exact .inr ⟨left, (h.writing i call hi secret' left hphase).2⟩

/-- A call that does not write goes on. -/
theorem Holding.keep (h : Holding c secret s text) (hi : s.calls[i]? = some call)
    (hcalls : s'.calls = s.calls.set i call') (hfile : s'.file = some text) (hold : ¬call.phase.Writing)
    (hnew : ¬call'.phase.Writing)
    (hret : ∀ pub, call'.phase = .done (.ok pub) → pub = pubkey c secret ∧ keyText c secret <+: text) :
    Holding c secret s' text := by
  have hget (j : ℕ) : s'.calls[j]? = if j = i then some call' else s.calls[j]? := by
    rw [hcalls, getElem?_set_of_some hi]
  have hother (j : ℕ) (u : Call) (hj : s'.calls[j]? = some u) (hu : u.phase.Writing) :
      s.calls[j]? = some u := by
    rw [hget] at hj
    split_ifs at hj
    · cases hj
      exact absurd hu hnew
    · exact hj
  refine ⟨hfile, fun j u hj secret' left hu => ?_, fun j k u v hj hk hu hv => ?_, ?_, fun j u hj => ?_⟩
  · exact h.writing j u (hother j u hj ⟨secret', left, hu⟩) secret' left hu
  · exact h.single j k u v (hother j u hj hu) (hother k v hk hv) hu hv
  · refine h.ended.imp_right fun ⟨j, u, hj, hu⟩ => ⟨j, u, ?_, hu⟩
    have hji : j ≠ i := by
      rintro rfl
      cases hi.symm.trans hj
      exact hold hu
    rw [hget, if_neg hji, hj]
  · rw [hget] at hj
    split_ifs at hj
    · cases hj
      exact hret
    · exact h.returned j u hj

/-- The call that writes goes on. -/
theorem Holding.write (h : Holding c secret s text) (hi : s.calls[i]? = some call)
    (hcalls : s'.calls = s.calls.set i call') {n : ℕ} (hfile : s'.file = some (text ++ left.take n))
    (hold : call.phase = .writing secret' left) (hnew : call'.phase = .writing secret' (left.drop n)) :
    Holding c secret s' (text ++ left.take n) := by
  have hget (j : ℕ) : s'.calls[j]? = if j = i then some call' else s.calls[j]? := by
    rw [hcalls, getElem?_set_of_some hi]
  obtain ⟨rfl, hleft⟩ := h.writing i call hi secret' left hold
  -- the other calls do not write
  have hother (j : ℕ) (u : Call) (hj : s'.calls[j]? = some u) (hu : u.phase.Writing) : j = i := by
    by_contra hji
    rw [hget, if_neg hji] at hj
    exact hji (h.single j i u call hj hi hu ⟨secret', left, hold⟩)
  refine ⟨hfile, fun j u hj secret'' left' hu => ?_, fun j k u v hj hk hu hv => ?_, ?_, fun j u hj => ?_⟩
  · cases hother j u hj ⟨secret'', left', hu⟩
    rw [hget, if_pos rfl] at hj
    cases hj
    cases hnew.symm.trans hu
    exact ⟨rfl, by rw [List.append_assoc, List.take_append_drop, hleft]⟩
  · rw [hother j u hj hu, hother k v hk hv]
  · exact .inr ⟨i, call', by rw [hget, if_pos rfl], secret', _, hnew⟩
  · intro pub hu
    rw [hget] at hj
    split_ifs at hj
    · cases hj
      cases hnew.symm.trans hu
    · obtain ⟨hpub, hpre⟩ := h.returned j u hj pub hu
      exact ⟨hpub, hpre.trans (List.prefix_append _ _)⟩

/-- The call that wrote the key ends the line, and returns. -/
theorem Holding.endLine (h : Holding c secret s text) (hi : s.calls[i]? = some call)
    (hcalls : s'.calls = s.calls.set i call') (hfile : s'.file = some (text ++ ['\n']))
    (hold : call.phase = .writing secret' []) (hnew : call'.phase = .done (.ok (pubkey c secret'))) :
    Holding c secret s' (text ++ ['\n']) := by
  have hget (j : ℕ) : s'.calls[j]? = if j = i then some call' else s.calls[j]? := by
    rw [hcalls, getElem?_set_of_some hi]
  obtain ⟨rfl, hleft⟩ := h.writing i call hi secret' [] hold
  rw [List.append_nil] at hleft
  have hnone (j : ℕ) (u : Call) (hj : s'.calls[j]? = some u) : ¬u.phase.Writing := by
    rintro ⟨secret'', left', hu⟩
    rw [hget] at hj
    split_ifs at hj with hji
    · cases hj
      cases hnew.symm.trans hu
    · exact hji (h.single j i u call hj hi ⟨secret'', left', hu⟩ ⟨secret', [], hold⟩)
  refine ⟨hfile, fun j u hj secret'' left' hu => absurd ⟨secret'', left', hu⟩ (hnone j u hj),
    fun j k u v hj hk hu => absurd hu (hnone j u hj), .inl (by rw [hleft]), fun j u hj pub hu => ?_⟩
  rw [hget] at hj
  split_ifs at hj
  · cases hj
    cases hnew.symm.trans hu
    exact ⟨rfl, hleft ▸ List.prefix_append _ _⟩
  · obtain ⟨hpub, hpre⟩ := h.returned j u hj pub hu
    exact ⟨hpub, hpre.trans (List.prefix_append _ _)⟩

/-- A new call has nothing yet. -/
theorem Holding.begins (h : Holding c secret s text) (hfile : s'.file = s.file)
    (hcalls : s'.calls = s.calls ++ [⟨.reading, false⟩]) : Holding c secret s' text := by
  have hget {j : ℕ} {u : Call} (hj : s'.calls[j]? = some u) :
      s.calls[j]? = some u ∨ u = ⟨.reading, false⟩ := by
    rw [hcalls] at hj
    exact (getElem?_concat_cases hj).imp_right And.right
  have hother {j : ℕ} {u : Call} (hj : s'.calls[j]? = some u) (hu : u.phase.Writing) :
      s.calls[j]? = some u := by
    refine (hget hj).resolve_right ?_
    rintro rfl
    obtain ⟨secret', left, hu⟩ := hu
    cases hu
  refine ⟨hfile.trans h.file, fun j u hj secret' left hu =>
    h.writing j u (hother hj ⟨secret', left, hu⟩) secret' left hu, fun j k u v hj hk hu hv =>
    h.single j k u v (hother hj hu) (hother hk hv) hu hv, ?_, fun j u hj pub hu => ?_⟩
  · refine h.ended.imp_right fun ⟨j, u, hj, hu⟩ => ⟨j, u, ?_, hu⟩
    rw [hcalls, List.getElem?_append_left (List.getElem?_eq_some_iff.mp hj).1, hj]
  · rcases hget hj with hj | rfl
    · exact h.returned j u hj pub hu
    · cases hu

/-- The first call that creates the file decides whose key it is. -/
theorem Absent.step (h : Absent s) (hstep : step c s e = some s') :
    Absent s' ∨ ∃ secret text, Holding c secret s' text := by
  have hearly (u : Call) (hu : u ∈ s.calls) : ¬u.phase.Writing ∧ ∀ r, u.phase ≠ .done r := by
    constructor
    · rintro ⟨_, _, hw⟩
      rcases h.early u hu with hphase | ⟨_, hphase⟩ <;> cases hphase.symm.trans hw
    · intro r hd
      rcases h.early u hu with hphase | ⟨_, hphase⟩ <;> cases hphase.symm.trans hd
  rcases step_cases hstep with ⟨hfile, hcalls⟩ | ⟨i, call, call', hi, hcalls, hmove⟩
  · refine .inl ⟨hfile.trans h.file, fun u hu => ?_⟩
    rw [hcalls, List.mem_append, List.mem_singleton] at hu
    rcases hu with hu | rfl
    · exact h.early u hu
    · exact .inl rfl
  · have hcall := h.early call (List.mem_of_getElem? hi)
    have hkeep (hfile : s'.file = none)
        (hnew : call'.phase = .reading ∨ ∃ secret, call'.phase = .creating secret) : Absent s' := by
      refine ⟨hfile, fun u hu => ?_⟩
      rw [hcalls] at hu
      rcases List.mem_or_eq_of_mem_set hu with hu | rfl
      · exact h.early u hu
      · exact hnew
    rw [h.file] at hmove
    generalize hfile : s'.file = file' at hmove
    generalize hold : call.phase = phase at hmove hcall
    generalize hnew : call'.phase = phase' at hmove
    cases hmove with
    | found hkey => cases hkey
    | generated secret => exact .inl (hkeep hfile (.inr ⟨secret, hnew⟩))
    | crashed => exact .inl (hkeep hfile (hnew ▸ hcall))
    | gone => rcases hcall with hcall | ⟨_, hcall⟩ <;> cases hcall
    | created secret =>
      have hget (j : ℕ) : s'.calls[j]? = if j = i then some call' else s.calls[j]? := by
        rw [hcalls, getElem?_set_of_some hi]
      have hother (j : ℕ) (u : Call) (hj : s'.calls[j]? = some u)
          (hu : u.phase.Writing ∨ ∃ r, u.phase = .done r) : j = i ∧ u = call' := by
        rw [hget] at hj
        split_ifs at hj with hji
        · exact ⟨hji, (Option.some.inj hj).symm⟩
        · obtain ⟨hw, hd⟩ := hearly u (List.mem_of_getElem? hj)
          rcases hu with hu | ⟨r, hu⟩
          · exact absurd hu hw
          · exact absurd hu (hd r)
      refine .inr ⟨secret, [], hfile, fun j u hj secret' left hu => ?_, fun j k u v hj hk hu hv => ?_, ?_,
        fun j u hj pub hu => ?_⟩
      · obtain ⟨-, rfl⟩ := hother j u hj (.inl ⟨secret', left, hu⟩)
        cases hnew.symm.trans hu
        exact ⟨rfl, rfl⟩
      · rw [(hother j u hj (.inl hu)).1, (hother k v hk (.inl hv)).1]
      · exact .inr ⟨i, call', by rw [hget, if_pos rfl], secret, _, hnew⟩
      · obtain ⟨-, rfl⟩ := hother j u hj (.inr ⟨_, hu⟩)
        cases hnew.symm.trans hu

section Invariant

variable (hc : c.Documented)

include hc

/-- **When a key is derived from the file**: when it is whole. -/
theorem Holding.derive_iff (h : Holding c secret s text) {pub : String} :
    derivePublicKey c (key text) = .ok pub ↔ pub = pubkey c secret ∧ keyText c secret <+: text := by
  have hwhole : key text = String.ofList (keyText c secret) →
      (derivePublicKey c (key text) = .ok pub ↔ pub = pubkey c secret) := fun hkey => by
    rw [hkey, derivePublicKey_keyText hc, Except.ok.injEq, eq_comm]
  rcases h.text_cases with rfl | ⟨left, hleft⟩
  · rw [hwhole (key_ended hc secret)]
    exact (and_iff_left (List.prefix_append _ _)).symm
  · constructor
    · intro hderive
      have hnil := left_eq_nil_of_derive hc hleft hderive
      rw [hnil, List.append_nil] at hleft
      rw [hwhole (hleft ▸ key_of_append hc (List.append_nil _ |>.trans hleft))] at hderive
      exact ⟨hderive, hleft ▸ List.prefix_rfl⟩
    · rintro ⟨rfl, hpre⟩
      have htext : text = keyText c secret :=
        List.IsPrefix.eq_of_length_le ⟨left, hleft⟩ hpre.length_le
      rw [key_of_forall (htext ▸ fun _ => keyText_spec hc), htext, derivePublicKey_keyText hc]

theorem Holding.persisted_iff (h : Holding c secret s text) {pub : String} :
    persisted c (key text) = .ok pub ↔ pub = pubkey c secret ∧ keyText c secret <+: text := by
  rw [← h.derive_iff hc]
  unfold persisted
  cases derivePublicKey c (key text) <;> simp [Except.mapError]

/-- **The key in the file stays**, and only grows until it is whole. -/
theorem Holding.step (h : Holding c secret s text) (hstep : step c s e = some s') :
    ∃ text', Holding c secret s' text' ∧ text <+: text' := by
  rcases step_cases hstep with ⟨hfile, hcalls⟩ | ⟨i, call, call', hi, hcalls, hmove⟩
  · exact ⟨text, h.begins hfile hcalls, List.prefix_rfl⟩
  · rw [h.file] at hmove
    generalize hfile : s'.file = file' at hmove
    generalize hold : call.phase = phase at hmove
    generalize hnew : call'.phase = phase' at hmove
    cases hmove with
    | found hkey =>
      refine ⟨text, h.keep hi hcalls hfile ?_ ?_ fun pub hpub => ?_, List.prefix_rfl⟩
      · rintro ⟨_, _, hw⟩
        cases hold.symm.trans hw
      · rintro ⟨_, _, hw⟩
        cases hnew.symm.trans hw
      · obtain ⟨-, hkey⟩ := Option.ite_none_left_eq_some.mp hkey
        cases hkey
        exact (h.persisted_iff hc).mp (Phase.done.inj (hnew.symm.trans hpub))
    | generated | lost =>
      refine ⟨text, h.keep hi hcalls hfile ?_ ?_ fun pub hpub => ?_, List.prefix_rfl⟩
      · rintro ⟨_, _, hw⟩
        cases hold.symm.trans hw
      · rintro ⟨_, _, hw⟩
        cases hnew.symm.trans hw
      · cases hnew.symm.trans hpub
    | wrote secret' text left n => exact ⟨_, h.write hi hcalls hfile hold hnew, List.prefix_append _ _⟩
    | ended secret' text => exact ⟨_, h.endLine hi hcalls hfile hold hnew, List.prefix_append _ _⟩
    | reread text =>
      refine ⟨text, h.keep hi hcalls hfile ?_ ?_ fun pub hpub => ?_, List.prefix_rfl⟩
      · rintro ⟨_, _, hw⟩
        cases hold.symm.trans hw
      · rintro ⟨_, _, hw⟩
        cases hnew.symm.trans hw
      · exact (h.persisted_iff hc).mp (Phase.done.inj (hnew.symm.trans hpub))
    | crashed =>
      by_cases hw : phase.Writing
      · obtain ⟨secret', left, rfl⟩ := hw
        have hwrite : Holding c secret s' (text ++ left.take 0) :=
          h.write hi hcalls (by rw [hfile, List.take_zero, List.append_nil]) hold hnew
        exact ⟨_, hwrite, List.prefix_append _ _⟩
      · refine ⟨text, h.keep hi hcalls hfile (hold ▸ hw) (hnew ▸ hw) fun pub hpub => ?_, List.prefix_rfl⟩
        exact h.returned i call hi pub (hold.trans (hnew.symm.trans hpub))

/-- Every run is without a file at first, and with the key of one secret after. -/
theorem inv_runs (h : runs (Keypair.step c) .init es = some s) :
    Absent s ∨ ∃ secret text, Holding c secret s text := by
  refine runs_invariant (fun s => Absent s ∨ ∃ secret text, Holding c secret s text) ?_
    (.inl absent_init) h
  rintro s e s' (hs | ⟨secret, text, hs⟩) hstep
  · exact hs.step hstep
  · obtain ⟨text', hs', -⟩ := hs.step hc hstep
    exact .inr ⟨secret, text', hs'⟩

/-! ## Later calls -/

/-- **What later calls return**, once the key in the file is whole: its public key. -/
theorem Holding.later_runs (h : Holding c secret s text) (hwhole : keyText c secret <+: text)
    (hrun : runs (Keypair.step c) s es = some s') :
    (∃ text', Holding c secret s' text' ∧ text <+: text') ∧
      ∀ (j : ℕ) (call : Call), s.calls.length ≤ j → s'.calls[j]? = some call →
        ∀ r, call.phase = .done r → r = .ok (pubkey c secret) := by
  refine runs_invariant (fun s' => (∃ text', Holding c secret s' text' ∧ text <+: text') ∧
      ∀ (j : ℕ) (call : Call), s.calls.length ≤ j → s'.calls[j]? = some call →
        ∀ r, call.phase = .done r → r = .ok (pubkey c secret)) ?_
    ⟨⟨text, h, List.prefix_rfl⟩, fun j call hj hcall => ?_⟩ hrun
  · rintro s e s' ⟨⟨text', hs, hpre⟩, hlater⟩ hstep
    obtain ⟨text'', hs', hpre'⟩ := hs.step hc hstep
    refine ⟨⟨text'', hs', hpre.trans hpre'⟩, fun j u hj hu r hr => ?_⟩
    have hpersisted : persisted c (key text') = .ok (pubkey c secret) :=
      (hs.persisted_iff hc).mpr ⟨rfl, hwhole.trans hpre⟩
    rcases step_cases hstep with ⟨-, hcalls⟩ | ⟨i, call, call', hi, hcalls, hmove⟩
    · rw [hcalls] at hu
      rcases getElem?_concat_cases hu with hu | ⟨-, rfl⟩
      · exact hlater j u hj hu r hr
      · cases hr
    · rw [hcalls, getElem?_set_of_some hi] at hu
      split_ifs at hu with hji
      · cases hu
        rw [hs.file] at hmove
        generalize s'.file = file' at hmove
        generalize hold : call.phase = phase at hmove
        rw [hr] at hmove
        cases hmove with
        | found hkey =>
          obtain ⟨-, hkey⟩ := Option.ite_none_left_eq_some.mp hkey
          cases hkey
          exact hpersisted
        | ended secret' text => rw [(hs.writing i call hi secret' [] hold).1]
        | reread text => exact hpersisted
        | crashed => exact hlater j call hj (hji ▸ hi) r hold
      · exact hlater j u hj hu r hr
  · rw [List.getElem?_eq_none hj] at hcall
    cases hcall

end Invariant

/-! ## A call alone -/

theorem ensureKeypair_some : ensureKeypair c secret (some text) = (persisted c (key text), some text) := by
  unfold ensureKeypair
  split
  · case h_1 key hkey =>
    obtain ⟨-, hkey⟩ := Option.ite_none_left_eq_some.mp hkey
    cases hkey
    rfl
  · rfl

variable (c) in
/-- How far one call alone has come. -/
inductive Toward (secret : Secret) : Option Text → Phase → Option Text → Prop where
  | reading {file : Option Text} : Toward secret file .reading file
  | creating {file : Option Text} (h : readKey file = none) : Toward secret file (.creating secret) file
  | writing {text left : Text} (h : text ++ left = keyText c secret) :
      Toward secret none (.writing secret left) (some text)
  | rereading {text : Text} : Toward secret (some text) .rereading (some text)
  | done {file : Option Text} :
      Toward secret file (.done (ensureKeypair c secret file).1) (ensureKeypair c secret file).2

theorem calls_setPhase (hi : s.calls[i]? = some call) :
    (s.setPhase i file phase).calls[i]? = some ⟨phase, false⟩ :=
  (getElem?_set_of_some hi).trans (if_pos rfl)

theorem Toward.ensured {file' : Option Text} (h : Toward c secret file (.done result) file') :
    (result, file') = ensureKeypair c secret file := by
  cases h
  rfl

/-- One own action of a call. -/
theorem Toward.step (hi : s.calls[i]? = some ⟨phase, false⟩) (h : Toward c secret file phase s.file)
    (he : e.Own i secret) (hstep : step c s e = some s') :
    ∃ phase', s'.calls[i]? = some ⟨phase', false⟩ ∧ Toward c secret file phase' s'.file := by
  generalize hfile : s.file = file' at h
  cases e with
  | call | readFails | crash => cases he
  | read j secret' =>
    obtain ⟨rfl, rfl⟩ := he
    simp only [Keypair.step, hi] at hstep
    cases h with
    | reading =>
      cases hstep
      refine ⟨_, calls_setPhase hi, ?_⟩
      show Toward c _ file _ s.file
      rw [hfile]
      cases hkey : readKey file with
      | some key =>
        have hensure : ensureKeypair c secret' file = (persisted c key, file) := by
          unfold ensureKeypair
          rw [hkey]
        have hdone : Toward c secret' file (.done (ensureKeypair c secret' file).1)
            (ensureKeypair c secret' file).2 := .done
        rw [hensure] at hdone
        exact hdone
      | none => exact .creating hkey
    | creating | writing | rereading | done => cases hstep
  | create j =>
    cases he
    simp only [Keypair.step, hi] at hstep
    cases h with
    | creating hkey =>
      cases file with
      | none =>
        simp only [hfile] at hstep
        cases hstep
        exact ⟨_, calls_setPhase hi, .writing rfl⟩
      | some text =>
        simp only [hfile] at hstep
        cases hstep
        exact ⟨_, calls_setPhase hi, .rereading⟩
    | reading | writing | rereading | done => cases hstep
  | write j n =>
    cases he
    simp only [Keypair.step, hi] at hstep
    cases h with
    | writing htext =>
      simp only [hfile] at hstep
      cases hstep
      refine ⟨_, calls_setPhase hi, .writing ?_⟩
      rw [List.append_assoc, List.take_append_drop, htext]
    | reading | creating | rereading | done => cases hstep
  | newline j =>
    cases he
    simp only [Keypair.step, hi] at hstep
    cases h with
    | @writing text left htext =>
      cases left with
      | nil =>
        simp only [hfile] at hstep
        cases hstep
        refine ⟨_, calls_setPhase hi, ?_⟩
        rw [List.append_nil] at htext
        show Toward c secret none _ (some (text ++ ['\n']))
        rw [htext]
        exact .done
      | cons ch left => cases hstep
    | reading | creating | rereading | done => cases hstep
  | reread j =>
    cases he
    simp only [Keypair.step, hi] at hstep
    cases h with
    | @rereading text =>
      cases hstep
      refine ⟨_, calls_setPhase hi, ?_⟩
      show Toward c secret (some text) _ s.file
      rw [hfile]
      have hdone : Toward c secret (some text) (.done (ensureKeypair c secret (some text)).1)
          (ensureKeypair c secret (some text)).2 := .done
      rw [ensureKeypair_some] at hdone
      exact hdone
    | reading | creating | writing | done => cases hstep

/-- A call that nothing disturbs ends. -/
theorem exists_ends (hi : s.calls[i]? = some ⟨.reading, false⟩) (secret : Secret) :
    ∃ es s' result, (∀ e ∈ es, e.Own i secret) ∧ runs (step c) s es = some s' ∧
      s'.calls[i]? = some ⟨.done result, false⟩ := by
  cases hkey : readKey s.file with
  | some key =>
    have hread : step c s (.read i secret) = some (s.setPhase i s.file (.done (persisted c key))) := by
      simp only [step, hi, hkey]
    refine ⟨[.read i secret], _, _, ?_, runs_cons.mpr ⟨_, hread, rfl⟩, calls_setPhase hi⟩
    rintro e he
    cases List.mem_singleton.mp he
    exact ⟨rfl, rfl⟩
  | none =>
    have hread : step c s (.read i secret) = some (s.setPhase i s.file (.creating secret)) := by
      simp only [step, hi, hkey]
    have hi₁ : (s.setPhase i s.file (.creating secret)).calls[i]? = some ⟨.creating secret, false⟩ :=
      calls_setPhase hi
    cases hfile : s.file with
    | none =>
      -- it creates the file, and writes the whole key at once
      let s₂ := (s.setPhase i s.file (.creating secret)).setPhase i (some [])
        (.writing secret (keyText c secret))
      have hcreate : step c (s.setPhase i s.file (.creating secret)) (.create i) = some s₂ := by
        simp only [step, hi₁]
        simp only [State.setPhase, hfile, s₂]
      have hi₂ : s₂.calls[i]? = some ⟨.writing secret (keyText c secret), false⟩ := calls_setPhase hi₁
      let s₃ := s₂.setPhase i (some (keyText c secret)) (.writing secret [])
      have hwrite : step c s₂ (.write i (keyText c secret).length) = some s₃ := by
        simp only [step, hi₂]
        simp only [s₂, s₃, State.setPhase, List.nil_append, List.take_length, List.drop_length]
      have hi₃ : s₃.calls[i]? = some ⟨.writing secret [], false⟩ := calls_setPhase hi₂
      have hnewline : step c s₃ (.newline i) = some (s₃.setPhase i (some (keyText c secret ++ ['\n']))
          (.done (.ok (pubkey c secret)))) := by
        simp only [step, hi₃]
        simp only [s₃, State.setPhase]
      refine ⟨[.read i secret, .create i, .write i (keyText c secret).length, .newline i], _, _, ?_,
        runs_cons.mpr ⟨_, hread, runs_cons.mpr ⟨_, hcreate, runs_cons.mpr ⟨_, hwrite,
          runs_cons.mpr ⟨_, hnewline, rfl⟩⟩⟩⟩, calls_setPhase hi₃⟩
      simp [Event.Own]
    | some text =>
      let s₂ := (s.setPhase i s.file (.creating secret)).setPhase i (some text) .rereading
      have hcreate : step c (s.setPhase i s.file (.creating secret)) (.create i) = some s₂ := by
        simp only [step, hi₁]
        simp only [State.setPhase, hfile, s₂]
      have hi₂ : s₂.calls[i]? = some ⟨.rereading, false⟩ := calls_setPhase hi₁
      have hreread : step c s₂ (.reread i) =
          some (s₂.setPhase i (some text) (.done (persisted c (key text)))) := by
        simp only [step, hi₂]
        simp only [s₂, State.setPhase]
      refine ⟨[.read i secret, .create i, .reread i], _, _, ?_, runs_cons.mpr ⟨_, hread, runs_cons.mpr
        ⟨_, hcreate, runs_cons.mpr ⟨_, hreread, rfl⟩⟩⟩, calls_setPhase hi₂⟩
      simp [Event.Own]

/-- **A call alone does what `ensureKeypair` does.** -/
theorem alone_iff : Alone c s secret result file ↔ (result, file) = ensureKeypair c secret s.file := by
  let s₀ : State := ⟨s.file, s.calls ++ [⟨.reading, false⟩]⟩
  have hcall : step c s .call = some s₀ := rfl
  have hlast : s₀.calls[s.calls.length]? = some ⟨.reading, false⟩ := List.getElem?_concat_length
  have hends {es : List Event} {s' : State} {result : Except TunnelError String}
      (hown : ∀ e ∈ es, e.Own s.calls.length secret) (hrun : runs (step c) s₀ es = some s')
      (hdone : s'.calls[s.calls.length]? = some ⟨.done result, false⟩) :
      (result, s'.file) = ensureKeypair c secret s.file := by
    have hinit : ∃ phase, s₀.calls[s.calls.length]? = some ⟨phase, false⟩ ∧
        Toward c secret s.file phase s₀.file := ⟨.reading, hlast, .reading⟩
    obtain ⟨phase, hphase, htoward⟩ := runs_invariant_along
      (fun s' => ∃ phase, s'.calls[s.calls.length]? = some ⟨phase, false⟩ ∧
        Toward c secret s.file phase s'.file)
      (fun s₁ e s₂ ⟨phase, hi, h⟩ he hstep => h.step hi he hstep) hinit
      (along_of_forall fun e he _ => hown e he) hrun
    cases hdone.symm.trans hphase
    exact htoward.ensured
  constructor
  · rintro ⟨es, s', hown, hrun, hdone, rfl⟩
    obtain ⟨s₁, h₁, hrun⟩ := runs_cons.mp hrun
    cases hcall.symm.trans h₁
    exact hends hown hrun hdone
  · intro h
    obtain ⟨es, s', result', hown, hrun, hdone⟩ := exists_ends (c := c) (s := s₀) hlast secret
    have heq := (hends hown hrun hdone).trans h.symm
    cases heq
    exact ⟨es, s', hown, runs_cons.mpr ⟨_, hcall, hrun⟩, hdone, rfl⟩

/-! ## When a later call succeeds -/

/-- The key is whole if and only if no call is within writing it, or crashed there. -/
theorem Holding.whole_iff (h : Holding c secret s text) :
    keyText c secret <+: text ↔ ∀ call ∈ s.calls, ¬call.Unfinished := by
  constructor
  · rintro hwhole call hmem ⟨secret', left, hphase, hleft⟩
    obtain ⟨i, hi⟩ := List.getElem?_of_mem hmem
    obtain ⟨rfl, htext⟩ := h.writing i call hi secret' left hphase
    have hlength := congrArg List.length htext
    have hle := hwhole.length_le
    rw [List.length_append] at hlength
    exact hleft (List.eq_nil_of_length_eq_zero (by omega))
  · intro hfinished
    rcases h.ended with rfl | ⟨i, call, hi, secret', left, hphase⟩
    · exact List.prefix_append _ _
    · have hleft : left = [] := by
        by_contra hleft
        exact hfinished call (List.mem_of_getElem? hi) ⟨secret', left, hphase, hleft⟩
      obtain ⟨-, htext⟩ := h.writing i call hi secret' left hphase
      rw [hleft, List.append_nil] at htext
      exact htext ▸ List.prefix_rfl

section Recovery

variable (hc : c.Documented)

include hc

theorem recovers_of_absent (hs : Absent s) : Recovers c s := by
  intro secret
  refine ⟨pubkey c secret, keyText c secret ++ ['\n'], ?_, fun result file => ?_⟩
  · rw [key_ended hc, derivePublicKey_keyText hc]
  · rw [alone_iff, hs.file]
    exact Prod.mk_inj

/-- Where the file holds a key, a later call succeeds if and only if the key is whole. -/
theorem Holding.recovers_iff (h : Holding c secret s text) :
    Recovers c s ↔ keyText c secret <+: text := by
  constructor
  · intro hrecovers
    obtain ⟨pub, text', hderive, halone⟩ := hrecovers secret
    have hleaves := alone_iff.mp ((halone (.ok pub) (some text')).mpr ⟨rfl, rfl⟩)
    rw [h.file, ensureKeypair_some] at hleaves
    obtain ⟨-, hfile⟩ := Prod.mk_inj.mp hleaves
    cases hfile
    exact ((h.derive_iff hc).mp hderive).2
  · intro hwhole secret'
    have hpub : pubkey c secret = pubkey c secret ∧ keyText c secret <+: text := ⟨rfl, hwhole⟩
    refine ⟨pubkey c secret, text, (h.derive_iff hc).mpr hpub, fun result file => ?_⟩
    rw [alone_iff, h.file, ensureKeypair_some, (h.persisted_iff hc).mpr hpub]
    exact Prod.mk_inj

theorem recovers_iff (h : runs (step c) .init es = some s) :
    Recovers c s ↔ ∀ call ∈ s.calls, ¬call.Unfinished := by
  rcases inv_runs hc h with hs | ⟨secret, text, hs⟩
  · refine iff_of_true (recovers_of_absent hc hs) ?_
    rintro call hmem ⟨secret, left, hphase, -⟩
    rcases hs.early call hmem with hcall | ⟨_, hcall⟩ <;> cases hcall.symm.trans hphase
  · rw [hs.recovers_iff hc, hs.whole_iff]

end Recovery

/-! ## The keypair -/

/-- Base64, and the public key of one private key. -/
def sampleCrates : Crates where
  b64Decode text := Base64.decode text.toList
  b64Encode bytes := String.ofList (Base64.encode bytes)
  x25519 _ :=
    [0x85, 0x20, 0xf0, 0x09, 0x89, 0x30, 0xa7, 0x54, 0x74, 0x8b, 0x7d, 0xdc, 0xb4, 0x3e, 0xf7, 0x5a,
      0x0d, 0xbf, 0x3a, 0x0d, 0x26, 0x38, 0x1a, 0xf4, 0xeb, 0xa4, 0xa9, 0x8e, 0xaa, 0x9b, 0x4e, 0x6a]

theorem sampleCrates_documented : sampleCrates.Documented where
  decode_encode bytes := by
    show Base64.decode (String.ofList (Base64.encode bytes)).toList = some bytes
    rw [String.toList_ofList, Base64.decode_encode]
  length_encode bytes := by
    show (String.ofList (Base64.encode bytes)).toList.length = _
    rw [String.toList_ofList, Base64.length_encode]
  length_of_decode _ _ h := Base64.length_of_decode h
  alphabet bytes ch h := by
    have hmem : ch ∈ (String.ofList (Base64.encode bytes)).toList := h
    rw [String.toList_ofList] at hmem
    exact Base64.mem_encode hmem

/-- The private key that the public key of `sampleCrates` belongs to. -/
def sampleSecret : Secret :=
  ⟨[0x77, 0x07, 0x6d, 0x0a, 0x73, 0x18, 0xa5, 0x7d, 0x3c, 0x16, 0xc1, 0x72, 0x51, 0xb2, 0x66, 0x45,
    0xdf, 0x4c, 0x2f, 0x87, 0xeb, 0xc0, 0x99, 0x2a, 0xb1, 0x77, 0xfb, 0xa5, 0x1d, 0xb9, 0x2c, 0x2a], rfl⟩

/-- A call that crashes after it has created the file leaves it empty, and every later call fails. -/
theorem emptyKey : ∃ s, runs (step sampleCrates) .init
      [.call, .read 0 sampleSecret, .create 0, .crash 0] = some s ∧
    s.file = some [] ∧ Alone sampleCrates s sampleSecret (.error (.key .invalid)) (some []) ∧
    ¬Recovers sampleCrates s := by
  have hcrash : ∃ s, runs (step sampleCrates) .init
      [.call, .read 0 sampleSecret, .create 0, .crash 0] = some s ∧ s.file = some [] := ⟨_, rfl, rfl⟩
  obtain ⟨s, hs, hfile⟩ := hcrash
  have hderive : derivePublicKey sampleCrates (key []) = .error .invalid := rfl
  have halone : Alone sampleCrates s sampleSecret (.error (.key .invalid)) (some []) := by
    rw [alone_iff, hfile, ensureKeypair_some]
    unfold persisted
    rw [hderive]
    rfl
  refine ⟨s, hs, hfile, halone, fun hrecovers => ?_⟩
  obtain ⟨pub, text, -, hresult⟩ := hrecovers sampleSecret
  cases ((hresult _ _).mp halone).1

/-- **The keypair of a box**, whatever the order of the calls and wherever they crashed: a later call that
runs alone returns the public key of the key in the file, if and only if no call is between creating the
file and the end of its key, or crashed there; and once a public key was returned, the key in the file
stays, and every later call returns the same. -/
theorem ensureKeypair_iff (hc : c.Documented) (h : runs (step c) .init es = some s) :
    (Recovers c s ↔ ∀ call ∈ s.calls, ¬call.Unfinished) ∧
    ∀ call ∈ s.calls, ∀ pub, call.phase = .done (.ok pub) →
      ∀ es' s', runs (step c) s es' = some s' →
        (∃ text text', s.file = some text ∧ s'.file = some text' ∧ text <+: text' ∧
          derivePublicKey c (key text') = .ok pub) ∧
        ∀ (j : ℕ) (later : Call), s.calls.length ≤ j → s'.calls[j]? = some later →
          ∀ result, later.phase = .done result → result = .ok pub := by
  refine ⟨recovers_iff hc h, fun call hmem pub hphase es' s' hrun => ?_⟩
  obtain ⟨i, hi⟩ := List.getElem?_of_mem hmem
  rcases inv_runs hc h with hs | ⟨secret, text, hs⟩
  · rcases hs.early call hmem with hcall | ⟨_, hcall⟩ <;> cases hcall.symm.trans hphase
  · obtain ⟨rfl, hwhole⟩ := hs.returned i call hi pub hphase
    obtain ⟨⟨text', hs', hpre⟩, hlater⟩ := hs.later_runs hc hwhole hrun
    have hderive := (hs'.derive_iff hc).mpr ⟨rfl, hwhole.trans hpre⟩
    exact ⟨⟨text, text', hs.file, hs'.file, hpre, hderive⟩, hlater⟩

/-- One call that was not disturbed, and what a second one returns. -/
theorem ensureKeypair_iff_second : ∃ s, runs (step sampleCrates) .init
      [.call, .read 0 sampleSecret, .create 0, .write 0 44, .newline 0] = some s ∧
    Recovers sampleCrates s := by
  obtain ⟨s, hs⟩ : ∃ s, runs (step sampleCrates) .init
      [.call, .read 0 sampleSecret, .create 0, .write 0 44, .newline 0] = some s ∧
        ∀ call ∈ s.calls, ¬call.Unfinished := by
    refine ⟨_, rfl, fun call hmem => ?_⟩
    cases List.mem_singleton.mp hmem
    rintro ⟨_, _, hphase, -⟩
    cases hphase
  exact ⟨s, hs.1, (ensureKeypair_iff sampleCrates_documented hs.1).1.mpr hs.2⟩

end Keypair
end Client
end Cococoir
