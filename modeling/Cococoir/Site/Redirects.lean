import Cococoir.ControlPlane.Records
import Cococoir.Text.FormUrl
import Mathlib.Data.FinEnum
import Mathlib.Data.List.TakeWhile

/-!
# The redirects of the account pages

A post to the login page or to the resend page is answered with a redirect.  When the account is not
verified, or not known, the redirect carries the email that was submitted, so that the resend page can
fill it in.

* `loginLocation`, `resendLocation`: where the redirects point.
* `Plain`: the emails that survive the trip.
* `lostEmails`: some that do not.
* `redirects_iff`: a redirect that carries an email is right exactly when the email is plain.

## The trip of an email

The email is put into the text of a `Location` header, the browser follows it, and the resend page
decodes the query.  Three things can happen to it on the way.  A byte that no header value may
have makes the constructor fail, and the source expects it not to: a panic.  An ampersand or a
hash ends the value early.  And decoding changes a plus, and a percent sign with two digits.
`Plain` excludes each of them, and nothing else: a letter outside ASCII is several bytes from 128
on, which a header value may have, and comes back as it was.

That the emails without these are all that survive is the law about decoding in `Text.FormUrl`,
put after the law about cutting a query, `formPairs_last`.  Redirects without an email carry an
error token from a fixed table, whose entries are checked one by one.
-/

namespace Cococoir
namespace Site

open ControlPlane (AccountError ResendVerifyOutcome)
open FormUrl

/-! ## Model -/

/-- What the pages use of header values. -/
structure HeaderApi : Type 1 where
  HeaderValue : Type
  fromStr : String → Option HeaderValue
  asBytes : HeaderValue → List UInt8

/-- The bytes that may stand in a header value: all but the control characters, of which only the tab
may.  A letter outside ASCII is written with bytes above 127, and these may stand there too. -/
def IsValid (b : UInt8) : Prop := 32 ≤ b ∧ b ≠ 127 ∨ b = 9

instance (b : UInt8) : Decidable (IsValid b) := inferInstanceAs (Decidable (_ ∨ _))

/-- A text of such bytes is a header value, and no other is. -/
structure HeaderApi.Lawful (api : HeaderApi) : Prop where
  accepts : ∀ s, (∀ b ∈ utf8 s, IsValid b) → ∃ v, api.fromStr s = some v ∧ api.asBytes v = utf8 s
  rejects : ∀ s, ∀ b ∈ utf8 s, ¬IsValid b → api.fromStr s = none

/-- The value of a `Location` header; the error is a panic. -/
def locationHeader (api : HeaderApi) (value : String) : Except String api.HeaderValue :=
  match api.fromStr value with
  | some v => .ok v
  | none => .error "redirect location is a valid header value"

/-- The short token of an account error. -/
def errorCode : AccountError → String
  | .notVerified _ => "needs_verify"
  | .duplicateEmail _ => "exists"
  | .notFound => "unknown"
  | .invalidCredentials => "bad_credentials"
  | .invalidToken => "invalid_token"
  | .mail _ => "mail_failed"
  | .invalidEmail _ | .invalidPassword _ | .corrupt _ | .redis _ => "failed"

inductive LoginOutcome : Type where
  /-- The session token goes into a cookie. -/
  | ok (token : String) : LoginOutcome
  | needsVerification : LoginOutcome
  | error (code : String) : LoginOutcome

/-- What a login came to, from what the control plane said. -/
def login : Except AccountError String → LoginOutcome
  | .ok token => .ok token
  | .error (.notVerified _) => .needsVerification
  | .error err => .error (errorCode err)

inductive ResendOutcome : Type where
  | sent : ResendOutcome
  | alreadyActive : ResendOutcome
  | unknownEmail : ResendOutcome

def resend : Except AccountError ResendVerifyOutcome → ResendOutcome
  | .ok .sent => .sent
  | .ok .alreadyActive => .alreadyActive
  | .ok .unknownEmail => .unknownEmail
  | .error _ => .unknownEmail

def loginLocation (email : String) : LoginOutcome → String
  | .ok _ => "/"
  | .needsVerification => "/resend?error=needs_verify&email=" ++ email
  | .error code => "/login?error=" ++ code

def resendLocation (email : String) : ResendOutcome → String
  | .sent | .alreadyActive => "/resend?sent=1"
  | .unknownEmail => "/resend?error=unknown&email=" ++ email

/-! ## What is to hold -/

/-- What the next page is to be told. -/
def loginParams (email : String) : LoginOutcome → List (String × String)
  | .ok _ => []
  | .needsVerification => [("error", "needs_verify"), ("email", email)]
  | .error code => [("error", code)]

def resendParams (email : String) : ResendOutcome → List (String × String)
  | .sent | .alreadyActive => [("sent", "1")]
  | .unknownEmail => [("error", "unknown"), ("email", email)]

/-- The redirect can be made, and the next page reads these parameters from it. -/
def Tells (api : HeaderApi) (location : String) (params : List (String × String)) : Prop :=
  ∃ v, locationHeader api location = .ok v ∧
    formPairs (queryOf (api.asBytes v)) = params.map fun p => (utf8 p.1, utf8 p.2)

/-- **The emails that survive**: those without a control character other than the tab, without a plus
(43), an ampersand (38), a number sign (35), and a percent sign with two digits after it. -/
structure Plain (email : String) : Prop where
  valid : ∀ b ∈ utf8 email, IsValid b
  noPlus : 43 ∉ utf8 email
  noAmpersand : 38 ∉ utf8 email
  noHash : 35 ∉ utf8 email
  noEscape : ¬HasEscape (utf8 email)

/-! ## Queries -/

variable {api : HeaderApi} {email location : String} {params : List (String × String)}
  {path first : List UInt8}

theorem queryOf_eq {query : List UInt8} (hpath : 63 ∉ path) (hhash : 35 ∉ path) :
    queryOf (path ++ 63 :: query) = query.takeWhile (· ≠ 35) := by
  have hcut : (path ++ 63 :: query).takeWhile (· ≠ 35) = path ++ 63 :: query.takeWhile (· ≠ 35) := by
    rw [List.takeWhile_append_of_pos, List.takeWhile_cons_of_pos (by decide)]
    intro b hb
    exact decide_eq_true fun heq => hhash (heq ▸ hb)
  rw [queryOf, hcut, Split.splitOnce_append hpath]

/-- A value that is last in a query is read back when nothing in it ends it, and it decodes to itself. -/
theorem formPairs_last (name value : List UInt8) (hfirst : 38 ∉ first) (hne : first ≠ [])
    (hname : 61 ∉ name ∧ 38 ∉ name) (hself : formDecode name = name) :
    formPairs (first ++ 38 :: (name ++ 61 :: value.takeWhile (· ≠ 35))) =
        [formPair first, (name, value)] ↔ 38 ∉ value ∧ 35 ∉ value ∧ formDecode value = value := by
  have hpre := List.takeWhile_prefix (· ≠ (35 : UInt8)) (l := value)
  rw [formPairs_append hfirst hne, List.cons.injEq, and_iff_right rfl]
  by_cases hamp : 38 ∈ value.takeWhile (· ≠ 35)
  · -- the value ends at the first ampersand
    refine iff_of_false (fun h => ?_) fun h => h.1 (hpre.subset hamp)
    obtain ⟨x, y, hcut, hx⟩ := List.eq_append_cons_of_mem hamp
    have hnot : 38 ∉ name ++ 61 :: x := by simp [hname.2, hx]
    rw [hcut, ← List.cons_append, ← List.append_assoc, formPairs_append hnot (by simp),
      formPair_eq hname.1] at h
    have hvalue : formDecode x = value := congrArg Prod.snd (List.cons.inj h).1
    have hle := length_formDecode_le x
    have hlength := hpre.length_le
    rw [hcut, List.length_append, List.length_cons] at hlength
    rw [hvalue] at hle
    omega
  · have hnot : 38 ∉ name ++ 61 :: value.takeWhile (· ≠ 35) := by
      rw [List.mem_append, List.mem_cons, not_or, not_or]
      exact ⟨hname.2, by decide, hamp⟩
    rw [formPairs_single hnot (by simp), formPair_eq hname.1, hself, List.cons.injEq, and_iff_left rfl,
      Prod.mk.injEq, and_iff_right rfl]
    constructor
    · intro h
      have hle := length_formDecode_le (value.takeWhile (· ≠ 35))
      rw [h] at hle
      have hcut := hpre.eq_of_length (Nat.le_antisymm hpre.length_le hle)
      rw [hcut] at h hamp
      exact ⟨hamp, fun hmem => by simpa using List.takeWhile_eq_self_iff.mp hcut 35 hmem, h⟩
    · rintro ⟨-, hhash, h⟩
      have hcut : value.takeWhile (· ≠ 35) = value := by
        rw [List.takeWhile_eq_self_iff]
        exact fun b hb => decide_eq_true fun heq => hhash (heq ▸ hb)
      rw [hcut, h]

/-! ## Redirects -/

theorem tells_iff (hapi : api.Lawful) : Tells api location params ↔
    (∀ b ∈ utf8 location, IsValid b) ∧
      formPairs (queryOf (utf8 location)) = params.map fun p => (utf8 p.1, utf8 p.2) := by
  unfold Tells locationHeader
  by_cases hvalid : ∀ b ∈ utf8 location, IsValid b
  · obtain ⟨v, hv, hbytes⟩ := hapi.accepts location hvalid
    simp [hv, hbytes, and_iff_right hvalid]
  · refine iff_of_false ?_ fun h => hvalid h.1
    push Not at hvalid
    obtain ⟨b, hb, hnot⟩ := hvalid
    rw [hapi.rejects location b hb hnot]
    rintro ⟨v, hv, -⟩
    cases hv

/-- A redirect to the resend page that ends with the email. -/
theorem tells_email_iff (hapi : api.Lawful) (first : List UInt8) {start code : String}
    (hstart : utf8 start = utf8 "/resend" ++ 63 :: (first ++ 38 :: (utf8 "email" ++ [61])))
    (hvalid : ∀ b ∈ utf8 start, IsValid b) (hfirst : 38 ∉ first) (hne : first ≠ [])
    (hhash : 35 ∉ first) (hpair : formPair first = (utf8 "error", utf8 code)) :
    Tells api (start ++ email) [("error", code), ("email", email)] ↔ Plain email := by
  have hquery : queryOf (utf8 (start ++ email)) =
      first ++ 38 :: (utf8 "email" ++ 61 :: (utf8 email).takeWhile (· ≠ 35)) := by
    have hnot : ∀ b ∈ first ++ 38 :: (utf8 "email" ++ [61]), decide (b ≠ 35) = true := by
      have hname : 35 ∉ 38 :: (utf8 "email" ++ [61]) := by decide
      intro b hb
      refine decide_eq_true fun heq => ?_
      rcases List.mem_append.mp hb with hb | hb
      · exact hhash (heq ▸ hb)
      · exact hname (heq ▸ hb)
    rw [utf8_append, hstart, List.append_assoc, List.cons_append,
      queryOf_eq (by decide) (by decide), List.takeWhile_append_of_pos hnot]
    simp
  rw [tells_iff hapi, hquery]
  have hlast := formPairs_last (utf8 "email") (utf8 email) hfirst hne (by decide)
    (by decide)
  rw [hpair] at hlast
  refine (and_congr_right fun _ => hlast).trans ?_
  rw [utf8_append]
  constructor
  · rintro ⟨hbytes, hamp, hhash, hself⟩
    obtain ⟨hplus, hescape⟩ := formDecode_eq_self.mp hself
    exact ⟨fun b hb => hbytes b (List.mem_append_right _ hb), hplus, hamp, hhash, hescape⟩
  · intro h
    refine ⟨fun b hb => ?_, h.noAmpersand, h.noHash, formDecode_eq_self.mpr ⟨h.noPlus, h.noEscape⟩⟩
    rcases List.mem_append.mp hb with hb | hb
    · exact hvalid b hb
    · exact h.valid b hb

theorem tells_needsVerify_iff (hapi : api.Lawful) :
    Tells api ("/resend?error=needs_verify&email=" ++ email)
      [("error", "needs_verify"), ("email", email)] ↔ Plain email :=
  tells_email_iff hapi (utf8 "error=needs_verify") (by decide) (by decide +kernel)
    (by decide) (by decide) (by decide) (by decide)

theorem tells_unknown_iff (hapi : api.Lawful) :
    Tells api ("/resend?error=unknown&email=" ++ email) [("error", "unknown"), ("email", email)] ↔
      Plain email :=
  tells_email_iff hapi (utf8 "error=unknown") (by decide) (by decide +kernel)
    (by decide) (by decide) (by decide) (by decide)

def errorCodes : List String :=
  ["needs_verify", "exists", "unknown", "bad_credentials", "invalid_token", "mail_failed", "failed"]

theorem errorCode_mem (err : AccountError) : errorCode err ∈ errorCodes := by
  cases err <;> simp [errorCode, errorCodes]

/-- A redirect with an error token. -/
theorem tells_errorCode (hapi : api.Lawful) (err : AccountError) :
    Tells api ("/login?error=" ++ errorCode err) [("error", errorCode err)] := by
  have hvalid : ∀ code ∈ errorCodes, ∀ b ∈ utf8 ("/login?error=" ++ code), IsValid b := by
    decide +kernel
  have hpairs : ∀ code ∈ errorCodes,
      formPairs (queryOf (utf8 ("/login?error=" ++ code))) = [(utf8 "error", utf8 code)] := by
    decide
  exact (tells_iff hapi).mpr ⟨hvalid _ (errorCode_mem err), hpairs _ (errorCode_mem err)⟩

/-! ## Main result -/

/-- **A redirect tells the next page what it is to be told**, and if it carries the email, exactly when
the email is plain. -/
theorem redirects_iff (hapi : api.Lawful) (email : String) :
    (∀ result, Tells api (loginLocation email (login result)) (loginParams email (login result)) ↔
      ((∃ address, result = .error (.notVerified address)) → Plain email)) ∧
    ∀ result, Tells api (resendLocation email (resend result)) (resendParams email (resend result)) ↔
      (result ≠ .ok .sent ∧ result ≠ .ok .alreadyActive → Plain email) := by
  constructor
  · intro result
    have hfixed : (¬∃ address, result = .error (.notVerified address)) →
        Tells api (loginLocation email (login result)) (loginParams email (login result)) := by
      intro hnot
      cases result with
      | ok token =>
        have hvalid : ∀ b ∈ utf8 "/", IsValid b := by decide +kernel
        have hpairs : formPairs (queryOf (utf8 "/")) = [] := by decide
        exact (tells_iff hapi).mpr ⟨hvalid, hpairs⟩
      | error err =>
        have hcode := tells_errorCode hapi err
        cases err with
        | notVerified address => exact absurd ⟨address, rfl⟩ hnot
        | _ => exact hcode
    by_cases hverify : ∃ address, result = .error (.notVerified address)
    · obtain ⟨address, rfl⟩ := hverify
      exact (tells_needsVerify_iff hapi).trans ⟨fun h _ => h, fun h => h ⟨address, rfl⟩⟩
    · exact iff_of_true (hfixed hverify) fun h => absurd h hverify
  · intro result
    have hsent : Tells api "/resend?sent=1" [("sent", "1")] :=
      (tells_iff hapi).mpr ⟨by decide +kernel, by decide⟩
    cases result with
    | ok outcome =>
      cases outcome with
      | sent => exact iff_of_true hsent fun h => absurd rfl h.1
      | alreadyActive => exact iff_of_true hsent fun h => absurd rfl h.2
      | unknownEmail => exact (tells_unknown_iff hapi).trans ⟨fun h _ => h, fun h => h ⟨nofun, nofun⟩⟩
    | error err => exact (tells_unknown_iff hapi).trans ⟨fun h _ => h, fun h => h ⟨nofun, nofun⟩⟩

/-- Header values, as texts of valid bytes. -/
def validHeaders : HeaderApi where
  HeaderValue := {bytes : List UInt8 // ∀ b ∈ bytes, IsValid b}
  fromStr s := if h : ∀ b ∈ utf8 s, IsValid b then some ⟨utf8 s, h⟩ else none
  asBytes v := v.1

theorem validHeaders_lawful : validHeaders.Lawful where
  accepts s h := ⟨⟨utf8 s, h⟩, dif_pos h, rfl⟩
  rejects _ b hb hnot := dif_neg fun h => hnot (h b hb)

/-- An email with a letter outside ASCII survives, whatever the login came to. -/
theorem redirects_iff_sample : validHeaders.Lawful ∧
    ∀ result, Tells validHeaders (loginLocation "é@example.org" (login result))
      (loginParams "é@example.org" (login result)) := by
  refine ⟨validHeaders_lawful, fun result => ?_⟩
  have hvalid : ∀ b ∈ utf8 "é@example.org", IsValid b := by decide +kernel
  obtain ⟨hplus, hescape⟩ := formDecode_eq_self.mp
    (show formDecode (utf8 "é@example.org") = utf8 "é@example.org" by decide)
  exact ((redirects_iff validHeaders_lawful "é@example.org").1 result).mpr fun _ =>
    ⟨hvalid, hplus, by decide, by decide, hescape⟩

/-- A plus becomes a space, an ampersand adds a parameter, and a line break is a panic. -/
theorem lostEmails :
    ¬Tells validHeaders (loginLocation "ada+test@example.org" (login (.error (.notVerified ""))))
        (loginParams "ada+test@example.org" (login (.error (.notVerified "")))) ∧
      ¬Tells validHeaders (resendLocation "a&sent=1" (resend (.ok .unknownEmail)))
        (resendParams "a&sent=1" (resend (.ok .unknownEmail))) ∧
      locationHeader validHeaders (resendLocation "ada\n@example.org" (resend (.ok .unknownEmail))) =
        .error "redirect location is a valid header value" := by
  have hplus : ¬Plain "ada+test@example.org" := fun h => h.noPlus (by decide)
  have hamp : ¬Plain "a&sent=1" := fun h => h.noAmpersand (by decide)
  refine ⟨mt (tells_needsVerify_iff validHeaders_lawful).mp hplus,
    mt (tells_unknown_iff validHeaders_lawful).mp hamp, ?_⟩
  rw [locationHeader, validHeaders_lawful.rejects _ 10 (by decide) (by decide)]

end Site
end Cococoir
