import Cococoir.Text.Html

/-!
# The account pages, as HTML

The pages that show something from their URL: the token of a reset or a verification, the email to resend
to, the code of an invite.  They are assembled as text, and sent as they are.

* `resetPage`, `verifyPage`, `resendPage`, `join`: the pages.
* `Contained`: what the URL says is read back in one place, and nothing else depends on it.
* `contained_iff`: a page contains what is plain, and nothing else.
* `injected`: what ends the attribute it is put in is not contained.

## What *contained* means

A page is a text with something from the URL in it, and the reader is the browser's.  If the page
contains what is put into it, then the tokens that the browser reads are the same for every input
but for one place, where the input stands as it is.  `Contained` says so: there are tokens before
and after, fixed for the page, and one token between them that the input fills.  Two harmless
letters as inputs determine the place, so there is no choice in it (`context_unique`).

Each page is its opening, the input and its ending.  The opening is read to the state in which the
input is met: inside the quotes of an attribute's value, or between two tags.  From there
`Text.Html` has the law, an equivalence for each of the two positions, and the theorem collects
them by page.
-/

namespace Cococoir
namespace Site

open Html

/-! ## Model -/

def field (label input : String) : String :=
  "<label class=\"block\"><div class=\"tag dim mb-1\">" ++ label ++ "</div>" ++ input ++ "</label>"

def textInput (name kind : String) : String :=
  let autocomplete := if kind = "password" then "current-password" else "email"
  "<input class=\"zine-input\" type=\"" ++ kind ++ "\" name=\"" ++ name ++ "\" autocomplete=\"" ++
    autocomplete ++ "\" required />"

def submit (label : String) : String :=
  "<button type=\"submit\" class=\"btn-zine btn-zine-red\">" ++ label ++ "</button>"

def form (action : String) (fields : List String) : String :=
  "<form class=\"flex flex-col gap-4\" method=\"post\" action=\"" ++ action ++ "\">" ++
    String.join fields ++ "</form>"

def bannerHtml : Option String → String
  | some message => "<div role=\"alert\" class=\"alert-zine\">" ++ message ++ "</div>"
  | none => ""

def authShell (title : String) (banner : Option String) (body : String) : String :=
  "<main class=\"mx-auto flex max-w-md flex-col gap-4 p-6\">" ++
    "<h1 class=\"text-2xl font-black uppercase\">" ++ title ++ "</h1>" ++ bannerHtml banner ++ body ++
    "</main>"

/-- The banner of an error code. -/
def alert (code : String) : Option String :=
  if code = "exists" then some "That email already has an account — log in, or reset your password."
  else if code = "unknown" then some "No account with that email — sign up first."
  else if code = "bad_credentials" then some "That email and password do not match."
  else if code = "needs_verify" then
    some "Verify your email first — check your inbox for the confirmation link."
  else if code = "invalid_token" then some "That link is invalid or has already been used."
  else if code = "mail_failed" then some "We could not send the email. Try again in a moment."
  else if code = "failed" then some "Something went wrong. Try again."
  else none

/-- The hidden field of a token. -/
def tokenInput (token : String) : String :=
  "<input type=\"hidden\" name=\"token\" value=\"" ++ token ++ "\" />"

def emailInput (prefill : String) : String :=
  "<input class=\"zine-input\" type=\"email\" name=\"email\" value=\"" ++ prefill ++ "\" required />"

def resetPage (error : Option String) (token : String) : String :=
  authShell "Choose a new password" (error.bind alert) (form "/reset"
    [tokenInput token, field "New password" (textInput "password" "password"), submit "Set new password"])

def verifyPage (error : Option String) (token : String) : String :=
  authShell "Confirm your email" (error.bind alert) (form "/verify"
    [tokenInput token, submit "Verify my email"])

def resendBanner (error : Option String) (sent : Bool) : Option String :=
  if sent then some "Check your inbox for the confirmation link." else error.bind alert

def resendPage (error : Option String) (sent : Bool) (prefill : String) : String :=
  authShell "Verify your email" (resendBanner error sent) (form "/resend"
    [field "Email" (emailInput prefill), submit "Resend verification"])

/-- The page of a reset link; without a token there is none. -/
def resetGet (token error : Option String) : Option String :=
  (token.filter fun t => t ≠ "").map (resetPage error)

/-- The page of a verification link. -/
def verifyGet (token error : Option String) : Option String :=
  (token.filter fun t => t ≠ "").map (verifyPage error)

def resendGet (email error sent : Option String) : String :=
  resendPage error sent.isSome (email.getD "")

/-- The page of an invite link. -/
def join (code : String) : String :=
  "<main class=\"mx-auto flex max-w-md flex-col gap-4 p-6\">" ++
    "<h1 class=\"text-2xl font-black uppercase\">Join Fortress</h1>" ++
    "<p>On the box, open its dashboard and paste this invite URL into Remote access. " ++
    "The box then registers itself and downloads its tunnel configuration.</p>" ++
    "<p class=\"text-sm dim\">Invite code <code>" ++ code ++ "</code> is single-use " ++
    "and expires in 30 days.</p><p class=\"text-sm dim\">Not a machine? " ++
    "<a class=\"link-zine\" href=\"/register\">Create an account</a>.</p></main>"

/-! ## What is to hold -/

/-- The tokens around one place of a page. -/
inductive Context : Type where
  /-- The place is the value of an attribute. -/
  | value (before : List Token) (tagName : List Char) (attrs : List (List Char × List Char))
    (name : List Char) (attrs' : List (List Char × List Char)) (selfClosing : Bool)
    (after : List Token) : Context
  /-- The place is a text. -/
  | text (before after : List Token) : Context

/-- The tokens of the page with a text in its place. -/
def Context.fill (s : List Char) : Context → List Token
  | .value before tagName attrs name attrs' selfClosing after =>
    before ++ .startTag tagName (attrs ++ (name, s) :: attrs') selfClosing :: after
  | .text before after => before ++ (s.map .char ++ after)

/-- Letters and digits. -/
def Harmless (s : String) : Prop := s ≠ "" ∧ ∀ c ∈ s.toList, c.isAlphanum = true

/-- **What the URL says is contained**: it is read back in one place of the page, if there is a page, and
the tokens around it are those around any harmless text. -/
def Contained (refs : CharRefs) (page : String → Option String) (s : String) : Prop :=
  ∃ context : Context, (∀ harmless, Harmless harmless →
      (page harmless).map (fun html => parse refs html.toList) = some (context.fill harmless.toList)) ∧
    ∀ html ∈ page s, parse refs html.toList = context.fill s.toList

/-! ## There is one place -/

variable {refs : CharRefs} {s : String}

/-- Two lists that agree with either element in its place have it in the same place. -/
theorem place_unique {α : Type} {p q p' q' : α} {x y x' y' : List α} (hp : x ++ p :: y = x' ++ p' :: y')
    (hq : x ++ q :: y = x' ++ q' :: y') (hne : p ≠ q) (hne' : p' ≠ q') : x = x' ∧ p = p' ∧ q = q' ∧ y = y' := by
  induction x generalizing x' with
  | nil =>
    cases x' with
    | nil => exact ⟨rfl, (List.cons.inj hp).1, (List.cons.inj hq).1, (List.cons.inj hp).2⟩
    | cons c x' => exact absurd ((List.cons.inj hp).1.trans (List.cons.inj hq).1.symm) hne
  | cons c x ih =>
    cases x' with
    | nil => exact absurd ((List.cons.inj hp).1.symm.trans (List.cons.inj hq).1) hne'
    | cons c' x' =>
      obtain ⟨hx, hpq⟩ := ih (List.cons.inj hp).2 (List.cons.inj hq).2
      exact ⟨congrArg₂ List.cons (List.cons.inj hp).1 hx, hpq⟩

/-- Two letters show where the place is. -/
theorem context_unique {context context' : Context} (ha : context.fill ['a'] = context'.fill ['a'])
    (hb : context.fill ['b'] = context'.fill ['b']) : context = context' := by
  cases context with
  | text before after =>
    cases context' with
    | text before' after' =>
      obtain ⟨rfl, -, -, rfl⟩ := place_unique ha hb (by decide) (by decide)
      rfl
    | value before' tagName attrs name attrs' selfClosing after' =>
      obtain ⟨-, h, -⟩ := place_unique ha hb (by decide) (by simp)
      cases h
  | value before tagName attrs name attrs' selfClosing after =>
    cases context' with
    | text before' after' =>
      obtain ⟨-, h, -⟩ := place_unique ha hb (by simp) (by decide)
      cases h
    | value before' tagName' attrs₁ name₁ attrs₁' selfClosing' after' =>
      obtain ⟨rfl, hta, htb, rfl⟩ := place_unique ha hb (by simp) (by simp)
      obtain ⟨rfl, hattrs, rfl⟩ := Token.startTag.inj hta
      obtain ⟨rfl, hname, -, rfl⟩ :=
        place_unique hattrs (Token.startTag.inj htb).2.1 (by simp) (by simp)
      rw [(Prod.mk.inj hname).1]

theorem harmless_singleton {c : Char} (hc : c.isAlphanum = true) : Harmless (String.singleton c) := by
  refine ⟨by simp, fun d hd => ?_⟩
  rw [String.toList_singleton, List.mem_singleton] at hd
  rwa [hd]

/-- A page that is filled in as a context exactly when a text is plain contains what is plain. -/
theorem contained_of_fill {page : String → Option String} {plain : List Char → Prop} (context : Context)
    (hpage : ∀ s, ∀ html ∈ page s, parse refs html.toList = context.fill s.toList ↔ plain s.toList)
    (hharmless : ∀ s, Harmless s → (page s).isSome ∧ plain s.toList) :
    Contained refs page s ↔ (page s).isSome → plain s.toList := by
  have hfill (t : String) (ht : Harmless t) :
      (page t).map (fun html => parse refs html.toList) = some (context.fill t.toList) := by
    obtain ⟨hsome, hplain⟩ := hharmless t ht
    obtain ⟨html, hhtml⟩ := Option.isSome_iff_exists.mp hsome
    rw [hhtml, Option.map_some, (hpage t html hhtml).mpr hplain]
  constructor
  · rintro ⟨context', hother, hs⟩ hsome
    obtain ⟨html, hhtml⟩ := Option.isSome_iff_exists.mp hsome
    have hsame (c : Char) (hc : c.isAlphanum = true) : context'.fill [c] = context.fill [c] := by
      have h := (hother _ (harmless_singleton hc)).symm.trans (hfill _ (harmless_singleton hc))
      rwa [String.toList_singleton, Option.some.injEq] at h
    obtain rfl := context_unique (hsame 'a' rfl) (hsame 'b' rfl)
    exact (hpage s html hhtml).mp (hs html hhtml)
  · intro hplain
    refine ⟨context, hfill, fun html hhtml => (hpage s html hhtml).mpr (hplain ?_)⟩
    rw [hhtml]
    rfl

theorem Harmless.not_mem {c : Char} (h : Harmless s) (hc : c.isAlphanum = false) : c ∉ s.toList :=
  fun hmem => absurd (h.2 c hmem) (by simp [hc])

theorem Harmless.plainValue (h : Harmless s) : PlainValue refs s.toList :=
  ⟨h.not_mem rfl, h.not_mem rfl, h.not_mem rfl, noRefs_of_not_mem (h.not_mem rfl)⟩

theorem plainValue_nil : PlainValue refs [] :=
  ⟨List.not_mem_nil, List.not_mem_nil, List.not_mem_nil, noRefs_of_not_mem List.not_mem_nil⟩

theorem Harmless.plainText (h : Harmless s) : PlainText refs s.toList :=
  ⟨fun _ _ hb => absurd (hb.subset List.mem_cons_self) (h.not_mem rfl), h.not_mem rfl, h.not_mem rfl,
    noRefs_of_not_mem (h.not_mem rfl)⟩

/-! ## The pages with a form -/

variable {banner error : Option String} {title action : String}

/-- A banner whose message is a text and nothing else. -/
def Plainly (banner : Option String) : Prop := ∀ message ∈ banner, Leads .data message.toList .data

theorem plainly_alert (error : Option String) : Plainly (error.bind alert) := by
  intro message h
  obtain ⟨code, -, h⟩ := Option.bind_eq_some_iff.mp h
  unfold alert at h
  split_ifs at h <;> cases h <;> exact leads_toList (by decide)

theorem plainly_resendBanner (error : Option String) (sent : Bool) : Plainly (resendBanner error sent) := by
  unfold resendBanner
  split_ifs
  · rintro message ⟨⟩
    exact leads_toList (by decide)
  · exact plainly_alert error

def bannerChars : Option String → List Char
  | some message => "<div role=\"alert\" class=\"alert-zine\">".toList ++ (message.toList ++ "</div>".toList)
  | none => []

theorem toList_bannerHtml (banner : Option String) : (bannerHtml banner).toList = bannerChars banner := by
  cases banner with
  | none => exact String.toList_empty
  | some message =>
    show ("<div role=\"alert\" class=\"alert-zine\">" ++ message ++ "</div>").toList = _
    rw [String.toList_append, String.toList_append, List.append_assoc]
    rfl

/-- A banner is an element of its own. -/
theorem Plainly.leads (h : Plainly banner) : Leads .data (bannerChars banner) .data := by
  cases banner with
  | none => decide
  | some message =>
    have hopen : Leads .data "<div role=\"alert\" class=\"alert-zine\">".toList .data :=
      leads_toList (by decide)
    exact hopen.append ((h message rfl).append (leads_toList (by decide)))

def shellOpening (title : String) : List Char :=
  "<main class=\"mx-auto flex max-w-md flex-col gap-4 p-6\">".toList ++
    ("<h1 class=\"text-2xl font-black uppercase\">".toList ++ (title.toList ++ "</h1>".toList))

def formOpening (action : String) (left : List Char) : List Char :=
  "<form class=\"flex flex-col gap-4\" method=\"post\" action=\"".toList ++
    (action.toList ++ ("\">".toList ++ left))

theorem leads_shellOpening {title : String} (h : Leads .data title.toList .data) :
    Leads .data (shellOpening title) .data := by
  have hmain : Leads .data "<main class=\"mx-auto flex max-w-md flex-col gap-4 p-6\">".toList .data :=
    leads_toList (by decide)
  have hheading : Leads .data "<h1 class=\"text-2xl font-black uppercase\">".toList .data :=
    leads_toList (by decide)
  exact hmain.append (hheading.append (h.append (leads_toList (by decide))))

/-- A page up to the place in its form. -/
def opening (title action : String) (left : List Char) (banner : Option String) : List Char :=
  shellOpening title ++ (bannerChars banner ++ formOpening action left)

/-- A page after its form. -/
def ending : List Char := "</form>".toList ++ "</main>".toList

theorem toList_authShell {fields : List String} {left right : List Char}
    (h : (String.join fields).toList = left ++ (s.toList ++ right)) :
    (authShell title banner (form action fields)).toList =
      opening title action left banner ++ (s.toList ++ (right ++ ending)) := by
  unfold authShell form opening shellOpening formOpening ending
  simp only [String.toList_append, List.append_assoc, toList_bannerHtml, h]

/-- A page whose form has the place in the value of an attribute. -/
theorem parse_form_iff {fields : List String} {name : List Char} {selfClosing : Bool} (left : List Char) (t : Tag)
    (close : List Char) (attrs : List (List Char × List Char)) (right : List Char) (hbanner : Plainly banner)
    (hfields : (String.join fields).toList = left ++ (s.toList ++ '"' :: (close ++ right)))
    (htitle : Leads .data title.toList .data)
    (haction : Leads .data (formOpening action left) (.value t name (some '"') []))
    (hreturn : '\r' ∉ close ++ right)
    (hadd : ∀ raw, t.add name raw = ⟨false, t.name, t.attrs ++ [(name, raw)]⟩)
    (hclose : ∀ raw, feed (.afterValue (t.add name raw)) close =
      (.data, [.startTag t.name (t.attrs ++ (name, raw) :: attrs) selfClosing]))
    (hattrs : ∀ p ∈ t.attrs ++ attrs, '&' ∉ p.2) :
    parse refs (authShell title banner (form action fields)).toList = Context.fill s.toList
        (.value (feed .data (opening title action left banner)).2 t.name t.attrs name attrs selfClosing
          (readFrom refs 0 (tokens .data (right ++ ending)))) ↔ PlainValue refs s.toList := by
  have hends : '\r' ∉ close ++ (right ++ ending) := by
    rw [← List.append_assoc, List.mem_append, not_or]
    exact ⟨hreturn, by decide⟩
  have hopening := (leads_shellOpening htitle).append (hbanner.leads.append haction)
  rw [toList_authShell hfields, List.cons_append, List.append_assoc]
  exact parse_value_iff hopening hends hadd hclose (fun p hp => hattrs p (List.mem_append_left _ hp))
    fun p hp => hattrs p (List.mem_append_right _ hp)

/-- The tag of a token's field, up to its value. -/
def tokenTag : Tag :=
  ⟨false, "input".toList, [("type".toList, "hidden".toList), ("name".toList, "token".toList)]⟩

def tokenOpening : List Char := "<input type=\"hidden\" name=\"token\" value=\"".toList

theorem toList_tokenInput (token : String) :
    (tokenInput token).toList = tokenOpening ++ (token.toList ++ '"' :: " />".toList) := by
  have hquote : "\" />".toList = '"' :: " />".toList := rfl
  unfold tokenInput
  rw [String.toList_append, String.toList_append, hquote, List.append_assoc]
  rfl

/-- A form that begins with a token. -/
theorem parse_token_iff {rest : List String} (hbanner : Plainly banner)
    (htitle : Leads .data title.toList .data)
    (haction : Leads .data (formOpening action tokenOpening) (.value tokenTag "value".toList (some '"') []))
    (hreturn : '\r' ∉ (String.join rest).toList) :
    parse refs (authShell title banner (form action (tokenInput s :: rest))).toList = Context.fill s.toList
        (.value (feed .data (opening title action tokenOpening banner)).2 tokenTag.name tokenTag.attrs
          "value".toList [] true (readFrom refs 0 (tokens .data ((String.join rest).toList ++ ending)))) ↔
      PlainValue refs s.toList := by
  refine parse_form_iff tokenOpening tokenTag " />".toList [] _ hbanner ?_ htitle haction ?_ (fun _ => rfl) (fun _ => rfl)
    (by decide)
  · rw [String.join_cons, String.toList_append, toList_tokenInput]
    simp only [List.append_assoc, List.cons_append]
  · rw [List.mem_append, not_or]
    exact ⟨by decide, hreturn⟩

theorem return_not_mem_field {label input : String} (hlabel : '\r' ∉ label.toList) (hinput : '\r' ∉ input.toList) :
    '\r' ∉ (field label input).toList := by
  unfold field
  simp only [String.toList_append, List.mem_append, not_or]
  exact ⟨⟨⟨⟨by decide, hlabel⟩, by decide⟩, hinput⟩, by decide⟩

theorem return_not_mem_submit {label : String} (hlabel : '\r' ∉ label.toList) : '\r' ∉ (submit label).toList := by
  unfold submit
  simp only [String.toList_append, List.mem_append, not_or]
  exact ⟨⟨by decide, hlabel⟩, by decide⟩

/-- The tag of the email's field, up to its value. -/
def emailTag : Tag :=
  ⟨false, "input".toList, [("class".toList, "zine-input".toList), ("type".toList, "email".toList),
    ("name".toList, "email".toList)]⟩

def emailOpening : List Char :=
  "<label class=\"block\"><div class=\"tag dim mb-1\">".toList ++ ("Email".toList ++ ("</div>".toList ++
    "<input class=\"zine-input\" type=\"email\" name=\"email\" value=\"".toList))

theorem toList_emailField (prefill : String) : (field "Email" (emailInput prefill)).toList =
    emailOpening ++ (prefill.toList ++ '"' :: (" required />".toList ++ "</label>".toList)) := by
  have hquote : "\" required />".toList = '"' :: " required />".toList := rfl
  unfold field emailInput emailOpening
  simp only [String.toList_append, List.append_assoc, hquote, List.cons_append]

theorem feed_emailTag (raw : List Char) :
    feed (.afterValue (emailTag.add "value".toList raw)) " required />".toList =
      (.data, [.startTag emailTag.name (emailTag.attrs ++ ("value".toList, raw) :: [("required".toList, [])])
        true]) := rfl

theorem leads_formOpening :
    Leads .data (formOpening "/reset" tokenOpening) (.value tokenTag "value".toList (some '"') []) ∧
      Leads .data (formOpening "/verify" tokenOpening) (.value tokenTag "value".toList (some '"') []) ∧
      Leads .data (formOpening "/resend" emailOpening) (.value emailTag "value".toList (some '"') []) := by
  decide +kernel

theorem parse_resetPage : ∃ context : Context, ∀ s : String,
    parse refs (resetPage error s).toList = context.fill s.toList ↔ PlainValue refs s.toList := by
  refine ⟨_, fun s => parse_token_iff (plainly_alert error) ?_ ?_ ?_⟩
  · exact leads_toList (by decide)
  · exact leads_formOpening.1
  · simp only [String.join_cons, String.toList_append, List.mem_append, not_or]
    refine ⟨return_not_mem_field (by decide) (by decide), ?_⟩
    exact ⟨return_not_mem_submit (by decide), by decide⟩

theorem parse_verifyPage : ∃ context : Context, ∀ s : String,
    parse refs (verifyPage error s).toList = context.fill s.toList ↔ PlainValue refs s.toList := by
  refine ⟨_, fun s => parse_token_iff (plainly_alert error) ?_ ?_ ?_⟩
  · exact leads_toList (by decide)
  · exact leads_formOpening.2.1
  · simp only [String.join_cons, String.toList_append, List.mem_append, not_or]
    exact ⟨return_not_mem_submit (by decide), by decide⟩

theorem parse_resendPage {sent : Bool} : ∃ context : Context, ∀ s : String,
    parse refs (resendPage error sent s).toList = context.fill s.toList ↔ PlainValue refs s.toList := by
  refine ⟨_, fun s => parse_form_iff emailOpening emailTag " required />".toList [("required".toList, [])]
    ("</label>".toList ++ (String.join [submit "Resend verification"]).toList)
    (plainly_resendBanner error sent) ?_ ?_ ?_ ?_ (fun _ => rfl) feed_emailTag (by decide)⟩
  · rw [String.join_cons, String.toList_append, toList_emailField]
    simp only [List.append_assoc, List.cons_append]
  · exact leads_toList (by decide)
  · exact leads_formOpening.2.2
  · simp only [String.join_cons, String.toList_append, List.mem_append, not_or]
    exact ⟨by decide, by decide, return_not_mem_submit (by decide), by decide⟩

/-! ## The page of an invite -/

def joinOpening : List Char :=
  "<main class=\"mx-auto flex max-w-md flex-col gap-4 p-6\">".toList ++
    ("<h1 class=\"text-2xl font-black uppercase\">Join Fortress</h1>".toList ++
    ("<p>On the box, open its dashboard and paste this invite URL into Remote access. ".toList ++
    ("The box then registers itself and downloads its tunnel configuration.</p>".toList ++
    "<p class=\"text-sm dim\">Invite code <code>".toList)))

def joinEnding : List Char :=
  "ode> is single-use ".toList ++ ("and expires in 30 days.</p><p class=\"text-sm dim\">Not a machine? ".toList ++
    "<a class=\"link-zine\" href=\"/register\">Create an account</a>.</p></main>".toList)

theorem toList_join (code : String) :
    (join code).toList = joinOpening ++ (code.toList ++ '<' :: '/' :: 'c' :: joinEnding) := by
  have htag : "</code> is single-use ".toList = '<' :: '/' :: 'c' :: "ode> is single-use ".toList := rfl
  unfold join joinOpening joinEnding
  simp only [String.toList_append, List.append_assoc, htag, List.cons_append]

theorem leads_joinOpening : Leads .data joinOpening .data := by
  have hstep {a b : List Char} (ha : Leads .data a .data) (hb : Leads .data b .data) :
      Leads .data (a ++ b) .data := ha.append hb
  unfold joinOpening
  refine hstep (leads_toList ?_) (hstep (leads_toList ?_) (hstep (leads_toList ?_)
    (hstep (leads_toList ?_) (leads_toList ?_)))) <;> decide +kernel

theorem parse_join : ∃ context : Context, ∀ s : String,
    parse refs (join s).toList = context.fill s.toList ↔ PlainText refs s.toList := by
  refine ⟨.text (feed .data joinOpening).2 (readFrom refs 0 (tokens .data ('<' :: '/' :: 'c' :: joinEnding))),
    fun s => ?_⟩
  rw [toList_join]
  exact parse_chars_iff leads_joinOpening (by decide)

/-! ## What is contained -/

theorem contained_value_iff {get : String → Option String} {page : String → String}
    (hpage : ∃ context : Context, ∀ s : String,
      parse refs (page s).toList = context.fill s.toList ↔ PlainValue refs s.toList)
    (hget : ∀ t, get t = some (page t) ∨ t = "" ∧ get t = none) :
    Contained refs get s ↔ PlainValue refs s.toList := by
  obtain ⟨context, hcontext⟩ := hpage
  rw [contained_of_fill context]
  · refine ⟨fun h => ?_, fun h _ => h⟩
    rcases hget s with hsome | ⟨rfl, -⟩
    · exact h (by rw [hsome]; rfl)
    · exact plainValue_nil
  · intro t html hhtml
    rcases hget t with hsome | ⟨-, hnone⟩
    · obtain rfl := Option.some.inj (hsome.symm.trans hhtml)
      exact hcontext t
    · rw [hnone] at hhtml
      cases hhtml
  · intro t ht
    refine ⟨?_, ht.plainValue⟩
    rcases hget t with hsome | ⟨hempty, -⟩
    · rw [hsome]
      rfl
    · exact absurd hempty ht.1

theorem resetGet_some (token : String) : resetGet (some token) error = some (resetPage error token) ∨
    token = "" ∧ resetGet (some token) error = none := by
  unfold resetGet
  by_cases h : token = "" <;> simp [h]

theorem verifyGet_some (token : String) : verifyGet (some token) error = some (verifyPage error token) ∨
    token = "" ∧ verifyGet (some token) error = none := by
  unfold verifyGet
  by_cases h : token = "" <;> simp [h]

theorem contained_join_iff : Contained refs (fun code => some (join code)) s ↔ PlainText refs s.toList := by
  obtain ⟨context, hcontext⟩ := @parse_join refs
  rw [contained_of_fill context (fun t html hhtml => ?_) fun t ht => ⟨rfl, ht.plainText⟩]
  · exact ⟨fun h => h rfl, fun h _ => h⟩
  · obtain rfl := Option.some.inj hhtml
    exact hcontext t

/-- **What a page contains**: a token or an email that is plain in the value of an attribute, a code that is
plain between two tags, and nothing else. -/
theorem contained_iff (refs : CharRefs) (s : String) :
    (∀ error, Contained refs (fun token => resetGet (some token) error) s ↔ PlainValue refs s.toList) ∧
    (∀ error, Contained refs (fun token => verifyGet (some token) error) s ↔ PlainValue refs s.toList) ∧
    (∀ error sent, Contained refs (fun email => some (resendGet (some email) error sent)) s ↔
      PlainValue refs s.toList) ∧
    (Contained refs (fun code => some (join code)) s ↔ PlainText refs s.toList) := by
  refine ⟨fun error => ?_, fun error => ?_, fun error sent => ?_, contained_join_iff⟩
  · exact contained_value_iff parse_resetPage resetGet_some
  · exact contained_value_iff parse_verifyPage verifyGet_some
  · exact contained_value_iff parse_resendPage fun _ => .inl rfl

/-- The references of the four characters that markup uses. -/
def markupRefs : CharRefs :=
  .ofNames [("lt;".toList, '<'), ("gt;".toList, '>'), ("amp;".toList, '&'), ("quot;".toList, '"')] (by decide)

/-- A token that ends its attribute and adds an element is not contained, and neither is a code that is an
element. -/
theorem injected :
    let attack := "\"><script>alert(1)</script>"
    ¬ Contained markupRefs (fun token => resetGet (some token) none) attack ∧
      ¬ Contained markupRefs (fun token => verifyGet (some token) none) attack ∧
      ¬ Contained markupRefs (fun email => some (resendGet (some email) none none)) attack ∧
      ¬ Contained markupRefs (fun code => some (join code)) "<img src=x onerror=alert(1)>" := by
  have hattack : ¬ PlainValue markupRefs "\"><script>alert(1)</script>".toList :=
    fun h => h.noQuote (by decide)
  refine ⟨?_, ?_, ?_, ?_⟩
  · exact fun h => hattack ((contained_value_iff parse_resetPage resetGet_some).mp h)
  · exact fun h => hattack ((contained_value_iff parse_verifyPage verifyGet_some).mp h)
  · exact fun h => hattack ((contained_value_iff parse_resendPage fun _ => .inl rfl).mp h)
  · intro h
    have hopens := (contained_join_iff.mp h).noTag 'i' "mg src=x onerror=alert(1)>".toList (List.suffix_refl _)
    cases hopens

end Site
end Cococoir
