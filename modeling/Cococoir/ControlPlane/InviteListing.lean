import Cococoir.ControlPlane.Alone

/-!
# Listing the invites of an account

The invites are found by a scan of the keyspace, a page at a time.  The scan promises that a key
that stays is on some page; it may be on several.  Every key on a page is read, whoever owns it.

* `Scan`: the pages that a scan may give.
* `runs_invitesScan`: what is listed, for any pages.
* `listedTwice`: an invite on two pages is listed twice.
* `invitesOf_exact_iff`: when the list is exact, and the same whatever the others store.

## What a list should be

Exact: every invite of the account once and nothing else, `Lists`.  And the account's own affair:
two stores with the same invites of the account give the same list, whatever the other accounts
have stored.

The list is computed from the pages: the codes in the order of the pages, each read, and kept if
it is the account's.  So it has all invites, since every stored code is on some page.  It can be
wrong in two ways.  A code on two pages is kept twice, because nothing looks for repetitions, and
that is the first failure.  A record that does not decode ends the whole listing with an error,
also if it is somebody else's, and that is the second, which makes the list depend on what others
have stored.

`invitesOf_exact_iff` says that there is no third: the list is exact and independent if and only
if no invite of the account is on the pages twice and every record on them decodes.  The scan
itself is a parameter, with its promise as a field, and the number of its pages is any.
-/

namespace Cococoir
namespace ControlPlane

open Concurrency

/-- The next cursor of a scan, and the codes on the page. -/
abbrev Page : Type := String × List String

/-- The pages of a scan: the last one alone has the cursor it began with, and every stored invite
is on one of them. -/
structure Scan (w : World) (pages : List Page) : Prop where
  ends : ∃ init codes, pages = init ++ [("0", codes)] ∧ ∀ page ∈ init, page.1 ≠ "0"
  covers : ∀ code, (w.invites code).isSome → ∃ page ∈ pages, code ∈ page.2

/-- The store, with the pages that a scan is going to give. -/
def scanExec (ch : Choice) : (c : Cmd) → World × List Page → c.Resp × (World × List Page)
  | .scan _ _, (w, page :: pages) => (.ok page, (w, pages))
  | c, (w, pages) => ((Cmd.exec ch c w).1, ((Cmd.exec ch c w).2, pages))

variable {w : World} {email code : String} {codes : List String} {pages : List Page}
  {s : World × List Page}

/-! ## What is listed -/

/-- The invite of a code, if it is the account's. -/
def ownInvite (w : World) (email code : String) : Option (String × InviteRecord) :=
  match w.invites code with
  | some (.json r) => if r.ownerEmail = email then some (code, r) else none
  | _ => none

/-- The record of a code does not decode. -/
def Unreadable (w : World) (code : String) : Prop := ∃ text err, w.invites code = some (.corrupt text err)

theorem ownInvite_eq_some {x : String × InviteRecord} : ownInvite w email code = some x ↔
    x.1 = code ∧ w.invites code = some (.json x.2) ∧ x.2.ownerEmail = email := by
  obtain ⟨c, r⟩ := x
  unfold ownInvite
  split
  · rename_i r' h
    rw [h]
    split_ifs with howner <;> constructor
    · rintro ⟨⟩
      exact ⟨rfl, rfl, howner⟩
    · rintro ⟨rfl, ⟨⟩, -⟩
      rfl
    · nofun
    · rintro ⟨-, hjson, hemail⟩
      cases hjson
      exact absurd hemail howner
  · rename_i h
    constructor
    · nofun
    · rintro ⟨-, hjson, -⟩
      exact absurd hjson (h r)

theorem runs_getInvite {α : Type} {f : Option (Stored InviteRecord) → Edge InviteError α}
    {o : Outcome InviteError α} :
    (redis (.invite code .get) >>= f).Runs scanExec Reliable (w, pages) o s ↔
      (f (w.invites code)).Runs scanExec Reliable (w, pages) o s := by
  constructor
  · rintro ⟨ch, hch, h⟩
    rw [scanExec, exec_redis_of_not_fails hch, exec_invite_get] at h
    · exact h
    · nofun
  · intro h
    refine ⟨{}, rfl, ?_⟩
    rw [scanExec, exec_redis_of_not_fails rfl, exec_invite_get]
    · exact h
    · nofun

/-- One page whose records decode. -/
theorem runs_invitesFrom (hread : ∀ code ∈ codes, ¬Unreadable w code)
    {o : Outcome InviteError (List (String × InviteRecord))} :
    (invitesFrom email codes).Runs scanExec Reliable (w, pages) o s ↔
      o = .ok (codes.filterMap (ownInvite w email)) ∧ s = (w, pages) := by
  induction codes generalizing o s with
  | nil => exact Iff.rfl
  | cons code codes ih =>
    have ih : ∀ {o s}, (invitesFrom email codes).Runs scanExec Reliable (w, pages) o s ↔
        o = .ok (codes.filterMap (ownInvite w email)) ∧ s = (w, pages) :=
      ih fun c hc => hread c (List.mem_cons_of_mem code hc)
    rw [invitesFrom, runs_getInvite]
    match hcode : w.invites code with
    | none =>
      rw [List.filterMap_cons_none (by rw [ownInvite, hcode])]
      exact ih
    | some (.corrupt text err) => exact absurd ⟨text, err, hcode⟩ (hread code List.mem_cons_self)
    | some (.json r) =>
      have hown : ownInvite w email code = if r.ownerEmail = email then some (code, r) else none := by
        rw [ownInvite, hcode]
      simp only [recordFromJson, Prog.ofExcept_ok, Prog.pure_bind, Prog.runs_bind, ih,
        Prog.runs_pure, List.filterMap_cons, hown]
      constructor
      · rintro (⟨_, _, ⟨⟨⟩, rfl⟩, rfl, rfl⟩ | ⟨_, ⟨⟨⟩, -⟩, -⟩ | ⟨_, ⟨⟨⟩, -⟩, -⟩)
        split_ifs <;> exact ⟨rfl, rfl⟩
      · rintro ⟨rfl, rfl⟩
        refine .inl ⟨_, _, ⟨rfl, rfl⟩, ?_, rfl⟩
        split_ifs <;> rfl

/-- A record that does not decode ends the listing. -/
theorem runs_invitesFrom_unreadable (hcode : code ∈ codes) (hread : Unreadable w code)
    {o : Outcome InviteError (List (String × InviteRecord))}
    (h : (invitesFrom email codes).Runs scanExec Reliable (w, pages) o s) : ∃ e, o = .err e := by
  induction codes generalizing o s with
  | nil => cases hcode
  | cons c codes ih =>
    rw [invitesFrom, runs_getInvite] at h
    match hc : w.invites c with
    | none =>
      rw [hc] at h
      rcases List.mem_cons.mp hcode with rfl | hmem
      · obtain ⟨text, err, hread⟩ := hread
        rw [hread] at hc
        cases hc
      · exact ih hmem h
    | some (.corrupt text err) =>
      rw [hc] at h
      exact ⟨_, h.1⟩
    | some (.json r) =>
      rw [hc] at h
      simp only [recordFromJson, Prog.ofExcept_ok, Prog.pure_bind, Prog.runs_bind] at h
      have hmem : code ∈ codes := by
        rcases List.mem_cons.mp hcode with rfl | hmem
        · obtain ⟨text, err, hread⟩ := hread
          rw [hread] at hc
          cases hc
        · exact hmem
      rcases h with ⟨_, _, hrec, -⟩ | ⟨e, -, h⟩ | ⟨msg, hrec, -⟩
      · obtain ⟨e, he⟩ := ih hmem hrec
        cases he
      · exact ⟨e, h⟩
      · obtain ⟨e, he⟩ := ih hmem hrec
        cases he

/-! ## All pages -/

/-- All codes that a scan gives. -/
def scanned (pages : List Page) : List String := pages.flatMap Prod.snd

theorem mem_scanned : code ∈ scanned pages ↔ ∃ page ∈ pages, code ∈ page.2 := List.mem_flatMap

/-- The next page of the scan. -/
theorem runs_scanPage {α : Type} {cursor : String} {page : Page}
    {f : Except RedisError Page → Edge InviteError α} {o : Outcome InviteError α} :
    (Prog.cmd (.scan .invite cursor) f).Runs scanExec Reliable (w, page :: pages) o s ↔
      (f (.ok page)).Runs scanExec Reliable (w, pages) o s :=
  ⟨fun ⟨_, _, h⟩ => h, fun h => ⟨{}, rfl, h⟩⟩

variable {init : List Page} {n : ℕ} {cursor : String}
  {o : Outcome InviteError (List (String × InviteRecord))}

/-- **What is listed**: the account's invites on the pages, in the order of the pages. -/
theorem runs_invitesScan (hinit : ∀ page ∈ init, page.1 ≠ "0") (hn : init.length < n)
    (hread : ∀ code ∈ scanned (init ++ [("0", codes)]), ¬Unreadable w code) :
    (invitesScan email n cursor).Runs scanExec Reliable (w, init ++ [("0", codes)]) o s ↔
      o = .ok ((scanned (init ++ [("0", codes)])).filterMap (ownInvite w email)) ∧ s = (w, []) := by
  induction init generalizing n cursor o s with
  | nil =>
    obtain ⟨n, rfl⟩ := Nat.exists_eq_succ_of_ne_zero (Nat.ne_of_gt hn)
    rw [invitesScan, List.nil_append, runs_scanPage]
    have hpage : ∀ code ∈ codes, ¬Unreadable w code := fun code hcode =>
      hread code (mem_scanned.mpr ⟨_, List.mem_singleton_self _, hcode⟩)
    simp only [Prog.runs_bind, runs_invitesFrom hpage, if_true, Prog.runs_pure, scanned,
      List.flatMap_cons, List.flatMap_nil, List.append_nil]
    constructor
    · rintro (⟨_, _, ⟨⟨⟩, rfl⟩, rfl, rfl⟩ | ⟨_, ⟨⟨⟩, -⟩, -⟩ | ⟨_, ⟨⟨⟩, -⟩, -⟩)
      exact ⟨rfl, rfl⟩
    · rintro ⟨rfl, rfl⟩
      exact .inl ⟨_, _, ⟨rfl, rfl⟩, rfl, rfl⟩
  | cons page init ih =>
    obtain ⟨n, rfl⟩ := Nat.exists_eq_succ_of_ne_zero (Nat.ne_of_gt (Nat.zero_lt_of_lt hn))
    obtain ⟨next, first⟩ := page
    have hnext : next ≠ "0" := hinit _ List.mem_cons_self
    have hfirst : ∀ code ∈ first, ¬Unreadable w code := fun code hcode =>
      hread code (mem_scanned.mpr ⟨_, List.mem_cons_self, hcode⟩)
    have hrest : ∀ code ∈ scanned (init ++ [("0", codes)]), ¬Unreadable w code :=
      fun code hcode => hread code (List.mem_append_right _ hcode)
    have ih : ∀ {o s}, (invitesScan email n next).Runs scanExec Reliable (w, init ++ [("0", codes)]) o
        s ↔ o = .ok ((scanned (init ++ [("0", codes)])).filterMap (ownInvite w email)) ∧
          s = (w, []) :=
      ih (fun page hpage => hinit page (List.mem_cons_of_mem _ hpage))
        (Nat.lt_of_succ_lt_succ hn) hrest
    have happend : scanned ((next, first) :: (init ++ [("0", codes)])) =
        first ++ scanned (init ++ [("0", codes)]) := rfl
    rw [invitesScan, List.cons_append, runs_scanPage, happend, List.filterMap_append]
    simp only [Prog.runs_bind, runs_invitesFrom hfirst, if_neg hnext, Prog.runs_pure]
    constructor
    · rintro (⟨_, _, ⟨⟨⟩, rfl⟩, h⟩ | ⟨_, ⟨⟨⟩, -⟩, -⟩ | ⟨_, ⟨⟨⟩, -⟩, -⟩)
      simp only [ih] at h
      rcases h with ⟨_, _, ⟨⟨⟩, rfl⟩, rfl, rfl⟩ | ⟨_, ⟨⟨⟩, -⟩, -⟩ | ⟨_, ⟨⟨⟩, -⟩, -⟩
      exact ⟨rfl, rfl⟩
    · rintro ⟨rfl, rfl⟩
      exact .inl ⟨_, _, ⟨rfl, rfl⟩, .inl ⟨_, _, ih.mpr ⟨rfl, rfl⟩, rfl, rfl⟩⟩

/-- A record that does not decode, on any page, ends the listing. -/
theorem runs_invitesScan_unreadable (hinit : ∀ page ∈ init, page.1 ≠ "0") (hn : init.length < n)
    (hcode : code ∈ scanned (init ++ [("0", codes)])) (hread : Unreadable w code)
    (h : (invitesScan email n cursor).Runs scanExec Reliable (w, init ++ [("0", codes)]) o s) :
    ∃ e, o = .err e := by
  induction init generalizing n cursor o s with
  | nil =>
    obtain ⟨n, rfl⟩ := Nat.exists_eq_succ_of_ne_zero (Nat.ne_of_gt hn)
    rw [invitesScan, List.nil_append, runs_scanPage] at h
    have hmem : code ∈ codes := by
      rw [scanned, List.nil_append, List.flatMap_cons, List.flatMap_nil, List.append_nil] at hcode
      exact hcode
    rcases Prog.runs_bind.mp h with ⟨_, _, hpage, -⟩ | ⟨e, -, h⟩ | ⟨msg, hpage, -⟩
    · obtain ⟨e, he⟩ := runs_invitesFrom_unreadable hmem hread hpage
      cases he
    · exact ⟨e, h⟩
    · obtain ⟨e, he⟩ := runs_invitesFrom_unreadable hmem hread hpage
      cases he
  | cons page init ih =>
    obtain ⟨n, rfl⟩ := Nat.exists_eq_succ_of_ne_zero (Nat.ne_of_gt (Nat.zero_lt_of_lt hn))
    obtain ⟨next, first⟩ := page
    rw [invitesScan, List.cons_append, runs_scanPage] at h
    rcases Prog.runs_bind.mp h with ⟨_, s', hpage, h⟩ | ⟨e, -, h⟩ | ⟨msg, hpage, -⟩
    · -- the first page was read, so the record is on a later one
      by_cases hbad : ∃ c ∈ first, Unreadable w c
      · obtain ⟨c, hc, hbad⟩ := hbad
        obtain ⟨e, he⟩ := runs_invitesFrom_unreadable hc hbad hpage
        cases he
      · have hfirst : ∀ c ∈ first, ¬Unreadable w c := fun c hc hread => hbad ⟨c, hc, hread⟩
        have hmem : code ∈ scanned (init ++ [("0", codes)]) :=
          (List.mem_append.mp (show code ∈ first ++ scanned (init ++ [("0", codes)]) from hcode)).resolve_left
            fun hcode => hfirst code hcode hread
        obtain ⟨-, rfl⟩ := (runs_invitesFrom hfirst).mp hpage
        rw [if_neg (hinit _ List.mem_cons_self)] at h
        have ih : ∀ {o s}, (invitesScan email n next).Runs scanExec Reliable
            (w, init ++ [("0", codes)]) o s → ∃ e, o = .err e :=
          ih (fun page hpage => hinit page (List.mem_cons_of_mem _ hpage))
            (Nat.lt_of_succ_lt_succ hn) hmem
        rcases Prog.runs_bind.mp h with ⟨_, _, hrest, -⟩ | ⟨e, -, h⟩ | ⟨msg, hrest, -⟩
        · obtain ⟨e, he⟩ := ih hrest
          cases he
        · exact ⟨e, h⟩
        · obtain ⟨e, he⟩ := ih hrest
          cases he
    · exact ⟨e, h⟩
    · by_cases hbad : ∃ c ∈ first, Unreadable w c
      · obtain ⟨c, hc, hbad⟩ := hbad
        obtain ⟨e, he⟩ := runs_invitesFrom_unreadable hc hbad hpage
        cases he
      · obtain ⟨h, -⟩ := (runs_invitesFrom fun c hc hread => hbad ⟨c, hc, hread⟩).mp hpage
        cases h

/-! ## Exactness -/

/-- The outcome lists every invite of the account once, and nothing else. -/
def Lists (w : World) (email : String) (o : Outcome InviteError (List (String × InviteRecord))) : Prop :=
  ∃ invites, o = .ok invites ∧ (invites.map Prod.fst).Nodup ∧ ∀ code r,
    (code, r) ∈ invites ↔ w.invites code = some (.json r) ∧ r.ownerEmail = email

/-- The two stores hold the same invites of the account; the others are whatever they are. -/
def SameOwn (email : String) (w w' : World) : Prop :=
  ∀ code r, r.ownerEmail = email →
    (w.invites code = some (.json r) ↔ w'.invites code = some (.json r))

/-- Listing with these pages gives the outcome, and no other. -/
def Gives (email : String) (n : ℕ) (pages : List Page) (w : World)
    (o : Outcome InviteError (List (String × InviteRecord))) : Prop :=
  ∀ o', (∃ s, (invitesOf email n).Runs scanExec Reliable (w, pages) o' s) ↔ o' = o

/-- No record on a page is undecodable. -/
def Readable (pages : List Page) (w : World) : Prop := ∀ code ∈ scanned pages, ¬Unreadable w code

/-- No invite of the account is on the pages twice. -/
def Once (email : String) (pages : List Page) (w : World) : Prop :=
  ((scanned pages).filter fun code => (ownInvite w email code).isSome).Nodup

theorem SameOwn.ownInvite_eq {w' : World} (h : SameOwn email w w') :
    ownInvite w' email = ownInvite w email := by
  funext code
  refine Option.ext fun x => ?_
  rw [ownInvite_eq_some, ownInvite_eq_some]
  exact ⟨fun ⟨hc, hr, ho⟩ => ⟨hc, (h _ _ ho).mpr hr, ho⟩, fun ⟨hc, hr, ho⟩ => ⟨hc, (h _ _ ho).mp hr, ho⟩⟩

/-- The codes of the listed invites. -/
theorem map_fst_ownInvite (codes : List String) : (codes.filterMap (ownInvite w email)).map Prod.fst =
    codes.filter fun code => (ownInvite w email code).isSome := by
  induction codes with
  | nil => rfl
  | cons code codes ih =>
    cases hown : ownInvite w email code with
    | none => rw [List.filterMap_cons_none hown, List.filter_cons_of_neg (by simp [hown]), ih]
    | some x =>
      rw [List.filterMap_cons_some hown, List.filter_cons_of_pos (by simp [hown]), List.map_cons, ih,
        (ownInvite_eq_some.mp hown).1]

/-- Every invite is on a page, so the list is exact but for repetitions. -/
theorem lists_iff (hscan : Scan w pages) :
    Lists w email (.ok ((scanned pages).filterMap (ownInvite w email))) ↔ Once email pages w := by
  unfold Lists Once
  rw [← map_fst_ownInvite]
  constructor
  · rintro ⟨_, ⟨⟩, hnodup, -⟩
    exact hnodup
  · refine fun hnodup => ⟨_, rfl, hnodup, fun code r => ?_⟩
    rw [List.mem_filterMap]
    constructor
    · rintro ⟨c, -, hown⟩
      obtain ⟨rfl, hr, hemail⟩ := ownInvite_eq_some.mp hown
      exact ⟨hr, hemail⟩
    · rintro ⟨hr, hemail⟩
      refine ⟨code, mem_scanned.mpr (hscan.covers code (by rw [hr]; rfl)), ?_⟩
      exact ownInvite_eq_some.mpr ⟨rfl, hr, hemail⟩

theorem gives_of_readable (hscan : Scan w pages) (hn : pages.length ≤ n) (hread : Readable pages w) :
    Gives email n pages w (.ok ((scanned pages).filterMap (ownInvite w email))) := by
  obtain ⟨init, codes, rfl, hinit⟩ := hscan.ends
  rw [List.length_append, List.length_singleton] at hn
  intro o'
  have hruns : ∀ {s}, (invitesOf email n).Runs scanExec Reliable (w, init ++ [("0", codes)]) o' s ↔ _ :=
    runs_invitesScan hinit hn hread
  exact ⟨fun ⟨s, h⟩ => (hruns.mp h).1, fun h => ⟨_, hruns.mpr ⟨h, rfl⟩⟩⟩

theorem not_gives_of_unreadable (hscan : Scan w pages) (hn : pages.length ≤ n)
    (hread : ¬Readable pages w) {invites : List (String × InviteRecord)} :
    ¬Gives email n pages w (.ok invites) := by
  obtain ⟨init, codes, rfl, hinit⟩ := hscan.ends
  rw [List.length_append, List.length_singleton] at hn
  intro h
  obtain ⟨s, hrun⟩ := (h _).mpr rfl
  obtain ⟨code, hcode, hbad⟩ : ∃ code ∈ scanned (init ++ [("0", codes)]), Unreadable w code := by
    by_contra hnone
    exact hread fun code hcode hbad => hnone ⟨code, hcode, hbad⟩
  obtain ⟨e, he⟩ := runs_invitesScan_unreadable hinit hn hcode hbad hrun
  cases he

/-- An account with one invite. -/
def oneInvite : World :=
  { World.empty with
    invites := Function.update (fun _ => none) sampleCode
      (some (.json ⟨"owner@example.net", .dormant, none⟩)) }

theorem oneInvite_invites : oneInvite.invites code =
    if code = sampleCode then some (.json ⟨"owner@example.net", .dormant, none⟩) else none := by
  unfold oneInvite
  dsimp only
  rw [Function.update_apply]

theorem oneInvite_scan {pages : List Page} {codes : List String} (before : List Page)
    (hpages : pages = before ++ [("0", codes)]) (hbefore : ∀ page ∈ before, page.1 ≠ "0")
    (hcode : sampleCode ∈ codes) : Scan oneInvite pages where
  ends := ⟨before, codes, hpages, hbefore⟩
  covers code h := by
    by_cases hc : code = sampleCode
    · exact ⟨("0", codes), hpages ▸ List.mem_append_right _ (List.mem_singleton_self _), hc ▸ hcode⟩
    · rw [oneInvite_invites, if_neg hc] at h
      cases h

theorem oneInvite_readable (pages : List Page) : Readable pages oneInvite := by
  rintro code - ⟨text, err, hcode⟩
  rw [oneInvite_invites] at hcode
  split_ifs at hcode
  cases hcode

/-- An invite that is on two pages is listed twice. -/
theorem listedTwice : Scan oneInvite [("17", [sampleCode]), ("0", [sampleCode])] ∧
    ¬∃ o, Gives "owner@example.net" 2 [("17", [sampleCode]), ("0", [sampleCode])] oneInvite o ∧
      Lists oneInvite "owner@example.net" o := by
  have hscan : Scan oneInvite [("17", [sampleCode]), ("0", [sampleCode])] :=
    oneInvite_scan [("17", [sampleCode])] rfl (by decide) (List.mem_singleton_self _)
  refine ⟨hscan, fun ⟨o, hgives, hlists⟩ => ?_⟩
  have ho := (gives_of_readable hscan le_rfl (oneInvite_readable _) o).mp ((hgives o).mpr rfl)
  rw [ho, lists_iff hscan] at hlists
  exact absurd hlists (by unfold Once; decide)

/-- **When the list is exact**: two stores with the same invites of the account give one exact list,
if and only if no record on the pages is undecodable and none of these invites is there twice. -/
theorem invitesOf_exact_iff {w' : World} (hown : SameOwn email w w') (hscan : Scan w pages)
    (hscan' : Scan w' pages) (hn : pages.length ≤ n) :
    (∃ o, Gives email n pages w o ∧ Gives email n pages w' o ∧ Lists w email o) ↔
      (Readable pages w ∧ Readable pages w') ∧ Once email pages w := by
  constructor
  · rintro ⟨_, hgives, hgives', invites, rfl, hlists⟩
    have hread : Readable pages w := by
      by_contra hread
      exact not_gives_of_unreadable hscan hn hread hgives
    have hread' : Readable pages w' := by
      by_contra hread'
      exact not_gives_of_unreadable hscan' hn hread' hgives'
    refine ⟨⟨hread, hread'⟩, ?_⟩
    rw [← lists_iff hscan, ← (gives_of_readable hscan hn hread _).mp ((hgives _).mpr rfl)]
    exact ⟨invites, rfl, hlists⟩
  · rintro ⟨⟨hread, hread'⟩, honce⟩
    refine ⟨_, gives_of_readable hscan hn hread, ?_, (lists_iff hscan).mpr honce⟩
    rw [← hown.ownInvite_eq]
    exact gives_of_readable hscan' hn hread'

/-- One page with the one invite. -/
theorem invitesOf_exact_iff_one : ∃ o, Gives "owner@example.net" 1 [("0", [sampleCode])] oneInvite o ∧
    Gives "owner@example.net" 1 [("0", [sampleCode])] oneInvite o ∧
    Lists oneInvite "owner@example.net" o := by
  have hscan : Scan oneInvite [("0", [sampleCode])] :=
    oneInvite_scan [] rfl nofun (List.mem_singleton_self _)
  exact (invitesOf_exact_iff (fun _ _ _ => Iff.rfl) hscan hscan le_rfl).mpr
    ⟨⟨oneInvite_readable _, oneInvite_readable _⟩, by unfold Once; decide⟩

end ControlPlane
end Cococoir
