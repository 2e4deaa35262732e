import Cococoir.Dashboard.Form

/-!
# Saving a form

A successful save leaves in the file what was submitted, and nothing else that the dashboard knows
of has changed.  A form that is saved as it was shown changes no field at all, unless a line cannot
hold a group: `[ "a b" ]` is shown as `a b`, and saved as `[ "a" "b" ]`.

* `Kept`: what an applied form leaves to be found.
* `Kept.shows`, `Kept.unchanged_iff`: what the page shows after it.
* `saveForm_faithful`: the same of a save.

## The argument

A form is a batch of edits, so what is found after a save is known from `Dashboard.Batch`: every
write of the form, and everything else as before.  `Kept` says it of the fields that the page
knows.  What the page then shows is computed from lookups, and `Kept.shows` follows each of them:
the services that are checked, the texts that are declared, the users and their groups.

For the second half the submitted form is the one that was rendered.  Then every text is written
as it was found, and every flag; a line of groups is the groups joined by spaces, and what is
written are the words of the line.  The two lists of groups are equal exactly if each group is a
word, which is where the equivalence comes from.  A save that does not succeed leaves the file,
and so the page.
-/

namespace Cococoir
namespace Dashboard

open Concurrency (Outcome)

/-! ## What a save leaves -/

section Faithful

variable {rnix : Rnix} {file file' : NixConfigFile rnix} {form : EditorForm}

theorem users_pairwise (file : NixConfigFile rnix) (schema : ConfigSchema) :
    (FortressConfig.extract file schema).users.Pairwise fun a b => a.username ≠ b.username :=
  List.pairwise_map.mpr ((names_spec file schema.usersRoot).1.imp ne_of_lt)

/-- What the page should show after a save: the checked services, the declared texts and the
groups of the known users as they were submitted. -/
structure Shows (config : FortressConfig) (form : EditorForm) (config' : FortressConfig) : Prop where
  services : ∀ n ∈ serviceList, (config'.servicesEnabled n).getD false = form.serviceChecked n
  hostname : ∀ text, form.hostname = some text → config.hostname.isSome → config'.hostname = some text
  baseDomain : ∀ text, form.baseDomain = some text → config.rootDomain.isSome →
    config'.rootDomain = some text
  groups : ∀ user ∈ config.users, ∀ text, form.userGroups user.username = some text →
    ∃ user' ∈ config'.users, user'.username = user.username ∧
      ∀ g, g ∈ user'.groups ↔ g ∈ splitGroups text

/-- What an applied form leaves to be found in the fields. -/
structure Kept (file : NixConfigFile rnix) (form : EditorForm) (file' : NixConfigFile rnix) : Prop where
  written : ∀ write field, Written (.extract file .default) form write field →
    file'.valueAt field.path = some write.value
  others : ∀ path, (∀ write ∈ formWrites (.extract file .default) form, Incomparable write.path path) →
    file'.valueAt path = file.valueAt path

theorem Kept.unwritten (h : Kept file form file') {field : Field}
    (hfield : ∀ write, ¬Written (.extract file .default) form write field) :
    file'.valueAt field.path = file.valueAt field.path :=
  h.others _ (incomparable_formWrites hfield)

theorem kept_of_applied (hvalues : rnix.ReadsValues) (hentries : rnix.ReadsEntries)
    (hsound : ∀ write ∈ formWrites (.extract file .default) form, write.Sound file)
    (h : Applied file (buildEdits (.extract file .default) form) file') : Kept file form file' := by
  obtain ⟨hwritten, hothers⟩ :=
    h.valueAt hvalues hentries hsound (pairwise_formWrites (users_pairwise file .default))
  refine ⟨fun write field hfield => ?_, hothers⟩
  rw [← hfield.path_eq]
  exact hwritten write (mem_formWrites.mpr ⟨field, hfield⟩)

/-- A save keeps the names of the users. -/
theorem Kept.names (h : Kept file form file') :
    file'.names ["users".toList, "users".toList] = file.names ["users".toList, "users".toList] := by
  obtain ⟨hpair, hmem⟩ := names_spec file ["users".toList, "users".toList]
  obtain ⟨hpair', hmem'⟩ := names_spec file' ["users".toList, "users".toList]
  refine eq_of_pairwise_lt hpair' hpair fun k => ?_
  by_cases hwritten : ∃ write, Written (.extract file .default) form write (.user k "groups".toList)
  · obtain ⟨write, hwrite⟩ := hwritten
    have hfound : k ∈ file'.names ["users".toList, "users".toList] := by
      refine (hmem' k).mpr ⟨["groups".toList], ?_⟩
      have hvalue := h.written write _ hwrite
      show (file'.valueAt (Field.user k "groups".toList).path).isSome
      rw [hvalue]
      rfl
    refine iff_of_true hfound ?_
    obtain ⟨-, user, huser, rfl, -⟩ := hwrite.exists_user
    obtain ⟨name, hname, rfl⟩ := List.mem_map.mp huser
    exact hname
  · rw [hmem, hmem']
    refine exists_congr fun more => ?_
    rw [h.others _ (incomparable_below (fun write hwrite => hwritten ⟨write, hwrite⟩) more)]

/-- A user of the file is extracted from the lookups below its name. -/
theorem mem_users {user : CocoUser} (h : user ∈ (FortressConfig.extract file .default).users) :
    user.username ∈ file.names ["users".toList, "users".toList] ∧
      user = extractUser file ["users".toList, "users".toList] user.username := by
  obtain ⟨name, hname, rfl⟩ := List.mem_map.mp h
  exact ⟨hname, rfl⟩

theorem not_written_groups {user : CocoUser} (huser : user ∈ (FortressConfig.extract file .default).users)
    (h : userWrite form user = none) (write : Write) :
    ¬Written (.extract file .default) form write (.user user.username "groups".toList) := by
  intro hwritten
  obtain ⟨-, user', huser', hname, hsome⟩ := hwritten.exists_user
  rw [(mem_users huser').2, hname, ← (mem_users huser).2, h] at hsome
  cases hsome

theorem not_declared {user : CocoUser} (huser : user ∈ (FortressConfig.extract file .default).users)
    (h : user.groupsDeclared = false) :
    (file.valueAt (Field.user user.username "groups".toList).path).bind NixValue.asStrList = none := by
  rw [(mem_users huser).2] at h
  exact Option.isSome_eq_false_iff.mp h |> Option.isNone_iff_eq_none.mp

/-- **What the page shows after a save** is what was submitted. -/
theorem Kept.shows (h : Kept file form file') :
    Shows (.extract file .default) form (.extract file' .default) where
  services n hn := by
    rw [servicesEnabled_extract hn]
    rcases hwrite : serviceWrite (.extract file .default) form n with _ | write
    · obtain ⟨hdeclared, hunchecked⟩ := serviceWrite_eq_none hwrite
      have hvalue : file'.valueAt (Field.service n).path = file.valueAt (Field.service n).path := by
        refine h.unwritten fun write hwritten => ?_
        have hsome := (written_service.mp hwritten).2
        rw [hwrite] at hsome
        cases hsome
      rw [servicesEnabled_extract hn] at hdeclared
      rw [hvalue, hdeclared, hunchecked]
      rfl
    · rw [h.written write _ (.service hn hwrite), serviceWrite_eq_some hwrite]
      rfl
  hostname text htext hdeclared := by
    have hwrite := h.written ⟨Field.hostname.path, .str text⟩ _
      (.hostname (mem_fieldWrite.mpr ⟨hdeclared, text, htext, rfl⟩))
    exact congrArg (·.bind NixValue.asStr) hwrite
  baseDomain text htext hdeclared := by
    have hwrite := h.written ⟨Field.baseDomain.path, .str text⟩ _
      (.baseDomain (mem_fieldWrite.mpr ⟨hdeclared, text, htext, rfl⟩))
    exact congrArg (·.bind NixValue.asStr) hwrite
  groups user huser text htext := by
    obtain ⟨hname, hextract⟩ := mem_users huser
    refine ⟨extractUser file' ["users".toList, "users".toList] user.username,
      List.mem_map_of_mem (h.names ▸ hname), rfl, fun g => ?_⟩
    show g ∈ toSet (((file'.valueAt (Field.user user.username "groups".toList).path).bind
      NixValue.asStrList).getD []) ↔ _
    rw [mem_toSet]
    rcases hwrite : userWrite form user with _ | write
    · obtain ⟨hdeclared, hempty⟩ := userWrite_eq_none hwrite htext
      rw [h.unwritten (not_written_groups huser hwrite), not_declared huser hdeclared, hempty]
      rfl
    · obtain ⟨text', htext', hvalue⟩ := userWrite_eq_some hwrite
      obtain rfl := Option.some.inj (htext'.symm.trans htext)
      rw [h.written write _ (.groups huser hwrite), hvalue]
      rfl

end Faithful

/-! ## The form as it was shown -/

section Rendered

variable {config : FortressConfig}

theorem svc_ne_groups (a b : Text) : "svc_".toList ++ a ≠ "groups_".toList ++ b := by
  intro h
  have hhead := congrArg List.head? h
  cases hhead

theorem rendered_serviceChecked {nixname : Text} (hmem : nixname ∈ serviceList) :
    (renderedForm config).serviceChecked nixname = (config.servicesEnabled nixname).getD false := by
  unfold EditorForm.serviceChecked renderedForm
  dsimp only
  have hnone : config.users.find? (fun user => "svc_".toList ++ nixname = "groups_".toList ++ user.username)
      = none := List.find?_eq_none.mpr fun user _ h => svc_ne_groups _ _ (of_decide_eq_true h)
  split_ifs with h
  · obtain ⟨n, -, heq, henabled⟩ := h
    rw [List.append_cancel_left heq, henabled]
    exact decide_eq_true rfl
  · rw [hnone]
    have hdisabled : (config.servicesEnabled nixname).getD false = false :=
      Bool.eq_false_iff.mpr fun henabled => h ⟨nixname, hmem, rfl, henabled⟩
    rw [hdisabled]
    refine decide_eq_false fun hsome => ?_
    cases hsome

/-- Among users of different names, each is found by its name. -/
theorem find?_username {users : List CocoUser}
    (hnames : users.Pairwise fun a b => a.username ≠ b.username) {user : CocoUser} (hmem : user ∈ users) :
    users.find? (fun u => "groups_".toList ++ user.username = "groups_".toList ++ u.username) =
      some user := by
  induction users with
  | nil => exact absurd hmem List.not_mem_nil
  | cons u users ih =>
    obtain ⟨hhead, htail⟩ := List.pairwise_cons.mp hnames
    rcases List.mem_cons.mp hmem with rfl | hmem
    · exact List.find?_cons_of_pos (decide_eq_true rfl)
    · rw [List.find?_cons_of_neg]
      · exact ih htail hmem
      · intro h
        exact hhead user hmem (List.append_cancel_left (of_decide_eq_true h)).symm

theorem rendered_userGroups (hnames : config.users.Pairwise fun a b => a.username ≠ b.username)
    {user : CocoUser} (hmem : user ∈ config.users) :
    (renderedForm config).userGroups user.username = some (groupsLine user) := by
  have hnot : ¬∃ nixname ∈ serviceList, "groups_".toList ++ user.username = "svc_".toList ++ nixname ∧
      (config.servicesEnabled nixname).getD false := by
    rintro ⟨n, -, heq, -⟩
    exact svc_ne_groups _ _ heq.symm
  unfold EditorForm.userGroups renderedForm
  dsimp only
  rw [if_neg hnot]
  rw [find?_username hnames hmem]
  rfl

variable {rnix : Rnix} {file file' : NixConfigFile rnix}

/-- A text of the form as it was shown is written as it was found. -/
theorem rendered_fieldWrite {declared : Option Text} {path : List Text} {write : Write}
    (h : write ∈ fieldWrite declared (some (declared.getD [])) path) :
    ∃ text, declared = some text ∧ write = ⟨path, .str text⟩ := by
  obtain ⟨hdeclared, text, htext, rfl⟩ := mem_fieldWrite.mp h
  obtain ⟨old, rfl⟩ := Option.isSome_iff_exists.mp hdeclared
  obtain rfl : old = text := Option.some.inj htext
  exact ⟨old, rfl, rfl⟩

/-- A write of the form as it was shown goes to a value that is found, and writes a flag or a text
as it is there, or the groups of a user that has some declared. -/
theorem rendered_written {write : Write} {field : Field}
    (h : Written (.extract file .default) (renderedForm (.extract file .default)) write field) :
    file.valueAt field.path = some write.value ∨
      ∃ user ∈ (FortressConfig.extract file .default).users, ∃ items,
        field = .user user.username "groups".toList ∧
        file.valueAt field.path = some (.strList items) ∧ user.groups = toSet items ∧
        write.value = .strList (splitGroups (groupsLine user)) := by
  rcases h with h | h | ⟨hmem, h⟩ | ⟨hmem, h⟩
  · obtain ⟨text, htext, rfl⟩ := rendered_fieldWrite h
    exact .inl (asStr_eq_some htext)
  · obtain ⟨text, htext, rfl⟩ := rendered_fieldWrite h
    exact .inl (asStr_eq_some htext)
  · rename_i n
    have hchecked : (renderedForm (.extract file .default)).serviceChecked n =
        ((FortressConfig.extract file .default).servicesEnabled n).getD false :=
      rendered_serviceChecked hmem
    rw [serviceWrite_eq_some h, hchecked]
    rcases hflag : (FortressConfig.extract file .default).servicesEnabled n with _ | enabled
    · rw [hflag] at hchecked
      rw [serviceWrite, hflag, hchecked] at h
      cases h
    · rw [servicesEnabled_extract hmem] at hflag
      exact .inl (asBool_eq_some hflag)
  · rename_i user
    obtain ⟨text, htext, rfl⟩ := userWrite_eq_some h
    rw [rendered_userGroups (users_pairwise file .default) hmem] at htext
    obtain rfl := Option.some.inj htext
    have hgroups : user.groups = toSet (((file.valueAt (Field.user user.username "groups".toList).path).bind
        NixValue.asStrList).getD []) := congrArg CocoUser.groups (mem_users hmem).2
    rcases hitems : (file.valueAt (Field.user user.username "groups".toList).path).bind NixValue.asStrList
      with _ | items
    · have hdeclared : user.groupsDeclared = false := by
        rw [(mem_users hmem).2]
        exact Option.isSome_eq_false_iff.mpr (Option.isNone_iff_eq_none.mpr hitems)
      rw [hitems] at hgroups
      rw [userWrite, rendered_userGroups (users_pairwise file .default) hmem, Option.bind_some,
        hdeclared, groupsLine, hgroups] at h
      cases h
    · rw [hitems] at hgroups
      exact .inr ⟨user, hmem, items, rfl, asStrList_eq_some hitems, hgroups, rfl⟩

/-- The form as it was shown adds no entry. -/
theorem rendered_newSegments {write : Write}
    (h : write ∈ formWrites (.extract file .default) (renderedForm (.extract file .default)))
    (segments : List Text) : ¬NewSegments file write.path segments := by
  rintro ⟨root, point, hparse, hfind, -⟩
  obtain ⟨field, hfield⟩ := mem_formWrites.mp h
  have hnone : file.valueAt field.path = none := by
    have hpath := field.path_ne
    rw [← hfield.path_eq] at hpath ⊢
    rw [NixConfigFile.valueAt, findAttrpath_eq hparse hpath, hfind]
    rfl
  rcases rendered_written hfield with hvalue | ⟨user, -, items, -, hvalue, -, -⟩
  · rw [hnone] at hvalue
    cases hvalue
  · rw [hnone] at hvalue
    cases hvalue

theorem extractUser_ext {username : Text}
    (hpassword : file'.valueAt (Field.user username "hashedPassword".toList).path =
      file.valueAt (Field.user username "hashedPassword".toList).path)
    (hgroups : (extractUser file' ["users".toList, "users".toList] username).groups =
      (extractUser file ["users".toList, "users".toList] username).groups)
    (hdeclared : ((file'.valueAt (Field.user username "groups".toList).path).bind
        NixValue.asStrList).isSome =
      ((file.valueAt (Field.user username "groups".toList).path).bind NixValue.asStrList).isSome) :
    extractUser file' ["users".toList, "users".toList] username =
      extractUser file ["users".toList, "users".toList] username := by
  have hhash : (extractUser file' ["users".toList, "users".toList] username).hashedPassword =
      (extractUser file ["users".toList, "users".toList] username).hashedPassword :=
    congrArg (·.bind NixValue.asStr) hpassword
  rw [CocoUser.mk.injEq]
  exact ⟨rfl, hhash, hgroups, hdeclared⟩

theorem groups_extractUser {username : Text} {items : List Text}
    (h : file.valueAt (Field.user username "groups".toList).path = some (.strList items)) :
    (extractUser file ["users".toList, "users".toList] username).groups = toSet items := by
  show toSet (((file.valueAt (Field.user username "groups".toList).path).bind
    NixValue.asStrList).getD []) = _
  rw [h]
  rfl

/-- The groups of a user, when the form is saved as it was shown: split from their line, or not
declared. -/
theorem Kept.rendered_groups (h : Kept file (renderedForm (.extract file .default)) file')
    {user : CocoUser} (huser : user ∈ (FortressConfig.extract file .default).users) :
    (∃ items, user.groups = toSet items ∧
      file.valueAt (Field.user user.username "groups".toList).path = some (.strList items) ∧
      file'.valueAt (Field.user user.username "groups".toList).path =
        some (.strList (splitGroups (groupsLine user)))) ∨
    user.groups = [] ∧ file'.valueAt (Field.user user.username "groups".toList).path =
      file.valueAt (Field.user user.username "groups".toList).path := by
  have hline := rendered_userGroups (users_pairwise file .default) huser
  rcases hwrite : userWrite (renderedForm (.extract file .default)) user with _ | write
  · have hvalue := h.unwritten (not_written_groups huser hwrite)
    refine .inr ⟨?_, hvalue⟩
    have hnone := not_declared huser (userWrite_eq_none hwrite hline).1
    rw [(mem_users huser).2]
    exact congrArg (fun items : Option (List Text) => toSet (items.getD [])) hnone
  · have hwritten : Written (.extract file .default) (renderedForm (.extract file .default)) write
        (.user user.username "groups".toList) := .groups huser hwrite
    have hvalue := h.written _ _ hwritten
    rcases rendered_written hwritten with hold | ⟨user', huser', items, hfield, hold, hgroups, hnew⟩
    · obtain ⟨text, htext, rfl⟩ := userWrite_eq_some hwrite
      obtain rfl := Option.some.inj (hline.symm.trans htext)
      refine .inl ⟨splitGroups (groupsLine user), ?_, hold, hvalue⟩
      exact (congrArg CocoUser.groups (mem_users huser).2).trans (groups_extractUser hold)
    · have hsame : user' = user := by
        rw [(mem_users huser').2, ← (Field.user.inj hfield).1, ← (mem_users huser).2]
      subst hsame
      exact .inl ⟨items, hgroups, hold, hvalue.trans (congrArg some hnew)⟩

/-- **A form that is saved as it was shown** changes no field exactly if each group is one that a
line can hold. -/
theorem Kept.unchanged_iff (h : Kept file (renderedForm (.extract file .default)) file') :
    FortressConfig.extract file' .default = .extract file .default ↔
      ∀ user ∈ (FortressConfig.extract file .default).users, ∀ g ∈ user.groups, IsGroup g := by
  have hsame : ∀ field : Field, (∀ username, field ≠ .user username "groups".toList) →
      file'.valueAt field.path = file.valueAt field.path := by
    intro field hfield
    by_cases hwritten : ∃ write, Written (.extract file .default)
        (renderedForm (.extract file .default)) write field
    · obtain ⟨write, hwrite⟩ := hwritten
      rw [h.written write field hwrite]
      rcases rendered_written hwrite with hvalue | ⟨user, -, items, heq, -⟩
      · exact hvalue.symm
      · exact absurd heq (hfield _)
    · exact h.unwritten fun write hwrite => hwritten ⟨write, hwrite⟩
  constructor
  · intro heq user huser
    have husers : ∀ u ∈ file.names ["users".toList, "users".toList],
        extractUser file' ["users".toList, "users".toList] u =
          extractUser file ["users".toList, "users".toList] u := by
      have hlists := congrArg FortressConfig.users heq
      have hnames : file'.names ConfigSchema.default.usersRoot =
        file.names ConfigSchema.default.usersRoot := h.names
      rw [FortressConfig.extract, FortressConfig.extract, hnames] at hlists
      exact List.map_inj_left.mp hlists
    rcases h.rendered_groups huser with ⟨items, hgroups, -, hnew⟩ | ⟨hempty, -⟩
    · obtain ⟨hname, hextract⟩ := mem_users huser
      have hsplit : toSet (splitGroups (groupsLine user)) = user.groups := by
        rw [← groups_extractUser hnew, husers _ hname, ← hextract]
      refine splitGroups_eq.mp fun g => ?_
      rw [← mem_toSet, ← groupsLine, hsplit]
    · intro g hg
      rw [hempty] at hg
      exact absurd hg List.not_mem_nil
  · intro hclean
    refine extract_ext (hsame .hostname fun _ hne => by cases hne)
      (hsame .baseDomain fun _ hne => by cases hne)
      (fun n _ => hsame (.service n) fun _ hne => by cases hne) h.names fun u hu => ?_
    have huser : extractUser file ["users".toList, "users".toList] u ∈
        (FortressConfig.extract file .default).users := List.mem_map_of_mem hu
    have hpassword : file'.valueAt (Field.user u "hashedPassword".toList).path =
        file.valueAt (Field.user u "hashedPassword".toList).path :=
      hsame _ fun name heq => absurd (Field.user.inj heq).2 (by decide)
    rcases h.rendered_groups huser with ⟨items, hgroups, hold, hnew⟩ | ⟨-, hsame⟩
    · refine extractUser_ext hpassword ?_ ?_
      · rw [hgroups]
        refine (groups_extractUser hnew).trans (toSet_eq.mpr fun g => ?_)
        rw [groupsLine, splitGroups_eq.mpr (hclean _ huser) g, hgroups, mem_toSet]
      · exact (congrArg (fun v => (v.bind NixValue.asStrList).isSome) hnew).trans
          (congrArg (fun v => (v.bind NixValue.asStrList).isSome) hold).symm
    · exact extractUser_ext hpassword
        (congrArg (fun v : Option NixValue => toSet ((v.bind NixValue.asStrList).getD [])) hsame)
        (congrArg (fun v => (v.bind NixValue.asStrList).isSome) hsame)

end Rendered

/-! ## Saving a form -/

/-- A save that succeeds has applied its edits to the file that was there. -/
theorem applied_of_saveConfig {rnix : Rnix} {file : NixConfigFile rnix} {choice : SaveChoice}
    {edits : List ConfigEdit} {disk disk' : Disk} (hdisk : disk.config = some (.text file.source))
    (h : saveConfig rnix choice edits disk = (.ok (), disk')) :
    ∃ file', Applied file edits file' ∧ disk'.config = some (.text file'.source) := by
  unfold saveConfig at h
  split at h
  · cases h
  · rename_i file₀ hread
    obtain rfl : file₀ = file := NixConfigFile.eq_of_source
      (Contents.text.inj (Option.some.inj ((readConfig_eq_ok hread).symm.trans hdisk)))
    split at h
    · rename_i candidate hedits
      refine ⟨candidate, applied_of_applyEdits hedits, ?_⟩
      unfold writeAtomic at h
      split_ifs at h
      · rcases hwrite : choice.writeFails with _ | error
        · rcases hrename : choice.renameFails with _ | error
          · rw [hwrite, hrename] at h
            rw [← (Prod.mk.inj h).2]
          · rw [hwrite, hrename] at h
            cases h
        · rw [hwrite] at h
          cases h
      · cases h
    · cases h
    · cases h

/-- The file `{ users.users.u.groups = [ … ]; }`. -/
def groupsRoot (groups : List Text) : Root :=
  ⟨[], .attrSet none (.leaf ⟨[' '], dotted (Field.user ['u'] "groups".toList).path, [' '], [' ']⟩
    (.list (groups.map fun g => .str [.literal g]) (NixValue.strList groups).toSource) []
    (.nil [' '])), []⟩

def groupsTable : Rnix := tableRnix [groupsRoot ["a b".toList], groupsRoot [['a'], ['b']]]

def spacedFile : NixConfigFile groupsTable :=
  ⟨(groupsRoot ["a b".toList]).text, groupsRoot ["a b".toList], rfl⟩

def splitGroupsFile : NixConfigFile groupsTable :=
  ⟨(groupsRoot [['a'], ['b']]).text, groupsRoot [['a'], ['b']], by decide⟩

/-- The hostname `${b}`, in a file that escapes it and in one that does not. -/
def escapedRoot (parts : List InterpolPart) (text : Text) : Root :=
  ⟨[], .attrSet none (.leaf ⟨[' '], dotted Field.hostname.path, [' '], [' ']⟩ (.str parts text) []
    (.nil [' '])), []⟩

def escapedTable : Rnix :=
  tableRnix [escapedRoot [.literal ['$', '\x7b', 'b', '\x7d']]
      ['"', '\\', '$', '\x7b', 'b', '\x7d', '"'],
    escapedRoot [.interpolation] ['"', '$', '\x7b', 'b', '\x7d', '"']]

def escapedFile : NixConfigFile escapedTable :=
  ⟨(escapedRoot [] ['"', '\\', '$', '\x7b', 'b', '\x7d', '"']).text, _, rfl⟩

def unescapedFile : NixConfigFile escapedTable :=
  ⟨(escapedRoot [] ['"', '$', '\x7b', 'b', '\x7d', '"']).text,
    escapedRoot [.interpolation] ['"', '$', '\x7b', 'b', '\x7d', '"'], by decide⟩

/-- To save the form as it was shown changes no field. -/
def Unchanged {rnix : Rnix} (file : NixConfigFile rnix) : Prop :=
  ∀ disk', saveConfig rnix {}
      (buildEdits (.extract file .default) (renderedForm (.extract file .default)))
      ⟨some (.text file.source), none⟩ = (.ok (), disk') →
    ∀ file' : NixConfigFile rnix, disk'.config = some (.text file'.source) →
      FortressConfig.extract file' .default = .extract file .default

/-- A hostname with an escaped `${` is saved as code, and a group whose name has a space as two. -/
theorem saveForm_changes : ¬Unchanged escapedFile ∧ ¬Unchanged spacedFile := by
  refine ⟨fun h => ?_, fun h => ?_⟩
  · have hsave : saveConfig escapedTable {}
      (buildEdits (.extract escapedFile .default) (renderedForm (.extract escapedFile .default)))
        ⟨some (.text escapedFile.source), none⟩ =
          (.ok (), ⟨some (.text unescapedFile.source), none⟩) := by
      decide
    have hhost := congrArg FortressConfig.hostname (h _ hsave unescapedFile rfl)
    exact absurd hhost (by decide)
  · have hsave : saveConfig groupsTable {}
      (buildEdits (.extract spacedFile .default) (renderedForm (.extract spacedFile .default)))
        ⟨some (.text spacedFile.source), none⟩ =
          (.ok (), ⟨some (.text splitGroupsFile.source), none⟩) := by
      decide
    have husers := congrArg FortressConfig.users (h _ hsave splitGroupsFile rfl)
    exact absurd husers (by decide)

/-- **A saved form** is what the page then shows: the flags, the declared texts and the groups of the
known users are those submitted, when what is written starts no interpolation and new keys are made
of identifiers; and when the form is the one that was shown, nothing that the dashboard knows of has
changed exactly if each group is one that a line can hold.  A save that does not succeed leaves the
file, and with it everything that was shown. -/
theorem saveForm_faithful {rnix : Rnix} (hvalues : rnix.ReadsValues) (hentries : rnix.ReadsEntries)
    {file : NixConfigFile rnix} {form : EditorForm}
    (hreads : ∀ write ∈ formWrites (.extract file .default) form, rnix.ReadsAs write.value.toSource)
    (hplain : ∀ write ∈ formWrites (.extract file .default) form, write.value.Plain)
    (hsegments : form ≠ renderedForm (.extract file .default) →
      ∀ write ∈ formWrites (.extract file .default) form, ∀ segments,
        NewSegments file write.path segments → ∀ s ∈ segments, IsIdentifier s)
    {choice : SaveChoice} {disk disk' : Disk} (hdisk : disk.config = some (.text file.source))
    {outcome : Outcome SaveError Unit}
    (hsave : saveConfig rnix choice (buildEdits (.extract file .default) form) disk = (outcome, disk')) :
    (outcome = .ok () → ∃ file' : NixConfigFile rnix, disk'.config = some (.text file'.source) ∧
      Shows (.extract file .default) form (.extract file' .default) ∧
      (form = renderedForm (.extract file .default) →
        (FortressConfig.extract file' .default = .extract file .default ↔
          ∀ user ∈ (FortressConfig.extract file .default).users, ∀ g ∈ user.groups, IsGroup g))) ∧
      (outcome ≠ .ok () → disk'.config = some (.text file.source)) := by
  have hsound : ∀ write ∈ formWrites (.extract file .default) form, write.Sound file := by
    intro write hwrite
    obtain ⟨field, hfield⟩ := mem_formWrites.mp hwrite
    refine ⟨?_, hfield.literal, hplain write hwrite, hreads write hwrite, fun segments hnew => ?_⟩
    · rw [hfield.path_eq]
      exact field.path_ne
    · by_cases hform : form = renderedForm (.extract file .default)
      · subst hform
        exact absurd hnew (rendered_newSegments hwrite segments)
      · exact hsegments hform write hwrite segments hnew
  refine ⟨?_, fun hfailed => (config_of_saveConfig hsave hfailed).trans hdisk⟩
  rintro rfl
  obtain ⟨file', happlied, hdisk'⟩ := applied_of_saveConfig hdisk hsave
  have hkept := kept_of_applied hvalues hentries hsound happlied
  refine ⟨file', hdisk', hkept.shows, ?_⟩
  rintro rfl
  exact hkept.unchanged_iff

/-! ## A new hostname -/

/-- The file `{ networking.hostName = "…"; }`. -/
def hostRoot (name : Text) : Root :=
  ⟨[], .attrSet none (.leaf ⟨[' '], dotted Field.hostname.path, [' '], [' ']⟩
    (.str [.literal name] (quoteNixString name)) [] (.nil [' '])), []⟩

/-- A file that is a string. -/
def stringRoot (s : Text) : Root := ⟨[], .leaf (.str [.literal s] (quoteNixString s)), []⟩

/-- The parser that knows the hosts `a` and `b`, and the string of the second. -/
def hostTable : Rnix := tableRnix [hostRoot ['a'], hostRoot ['b'], stringRoot ['b']]

def hostFile : NixConfigFile hostTable := ⟨(hostRoot ['a']).text, hostRoot ['a'], rfl⟩

theorem hostTable_readsValues : hostTable.ReadsValues := readsValues_of_table (by decide)

theorem hostTable_readsEntries : hostTable.ReadsEntries := readsEntries_of_table (by decide)

/-- The host is renamed to what was submitted. -/
theorem saveForm_renames : ∃ file' : NixConfigFile hostTable,
    (⟨some (.text (hostRoot ['b']).text), none⟩ : Disk).config = some (.text file'.source) ∧
      Shows (.extract hostFile .default) ⟨some ['b'], none, fun _ => none⟩ (.extract file' .default) ∧
      ((⟨some ['b'], none, fun _ => none⟩ : EditorForm) = renderedForm (.extract hostFile .default) →
        (FortressConfig.extract file' .default = .extract hostFile .default ↔
          ∀ user ∈ (FortressConfig.extract hostFile .default).users, ∀ g ∈ user.groups, IsGroup g)) := by
  have hwrites : formWrites (.extract hostFile .default) ⟨some ['b'], none, fun _ => none⟩ =
      [⟨Field.hostname.path, .str ['b']⟩] := by
    decide
  have hall : ∀ {P : Write → Prop}, P ⟨Field.hostname.path, .str ['b']⟩ →
      ∀ write ∈ formWrites (.extract hostFile .default) ⟨some ['b'], none, fun _ => none⟩, P write := by
    intro P h write hwrite
    rw [hwrites] at hwrite
    exact List.mem_singleton.mp hwrite ▸ h
  have hplain : (NixValue.str ['b']).Plain := by
    show ¬interpolates ['b'] = true
    decide
  have hreads : hostTable.ReadsAs (NixValue.str ['b']).toSource := by
    have hliteral := (nixLiteral_toSource (v := .str ['b']) fun raw heq => by cases heq).1 hplain
    refine ⟨fun v hv => ⟨_, ⟨.leaf (.str [.literal ['b']] (quoteNixString ['b'])), rfl, rfl⟩, ?_⟩,
      fun hnone => ?_⟩
    · exact Option.some.inj (hliteral.symm.trans hv)
    · rw [hliteral] at hnone
      cases hnone
  have hfound : ∀ segments, NewSegments hostFile Field.hostname.path segments →
      ∀ s ∈ segments, IsIdentifier s := by
    rintro segments ⟨root, point, hparse, hfind, -⟩
    cases hparse
    exact absurd hfind (by decide)
  have hsave : saveConfig hostTable {}
      (buildEdits (.extract hostFile .default) ⟨some ['b'], none, fun _ => none⟩)
        ⟨some (.text hostFile.source), none⟩ =
          (.ok (), ⟨some (.text (hostRoot ['b']).text), none⟩) := by
    decide
  exact (saveForm_faithful hostTable_readsValues hostTable_readsEntries (hall hreads) (hall hplain)
    (fun _ => hall hfound) rfl hsave).1 rfl

end Dashboard
end Cococoir
