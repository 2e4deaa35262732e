import Cococoir.Dashboard.Batch
import Cococoir.Dashboard.Keys

/-!
# The editor's form

The editor page shows the fields of the config file that the dashboard knows, and a submitted form
is turned into edits of these.  What the page then shows should be what was submitted, and a form
that is submitted as it was shown should change nothing.

A list of groups is shown and submitted as one line of text, which is split at white space and
commas; so a group whose name has one of these comes back as several.

* `FortressConfig.extract`, `buildEdits`, `renderedForm`: from the file to the form and back.
* `splitGroups_eq`: when a list of groups comes back as it was shown.
* `extract_ext`: which lookups the fields depend on.
* `pairwise_formWrites`: no two writes of a form are on one way.

## There and back

The page is made from lookups and the form becomes edits, and the two have to agree on paths.
`Field` lists the fields with their paths, and `Field.incomparable` says that none of them is on
the way to another; so the writes of a form do not get into each other's way, and a write changes
the field it is for.  That holds for user names that are found in the file, whatever they are,
because a name is one segment.

A line of groups is where the round trip is lossy.  Joining and splitting are inverse on lists of
words, and a group may be any string in the file.
-/

namespace Cococoir
namespace Dashboard

open Concurrency (Outcome)

/-! ## The known fields -/

/-- Which attrpaths the dashboard treats as known. -/
structure ConfigSchema : Type where
  hostname : List Text
  rootDomain : List Text
  servicesRoot : List Text
  usersRoot : List Text

def ConfigSchema.default : ConfigSchema where
  hostname := ["networking".toList, "hostName".toList]
  rootDomain := ["fortress".toList, "baseDomain".toList]
  servicesRoot := ["fortress".toList, "services".toList]
  usersRoot := ["users".toList, "users".toList]

/-- The services that the dashboard can render, by their names in the file. -/
def serviceList : List Text :=
  ["jellyfin".toList, "cryptpad".toList, "forgejo".toList, "media".toList]

/-- A `BTreeSet` of texts, as the list of its elements in order. -/
def toSet (items : List Text) : List Text := dedup (items.insertionSort (· ≤ ·))

/-- One user as declared in the config file. -/
structure CocoUser : Type where
  username : Text
  hashedPassword : Option Text
  groups : List Text
  groupsDeclared : Bool
  deriving DecidableEq

/-- The fields that the dashboard knows about; the users are in the order of their names. -/
structure FortressConfig : Type where
  hostname : Option Text
  rootDomain : Option Text
  servicesEnabled : Text → Option Bool
  users : List CocoUser

def NixValue.asBool : NixValue → Option Bool
  | .bool b => some b
  | _ => none

def NixValue.asStr : NixValue → Option Text
  | .str s => some s
  | _ => none

def NixValue.asStrList : NixValue → Option (List Text)
  | .strList items => some items
  | _ => none

theorem asBool_eq_some {v : Option NixValue} {b : Bool} (h : v.bind NixValue.asBool = some b) :
    v = some (.bool b) := by
  obtain ⟨v, rfl, hv⟩ := Option.bind_eq_some_iff.mp h
  rcases v with b' | s | items | raw
  · exact congrArg (fun b => some (NixValue.bool b)) (Option.some.inj hv)
  · cases hv
  · cases hv
  · cases hv

theorem asStr_eq_some {v : Option NixValue} {s : Text} (h : v.bind NixValue.asStr = some s) :
    v = some (.str s) := by
  obtain ⟨v, rfl, hv⟩ := Option.bind_eq_some_iff.mp h
  rcases v with b | s' | items | raw
  · cases hv
  · exact congrArg (fun s => some (NixValue.str s)) (Option.some.inj hv)
  · cases hv
  · cases hv

theorem asStrList_eq_some {v : Option NixValue} {items : List Text}
    (h : v.bind NixValue.asStrList = some items) : v = some (.strList items) := by
  obtain ⟨v, rfl, hv⟩ := Option.bind_eq_some_iff.mp h
  rcases v with b | s | items' | raw
  · cases hv
  · cases hv
  · exact congrArg (fun items => some (NixValue.strList items)) (Option.some.inj hv)
  · cases hv

section Extract

variable {rnix : Rnix}

/-- The names bound under a path. -/
def NixConfigFile.names (file : NixConfigFile rnix) (path : List Text) : List Text :=
  (file.attrsetKeys path).getD []

/-- The user of a name. -/
def extractUser (file : NixConfigFile rnix) (usersRoot : List Text) (name : Text) : CocoUser :=
  let groups := (file.valueAt (usersRoot ++ [name, "groups".toList])).bind NixValue.asStrList
  { username := name
    hashedPassword :=
      (file.valueAt (usersRoot ++ [name, "hashedPassword".toList])).bind NixValue.asStr
    groups := toSet (groups.getD [])
    groupsDeclared := groups.isSome }

/-- Extract the known fields from a file. -/
def FortressConfig.extract (file : NixConfigFile rnix) (schema : ConfigSchema) : FortressConfig where
  hostname := (file.valueAt schema.hostname).bind NixValue.asStr
  rootDomain := (file.valueAt schema.rootDomain).bind NixValue.asStr
  servicesEnabled nixname :=
    if serviceList.contains nixname then
      (file.valueAt (schema.servicesRoot ++ [nixname, "enable".toList])).bind NixValue.asBool
    else none
  users := (file.names schema.usersRoot).map (extractUser file schema.usersRoot)

end Extract

/-! ## The form -/

/-- The submitted form: two named fields, and the others by their names. -/
structure EditorForm : Type where
  hostname : Option Text
  baseDomain : Option Text
  dynamic : Text → Option Text

def EditorForm.serviceChecked (form : EditorForm) (nixname : Text) : Bool :=
  form.dynamic ("svc_".toList ++ nixname) = some "true".toList

def EditorForm.userGroups (form : EditorForm) (username : Text) : Option Text :=
  form.dynamic ("groups_".toList ++ username)

/-- What separates the groups of a line. -/
def isSeparator (c : Char) : Bool := isWhitespace c || c = ','

/-- The groups of a line. -/
def splitGroups (text : Text) : List Text := (text.splitOnP isSeparator).filter (· ≠ [])

/-- The write of a text field, when the file declares the field. -/
def fieldWrite (declared submitted : Option Text) (path : List Text) : List Write :=
  match submitted with
  | some text => if declared.isSome then [⟨path, .str text⟩] else []
  | none => []

/-- The write of a service's flag: it is only created when the box is checked. -/
def serviceWrite (config : FortressConfig) (form : EditorForm) (nixname : Text) : Option Write :=
  let declared := (config.servicesEnabled nixname).isSome
  let enabled := form.serviceChecked nixname
  if !declared && !enabled then none
  else some ⟨["fortress".toList, "services".toList, nixname, "enable".toList], .bool enabled⟩

/-- The write of a user's groups: none that only restates an empty default. -/
def userWrite (form : EditorForm) (user : CocoUser) : Option Write :=
  (form.userGroups user.username).bind fun text =>
    let groups := splitGroups text
    if !user.groupsDeclared && groups.isEmpty then none
    else some ⟨["users".toList, "users".toList, user.username, "groups".toList], .strList groups⟩

def formWrites (config : FortressConfig) (form : EditorForm) : List Write :=
  fieldWrite config.hostname form.hostname ["networking".toList, "hostName".toList] ++
    (fieldWrite config.rootDomain form.baseDomain ["fortress".toList, "baseDomain".toList] ++
      (serviceList.filterMap (serviceWrite config form) ++ config.users.filterMap (userWrite form)))

/-- Build the edits for a save from the submitted form. -/
def buildEdits (config : FortressConfig) (form : EditorForm) : List ConfigEdit :=
  (formWrites config form).map Write.edit

/-- How the page shows a user's groups. -/
def groupsLine (user : CocoUser) : Text := List.intercalate ", ".toList user.groups

/-- The form as the page shows it, submitted without a change. -/
def renderedForm (config : FortressConfig) : EditorForm where
  hostname := some (config.hostname.getD [])
  baseDomain := some (config.rootDomain.getD [])
  dynamic name :=
    if ∃ nixname ∈ serviceList, name = "svc_".toList ++ nixname ∧
        (config.servicesEnabled nixname).getD false then
      some "true".toList
    else (config.users.find? fun user => name = "groups_".toList ++ user.username).map groupsLine

/-! ## Groups in a line -/

/-- The text is one group of a line. -/
def IsGroup (g : Text) : Prop := g ≠ [] ∧ ∀ c ∈ g, isSeparator c = false

theorem splitGroups_append (s t : Text) {c : Char} (hc : isSeparator c = true) :
    splitGroups (s ++ c :: t) = splitGroups s ++ splitGroups t := by
  rw [splitGroups, List.splitOnP_append_cons s t hc, List.filter_append]
  rfl

theorem splitGroups_isGroup {g : Text} (hg : IsGroup g) : splitGroups g = [g] := by
  rw [splitGroups, List.splitOnP_eq_singleton hg.2]
  exact List.filter_cons_of_pos (decide_eq_true hg.1)

theorem isSeparator_of_mem_splitOnP {s piece : Text} (h : piece ∈ s.splitOnP isSeparator) :
    ∀ c ∈ piece, isSeparator c = false := by
  induction s generalizing piece with
  | nil =>
    obtain rfl := List.mem_singleton.mp h
    exact fun c hc => absurd hc List.not_mem_nil
  | cons d s ih =>
    rw [List.splitOnP_cons_eq_if_modifyHead] at h
    split_ifs at h with hd
    · rcases List.mem_cons.mp h with rfl | h
      · exact fun c hc => absurd hc List.not_mem_nil
      · exact ih h
    · obtain ⟨first, others, hsplit⟩ := List.exists_cons_of_ne_nil
        (List.splitOnP_ne_nil isSeparator s)
      rw [hsplit, List.modifyHead_cons] at h
      rcases List.mem_cons.mp h with rfl | h
      · intro c hc
        rcases List.mem_cons.mp hc with rfl | hc
        · exact Bool.eq_false_iff.mpr hd
        · exact ih (hsplit ▸ List.mem_cons_self) c hc
      · exact ih (hsplit ▸ List.mem_cons_of_mem _ h)

theorem isGroup_of_mem_splitGroups {s g : Text} (h : g ∈ splitGroups s) : IsGroup g := by
  obtain ⟨hmem, hne⟩ := List.mem_filter.mp h
  exact ⟨of_decide_eq_true hne, isSeparator_of_mem_splitOnP hmem⟩

/-- A line is split into the parts of its groups, one group after the other. -/
theorem splitGroups_intercalate (groups : List Text) :
    splitGroups (List.intercalate ", ".toList groups) = groups.flatMap splitGroups := by
  have hspace : ∀ s, splitGroups (' ' :: s) = splitGroups s := by
    intro s
    rw [← List.nil_append (' ' :: s), splitGroups_append [] s (by decide)]
    rfl
  induction groups with
  | nil => rfl
  | cons g groups ih =>
    rcases groups with _ | ⟨g', groups⟩
    · rw [List.intercalate_singleton, List.flatMap_cons, List.flatMap_nil, List.append_nil]
    · rw [List.intercalate_cons_cons, List.append_assoc, List.flatMap_cons, ← ih]
      show splitGroups (g ++ ',' :: ' ' :: List.intercalate ", ".toList (g' :: groups)) = _
      rw [splitGroups_append g _ (by decide), hspace]

/-- **A list of groups comes back as it was shown** exactly if each of its elements is one group. -/
theorem splitGroups_eq {groups : List Text} :
    (∀ g, g ∈ splitGroups (List.intercalate ", ".toList groups) ↔ g ∈ groups) ↔
      ∀ g ∈ groups, IsGroup g := by
  rw [splitGroups_intercalate]
  constructor
  · intro h g hg
    obtain ⟨g', -, hsplit⟩ := List.mem_flatMap.mp ((h g).mpr hg)
    exact isGroup_of_mem_splitGroups hsplit
  · intro h g
    rw [List.mem_flatMap]
    constructor
    · rintro ⟨g', hg', hsplit⟩
      rw [splitGroups_isGroup (h g' hg'), List.mem_singleton] at hsplit
      exact hsplit ▸ hg'
    · intro hg
      refine ⟨g, hg, ?_⟩
      rw [splitGroups_isGroup (h g hg)]
      exact List.mem_singleton_self g

/-! ## Sets in order -/

theorem mem_toSet {items : List Text} {k : Text} : k ∈ toSet items ↔ k ∈ items := by
  rw [toSet, mem_dedup, List.mem_insertionSort]

theorem pairwise_toSet (items : List Text) : (toSet items).Pairwise (· < ·) :=
  pairwise_dedup (List.pairwise_insertionSort _ _)

/-- Two lists in strict order are equal when they have the same elements. -/
theorem eq_of_pairwise_lt {l l' : List Text} (h : l.Pairwise (· < ·)) (h' : l'.Pairwise (· < ·))
    (hmem : ∀ k, k ∈ l ↔ k ∈ l') : l = l' := by
  have hperm : l.Perm l' := (List.perm_ext_iff_of_nodup (h.imp ne_of_lt) (h'.imp ne_of_lt)).mpr hmem
  exact hperm.eq_of_pairwise (fun _ _ _ _ hlt hgt => absurd hgt (lt_asymm hlt)) h h'

theorem toSet_eq {items items' : List Text} :
    toSet items = toSet items' ↔ ∀ k, k ∈ items ↔ k ∈ items' := by
  constructor
  · intro h k
    rw [← mem_toSet, h, mem_toSet]
  · exact fun h => eq_of_pairwise_lt (pairwise_toSet _) (pairwise_toSet _) fun k => by
      rw [mem_toSet, mem_toSet, h]

/-! ## The fields as lookups -/

section Names

variable {rnix : Rnix} {file file' : NixConfigFile rnix}

theorem isSome_valueAt (path : List Text) :
    (file.valueAt path).isSome = (file.findAttrpath path).isSome := Option.isSome_map

/-- The names under a path are in order, and some path through each of them is found. -/
theorem names_spec (file : NixConfigFile rnix) (path : List Text) :
    (file.names path).Pairwise (· < ·) ∧
      ∀ k, k ∈ file.names path ↔ ∃ more, (file.valueAt (path ++ k :: more)).isSome := by
  have hne : ∀ k more, path ++ k :: more ≠ [] := by simp
  obtain ⟨root, hparse⟩ := file.parses
  have hkeys : file.attrsetKeys path = root.attrset.bind fun set =>
      if (collectChildKeys set.entries path).2 then some (toSet (collectChildKeys set.entries path).1)
      else none := by
    rw [NixConfigFile.attrsetKeys, hparse]
    rfl
  rw [NixConfigFile.names, hkeys]
  rcases hset : root.attrset with _ | set
  · refine ⟨List.Pairwise.nil, fun k => ⟨fun h => absurd h List.not_mem_nil, ?_⟩⟩
    rintro ⟨more, hfind⟩
    rw [isSome_valueAt, findAttrpath_eq hparse (hne k more), findValueNode, hset] at hfind
    cases hfind
  · have hagreed := agreed_entries set.entries path
    have hlist : ((if (collectChildKeys set.entries path).2 then
        some (toSet (collectChildKeys set.entries path).1) else none).getD []) =
          toSet (collectChildKeys set.entries path).1 := by
      split_ifs with hfound
      · rfl
      · refine (List.eq_nil_iff_forall_not_mem.mpr fun k hk => ?_).symm
        exact hfound ((hagreed k).2 (mem_toSet.mp hk))
    rw [Option.bind_some, hlist]
    refine ⟨pairwise_toSet _, fun k => ?_⟩
    rw [mem_toSet, (hagreed k).1]
    refine exists_congr fun more => ?_
    rw [isSome_valueAt, isSome_findAttrpath hparse hset (hne k more)]

end Names

/-- A field of the form, or one that the page shows of it. -/
inductive Field : Type where
  | hostname : Field
  | baseDomain : Field
  | service (nixname : Text) : Field
  | user (username attr : Text) : Field

def Field.path : Field → List Text
  | .hostname => ["networking".toList, "hostName".toList]
  | .baseDomain => ["fortress".toList, "baseDomain".toList]
  | .service nixname => ["fortress".toList, "services".toList, nixname, "enable".toList]
  | .user username attr => ["users".toList, "users".toList, username, attr]

theorem Field.path_ne (field : Field) : field.path ≠ [] := by
  rcases field with _ | _ | n | ⟨u, attr⟩ <;> exact List.cons_ne_nil _ _

theorem incomparable_of_head {a b : Text} (h : a ≠ b) (path other : List Text) :
    Incomparable (a :: path) (b :: other) :=
  ⟨fun hpre => h (List.cons_prefix_cons.mp hpre).1, fun hpre => h (List.cons_prefix_cons.mp hpre).1.symm⟩

theorem Incomparable.cons {path other : List Text} (h : Incomparable path other) (a : Text) :
    Incomparable (a :: path) (a :: other) :=
  ⟨fun hpre => h.1 (List.cons_prefix_cons.mp hpre).2, fun hpre => h.2 (List.cons_prefix_cons.mp hpre).2⟩

/-- No field of the form is on the way to another. -/
theorem Field.incomparable {a b : Field} (h : a ≠ b) : Incomparable a.path b.path := by
  have hservice : ∀ n, Incomparable Field.baseDomain.path (Field.service n).path := fun n =>
    (incomparable_of_head (by decide) _ _).cons _
  rcases a with _ | _ | n | ⟨u, attr⟩ <;> rcases b with _ | _ | m | ⟨v, attr'⟩
  · exact absurd rfl h
  · exact incomparable_of_head (by decide) _ _
  · exact incomparable_of_head (by decide) _ _
  · exact incomparable_of_head (by decide) _ _
  · exact incomparable_of_head (by decide) _ _
  · exact absurd rfl h
  · exact hservice m
  · exact incomparable_of_head (by decide) _ _
  · exact incomparable_of_head (by decide) _ _
  · exact (hservice n).symm
  · have hne : n ≠ m := fun heq => h (congrArg Field.service heq)
    exact ((incomparable_of_head hne _ _).cons _).cons _
  · exact incomparable_of_head (by decide) _ _
  · exact incomparable_of_head (by decide) _ _
  · exact incomparable_of_head (by decide) _ _
  · exact incomparable_of_head (by decide) _ _
  · by_cases hne : u = v
    · subst hne
      have hattr : attr ≠ attr' := fun heq => h (congrArg (Field.user u) heq)
      exact (((incomparable_of_head hattr _ _).cons _).cons _).cons _
    · exact ((incomparable_of_head hne _ _).cons _).cons _

theorem servicesEnabled_extract {rnix : Rnix} {file : NixConfigFile rnix} {nixname : Text}
    (h : nixname ∈ serviceList) : (FortressConfig.extract file .default).servicesEnabled nixname =
      (file.valueAt (Field.service nixname).path).bind NixValue.asBool :=
  if_pos (List.contains_iff_mem.mpr h)

/-- The fields of a file depend on the lookups of their paths, and on the users' names. -/
theorem extract_ext {rnix : Rnix} {file file' : NixConfigFile rnix}
    (hhostname : file'.valueAt Field.hostname.path = file.valueAt Field.hostname.path)
    (hdomain : file'.valueAt Field.baseDomain.path = file.valueAt Field.baseDomain.path)
    (hservices : ∀ n ∈ serviceList,
      file'.valueAt (Field.service n).path = file.valueAt (Field.service n).path)
    (hnames : file'.names ["users".toList, "users".toList] =
      file.names ["users".toList, "users".toList])
    (husers : ∀ u ∈ file.names ["users".toList, "users".toList],
      extractUser file' ["users".toList, "users".toList] u =
        extractUser file ["users".toList, "users".toList] u) :
    FortressConfig.extract file' .default = FortressConfig.extract file .default := by
  have henabled : (FortressConfig.extract file' .default).servicesEnabled =
      (FortressConfig.extract file .default).servicesEnabled := by
    funext n
    by_cases hn : n ∈ serviceList
    · rw [servicesEnabled_extract hn, servicesEnabled_extract hn, hservices n hn]
    · have hnot : ¬serviceList.contains n = true := fun h => hn (List.contains_iff_mem.mp h)
      exact (if_neg hnot).trans (if_neg hnot).symm
  have hall : (FortressConfig.extract file' .default).users =
      (FortressConfig.extract file .default).users := by
    show (file'.names _).map _ = (file.names _).map _
    rw [show file'.names ConfigSchema.default.usersRoot = _ from hnames]
    exact List.map_congr_left husers
  have hhost : (FortressConfig.extract file' .default).hostname =
      (FortressConfig.extract file .default).hostname := congrArg (·.bind NixValue.asStr) hhostname
  have hroot : (FortressConfig.extract file' .default).rootDomain =
      (FortressConfig.extract file .default).rootDomain := congrArg (·.bind NixValue.asStr) hdomain
  rw [FortressConfig.mk.injEq]
  exact ⟨hhost, hroot, henabled, hall⟩

/-! ## What a form writes -/

section Writes

variable {config : FortressConfig} {form : EditorForm} {write : Write} {nixname : Text}
  {user : CocoUser}

theorem mem_fieldWrite {declared submitted : Option Text} {path : List Text} :
    write ∈ fieldWrite declared submitted path ↔
      declared.isSome ∧ ∃ text, submitted = some text ∧ write = ⟨path, .str text⟩ := by
  rcases submitted with _ | text
  · refine ⟨fun h => absurd h List.not_mem_nil, ?_⟩
    rintro ⟨-, text, hnone, -⟩
    cases hnone
  · rw [fieldWrite]
    split_ifs with hdeclared
    · rw [List.mem_singleton]
      refine ⟨fun h => ⟨hdeclared, text, rfl, h⟩, ?_⟩
      rintro ⟨-, text', htext, h⟩
      rwa [Option.some.inj htext]
    · exact ⟨fun h => absurd h List.not_mem_nil, fun h => absurd h.1 hdeclared⟩

theorem serviceWrite_eq_some (h : serviceWrite config form nixname = some write) :
    write = ⟨(Field.service nixname).path, .bool (form.serviceChecked nixname)⟩ := by
  unfold serviceWrite at h
  dsimp only at h
  split_ifs at h
  exact (Option.some.inj h).symm

theorem serviceWrite_eq_none (h : serviceWrite config form nixname = none) :
    config.servicesEnabled nixname = none ∧ form.serviceChecked nixname = false := by
  unfold serviceWrite at h
  dsimp only at h
  split_ifs at h with hskip
  rw [Bool.and_eq_true, Bool.not_eq_true', Bool.not_eq_true', Option.isSome_eq_false_iff,
    Option.isNone_iff_eq_none] at hskip
  exact hskip

theorem userWrite_eq_some (h : userWrite form user = some write) :
    ∃ text, form.userGroups user.username = some text ∧
      write = ⟨(Field.user user.username "groups".toList).path, .strList (splitGroups text)⟩ := by
  obtain ⟨text, htext, h⟩ := Option.bind_eq_some_iff.mp h
  dsimp only at h
  split_ifs at h
  exact ⟨text, htext, (Option.some.inj h).symm⟩

theorem userWrite_eq_none (h : userWrite form user = none) {text : Text}
    (htext : form.userGroups user.username = some text) :
    user.groupsDeclared = false ∧ splitGroups text = [] := by
  rw [userWrite, htext, Option.bind_some] at h
  dsimp only at h
  split_ifs at h with hskip
  rwa [Bool.and_eq_true, Bool.not_eq_true', List.isEmpty_iff] at hskip

/-- The field of a write, among those that the form has. -/
inductive Written (config : FortressConfig) (form : EditorForm) (write : Write) : Field → Prop
  | hostname (h : write ∈ fieldWrite config.hostname form.hostname Field.hostname.path) :
    Written config form write .hostname
  | baseDomain (h : write ∈ fieldWrite config.rootDomain form.baseDomain Field.baseDomain.path) :
    Written config form write .baseDomain
  | service {nixname : Text} (hmem : nixname ∈ serviceList)
      (h : serviceWrite config form nixname = some write) : Written config form write (.service nixname)
  | groups {user : CocoUser} (hmem : user ∈ config.users) (h : userWrite form user = some write) :
    Written config form write (.user user.username "groups".toList)

theorem mem_formWrites : write ∈ formWrites config form ↔ ∃ field, Written config form write field := by
  rw [formWrites, List.mem_append, List.mem_append, List.mem_append, List.mem_filterMap,
    List.mem_filterMap]
  constructor
  · rintro (h | h | ⟨nixname, hmem, h⟩ | ⟨user, hmem, h⟩)
    · exact ⟨_, .hostname h⟩
    · exact ⟨_, .baseDomain h⟩
    · exact ⟨_, .service hmem h⟩
    · exact ⟨_, .groups hmem h⟩
  · rintro ⟨field, h | h | ⟨hmem, h⟩ | ⟨hmem, h⟩⟩
    · exact .inl h
    · exact .inr (.inl h)
    · exact .inr (.inr (.inl ⟨_, hmem, h⟩))
    · exact .inr (.inr (.inr ⟨_, hmem, h⟩))

theorem Written.path_eq {field : Field} (h : Written config form write field) :
    write.path = field.path := by
  rcases h with h | h | ⟨-, h⟩ | ⟨-, h⟩
  · obtain ⟨-, text, -, rfl⟩ := mem_fieldWrite.mp h
    rfl
  · obtain ⟨-, text, -, rfl⟩ := mem_fieldWrite.mp h
    rfl
  · rw [serviceWrite_eq_some h]
  · obtain ⟨text, -, rfl⟩ := userWrite_eq_some h
    rfl

theorem Written.literal {field : Field} (h : Written config form write field) (raw : Text) :
    write.value ≠ .other raw := by
  intro hraw
  rcases h with h | h | ⟨-, h⟩ | ⟨-, h⟩
  · obtain ⟨-, text, -, rfl⟩ := mem_fieldWrite.mp h
    cases hraw
  · obtain ⟨-, text, -, rfl⟩ := mem_fieldWrite.mp h
    cases hraw
  · rw [serviceWrite_eq_some h] at hraw
    cases hraw
  · obtain ⟨text, -, rfl⟩ := userWrite_eq_some h
    cases hraw

theorem pairwise_fieldWrite (declared submitted : Option Text) (path : List Text) :
    (fieldWrite declared submitted path).Pairwise fun a b => Incomparable a.path b.path := by
  unfold fieldWrite
  split
  · split_ifs
    · exact List.pairwise_singleton ..
    · exact List.Pairwise.nil
  · exact List.Pairwise.nil

/-- No two writes of a form are on one way. -/
theorem pairwise_formWrites (hnames : config.users.Pairwise fun a b => a.username ≠ b.username) :
    (formWrites config form).Pairwise fun a b => Incomparable a.path b.path := by
  have hapart : ∀ {a b : Write} {f g : Field}, Written config form a f → Written config form b g →
      f ≠ g → Incomparable a.path b.path := by
    intro a b f g ha hb hne
    rw [ha.path_eq, hb.path_eq]
    exact Field.incomparable hne
  have hservices : (serviceList.filterMap (serviceWrite config form)).Pairwise
      fun a b => Incomparable a.path b.path := by
    have hnodup : serviceList.Pairwise (· ≠ ·) := by decide
    refine List.pairwise_filterMap.mpr (hnodup.imp_of_mem fun ha hb hne a h b h' => ?_)
    exact hapart (.service ha h) (.service hb h') fun heq => hne (Field.service.inj heq)
  have husers : (config.users.filterMap (userWrite form)).Pairwise
      fun a b => Incomparable a.path b.path := by
    refine List.pairwise_filterMap.mpr (hnames.imp_of_mem fun ha hb hne a h b h' => ?_)
    exact hapart (.groups ha h) (.groups hb h') fun heq => hne (Field.user.inj heq).1
  refine List.pairwise_append.mpr ⟨pairwise_fieldWrite .., List.pairwise_append.mpr
    ⟨pairwise_fieldWrite .., List.pairwise_append.mpr ⟨hservices, husers, ?_⟩, ?_⟩, ?_⟩
  · intro a ha b hb
    obtain ⟨n, hn, ha⟩ := List.mem_filterMap.mp ha
    obtain ⟨u, hu, hb⟩ := List.mem_filterMap.mp hb
    exact hapart (.service hn ha) (.groups hu hb) fun heq => by cases heq
  · intro a ha b hb
    rcases List.mem_append.mp hb with hb | hb
    · obtain ⟨n, hn, hb⟩ := List.mem_filterMap.mp hb
      exact hapart (.baseDomain ha) (.service hn hb) fun heq => by cases heq
    · obtain ⟨u, hu, hb⟩ := List.mem_filterMap.mp hb
      exact hapart (.baseDomain ha) (.groups hu hb) fun heq => by cases heq
  · intro a ha b hb
    rcases List.mem_append.mp hb with hb | hb
    · exact hapart (.hostname ha) (.baseDomain hb) fun heq => by cases heq
    rcases List.mem_append.mp hb with hb | hb
    · obtain ⟨n, hn, hb⟩ := List.mem_filterMap.mp hb
      exact hapart (.hostname ha) (.service hn hb) fun heq => by cases heq
    · obtain ⟨u, hu, hb⟩ := List.mem_filterMap.mp hb
      exact hapart (.hostname ha) (.groups hu hb) fun heq => by cases heq

theorem written_service : Written config form write (.service nixname) ↔
    nixname ∈ serviceList ∧ serviceWrite config form nixname = some write := by
  refine ⟨fun h => ?_, fun ⟨hmem, h⟩ => .service hmem h⟩
  generalize hfield : Field.service nixname = field at h
  rcases h with h | h | ⟨hmem, h⟩ | ⟨hmem, h⟩
  · cases hfield
  · cases hfield
  · cases hfield
    exact ⟨hmem, h⟩
  · cases hfield

/-- Groups are written for the known users. -/
theorem Written.exists_user {username attr : Text} (h : Written config form write (.user username attr)) :
    attr = "groups".toList ∧
      ∃ user ∈ config.users, user.username = username ∧ userWrite form user = some write := by
  generalize hfield : Field.user username attr = field at h
  rcases h with h | h | ⟨hmem, h⟩ | ⟨hmem, h⟩
  · cases hfield
  · cases hfield
  · cases hfield
  · obtain ⟨rfl, rfl⟩ := Field.user.inj hfield
    exact ⟨rfl, _, hmem, rfl, h⟩

/-- What is below another user is on no way to what is written. -/
theorem incomparable_below {username : Text} (hother : ∀ write,
    ¬Written config form write (.user username "groups".toList)) (more : List Text) :
    ∀ write ∈ formWrites config form,
      Incomparable write.path (["users".toList, "users".toList] ++ username :: more) := by
  intro write hwrite
  obtain ⟨field, hfield⟩ := mem_formWrites.mp hwrite
  rw [hfield.path_eq]
  rcases hfield with h | h | ⟨hmem, h⟩ | ⟨hmem, h⟩
  · exact incomparable_of_head (by decide) _ _
  · exact incomparable_of_head (by decide) _ _
  · exact incomparable_of_head (by decide) _ _
  · rename_i user
    have hne : user.username ≠ username := by
      rintro rfl
      exact hother write (.groups hmem h)
    exact ((incomparable_of_head hne _ _).cons _).cons _

/-- A field that nothing is written to is on no way to what is written. -/
theorem incomparable_formWrites {field : Field}
    (hfield : ∀ write, ¬Written config form write field) :
    ∀ write ∈ formWrites config form, Incomparable write.path field.path := by
  intro write hwrite
  obtain ⟨g, hg⟩ := mem_formWrites.mp hwrite
  rw [hg.path_eq]
  refine Field.incomparable ?_
  rintro rfl
  exact hfield write hg

end Writes

end Dashboard
end Cococoir
