import Cococoir.Dashboard.Tables

/-!
# Saving edits

A save reads the file, applies its edits one on top of the other in memory, and replaces the file
by a rename.  Whatever the disk does, the file keeps its contents unless all went well; but an
entry that goes into a recursive attribute set trips an assertion, which takes every attribute set
for a literal that starts with a brace.

* `setAttrpath_panics_iff`: exactly when an edit panics.
* `config_of_saveConfig`: a save that does not succeed leaves the file as it was.
* `crashingSave`: the first setting of `rec { }` panics.
* `save_atomic_iff`: exactly when a save never panics and is all or nothing.

## All or nothing

The text is built in memory, so no edit touches the disk before the last one is accepted.  Then a
temporary sibling is written and renamed over the file.  `SaveChoice` is what the file system
does: the read, the write and the rename may each fail, and the sibling may be left behind with a
part of the text.  The config file itself changes in one step, the rename, which is why a save
that does not return success has not changed it.

## The panic

Before it writes an entry into an attribute set the source asserts that the set's text starts with
a brace and ends with one.  That of `rec { }` does not.  `RecInsertion` is the condition, on the
path and the file; for a list of edits it is asked of each edit in the file that those before it
have made, `Spares`.
-/

namespace Cococoir
namespace Dashboard

open Concurrency (Outcome)

/-! ## The disk -/

/-- The contents of a file: text, or bytes that are no text. -/
inductive Contents : Type where
  | text (s : Text) : Contents
  | binary (bytes : List UInt8) : Contents
  deriving DecidableEq

/-- The config file, when there is one, and the temporary file next to it. -/
structure Disk : Type where
  config : Option Contents
  temp : Option Text
  deriving DecidableEq

/-- What the file system does during a save. -/
structure SaveChoice : Type where
  readFails : Option String := none
  hasParent : Bool := true
  writeFails : Option String := none
  written : Option Text := none
  renameFails : Option String := none

/-- Failures reading the config file. -/
inductive ConfigReadError : Type where
  | notFound : ConfigReadError
  | io (error : String) : ConfigReadError
  | parse (message : String) : ConfigReadError
  deriving DecidableEq

/-- Failures from a save. -/
inductive SaveError : Type where
  | read (error : ConfigReadError) : SaveError
  | edit (path : Text) (error : SetError) : SaveError
  | io (error : String) : SaveError
  deriving DecidableEq

/-- One field edit: the path and its new value as source text. -/
structure ConfigEdit : Type where
  path : List Text
  source : Text
  deriving DecidableEq

section Save

variable {rnix : Rnix}

/-- Read and parse the config file. -/
def readConfig (choice : SaveChoice) (disk : Disk) : Except ConfigReadError (NixConfigFile rnix) :=
  match disk.config with
  | none => .error .notFound
  | some contents =>
    match choice.readFails, contents with
    | some error, _ => .error (.io error)
    | none, .binary _ => .error (.io "stream did not contain valid UTF-8")
    | none, .text source =>
      match NixConfigFile.parse source with
      | .ok file => .ok file
      | .error message => .error (.parse message)

/-- Apply edits, each to the result of the one before. -/
def applyEdits : NixConfigFile rnix → List ConfigEdit → Outcome SaveError (NixConfigFile rnix)
  | candidate, [] => .ok candidate
  | candidate, edit :: edits =>
    match candidate.setAttrpath edit.path edit.source with
    | .ok candidate => applyEdits candidate edits
    | .err error => .err (.edit (List.intercalate ['.'] edit.path) error)
    | .panic message => .panic message

/-- Replace the config file: write a temporary sibling, then rename it. -/
def writeAtomic (choice : SaveChoice) (contents : Text) (disk : Disk) :
    Outcome SaveError Unit × Disk :=
  if choice.hasParent then
    match choice.writeFails with
    | some error => (.err (.io error), { disk with temp := choice.written })
    | none =>
      match choice.renameFails with
      | some error => (.err (.io error), { disk with temp := some contents })
      | none => (.ok (), { config := some (.text contents), temp := none })
  else (.err (.io "config path has no parent directory"), disk)

variable (rnix) in
/-- Save a list of edits to the config file. -/
def saveConfig (choice : SaveChoice) (edits : List ConfigEdit) (disk : Disk) :
    Outcome SaveError Unit × Disk :=
  match (readConfig choice disk : Except ConfigReadError (NixConfigFile rnix)) with
  | .error error => (.err (.read error), disk)
  | .ok file =>
    match applyEdits file edits with
    | .ok candidate => writeAtomic choice candidate.source disk
    | .err error => (.err error, disk)
    | .panic message => (.panic message, disk)

/-! ## When an edit panics -/

/-- The path has no value, and its entry would go into a recursive attribute set. -/
def RecInsertion (file : NixConfigFile rnix) (path : List Text) : Prop :=
  ∃ root point trivia, rnix.parse file.source = .ok root ∧ findValueNode root path = none ∧
    insertPoint root path = some point ∧ point.attrset.recToken = some trivia

/-- **An edit panics** exactly when it is an insertion into a recursive attribute set. -/
theorem setAttrpath_panics_iff {file : NixConfigFile rnix} {path : List Text} {replacement : Text}
    (hpath : path ≠ []) :
    (∃ message, file.setAttrpath path replacement = .panic message) ↔ RecInsertion file path := by
  constructor
  · rintro ⟨message, h⟩
    obtain ⟨root, hparse⟩ := file.parses
    cases hfind : findValueNode root path with
    | some loc =>
      rw [setAttrpath_of_found hparse hpath hfind] at h
      exact absurd h accept_ne_panic
    | none =>
      cases hpoint : insertPoint root path with
      | none =>
        rw [setAttrpath_of_blocked hparse hpath hfind hpoint] at h
        cases h
      | some point =>
        obtain ⟨_, fill, final, -, -, -, hplain⟩ := spliceEntry_eq hparse hpath hpoint
        cases hrec : point.attrset.recToken with
        | some trivia => exact ⟨root, point, trivia, hparse, hfind, hpoint, hrec⟩
        | none =>
          obtain ⟨indent, -, hsplice⟩ := hplain hrec
          have hspliced : spliceEntry file.source point replacement = _ :=
            hsplice (.leaf (.other replacement))
          rw [setAttrpath_of_point hparse hpath hfind hpoint, hspliced] at h
          exact absurd h accept_ne_panic
  · rintro ⟨root, point, trivia, hparse, hfind, hpoint, hrec⟩
    obtain ⟨_, _, _, -, -, hpanic, -⟩ := spliceEntry_eq hparse hpath hpoint
    rw [setAttrpath_of_point hparse hpath hfind hpoint, hpanic trivia hrec]
    exact ⟨_, rfl⟩

/-! ## All or nothing -/

/-- The file after all edits, each applied to the result of the one before. -/
inductive Applied : NixConfigFile rnix → List ConfigEdit → NixConfigFile rnix → Prop
  | nil {file : NixConfigFile rnix} : Applied file [] file
  | cons {file file' file'' : NixConfigFile rnix} {edit : ConfigEdit} {edits : List ConfigEdit}
      (h : file.setAttrpath edit.path edit.source = .ok file') (hedits : Applied file' edits file'') :
    Applied file (edit :: edits) file''

variable (rnix) in
/-- How a save should end: with all edits in the file, or with an error and the file as it was. -/
def AllOrNothing (edits : List ConfigEdit) (disk : Disk) : Outcome SaveError Unit × Disk → Prop
  | (.ok (), disk') => ∃ file file' : NixConfigFile rnix, disk.config = some (.text file.source) ∧
      Applied file edits file' ∧ disk'.config = some (.text file'.source)
  | (.err _, disk') => disk'.config = disk.config
  | (.panic _, _) => False

/-- No edit, applied to the result of those before it, is an insertion into a recursive attribute
set. -/
def Spares : NixConfigFile rnix → List ConfigEdit → Prop
  | _, [] => True
  | file, edit :: edits => ¬RecInsertion file edit.path ∧
      ∀ file', file.setAttrpath edit.path edit.source = .ok file' → Spares file' edits

theorem applied_of_applyEdits {file file' : NixConfigFile rnix} {edits : List ConfigEdit}
    (h : applyEdits file edits = .ok file') : Applied file edits file' := by
  induction edits generalizing file with
  | nil =>
    cases h
    exact .nil
  | cons edit edits ih =>
    rw [applyEdits] at h
    split at h
    · rename_i file'' hset
      exact .cons hset (ih h)
    · cases h
    · cases h

/-- The edits of a list panic exactly when one of them does. -/
theorem applyEdits_panics_iff {file : NixConfigFile rnix} {edits : List ConfigEdit}
    (hpaths : ∀ edit ∈ edits, edit.path ≠ []) :
    (∃ message, applyEdits file edits = .panic message) ↔ ¬Spares file edits := by
  induction edits generalizing file with
  | nil =>
    constructor
    · rintro ⟨message, h⟩
      cases h
    · exact fun h => absurd trivial h
  | cons edit edits ih =>
    have hpath := hpaths edit List.mem_cons_self
    have ih := fun file => @ih file fun e he => hpaths e (List.mem_cons_of_mem edit he)
    have hpanics : (∃ message, file.setAttrpath edit.path edit.source = .panic message) ↔
        RecInsertion file edit.path := setAttrpath_panics_iff hpath
    rw [applyEdits, Spares, not_and_or, not_not, ← hpanics]
    cases hset : file.setAttrpath edit.path edit.source with
    | ok file' =>
      dsimp only
      rw [ih]
      constructor
      · exact fun h => Or.inr fun hall => h (hall file' rfl)
      · rintro (⟨message, h⟩ | h)
        · cases h
        · exact fun hspares => h fun file'' hfile => by cases hfile; exact hspares
    | err error =>
      constructor
      · rintro ⟨message, h⟩
        cases h
      · rintro (⟨message, h⟩ | h)
        · cases h
        · exact absurd (fun _ hfile => by cases hfile) h
    | panic message => exact iff_of_true ⟨_, rfl⟩ (Or.inl ⟨_, rfl⟩)

/-- The file that is read is the one on the disk. -/
theorem readConfig_eq_ok {choice : SaveChoice} {disk : Disk} {file : NixConfigFile rnix}
    (h : readConfig choice disk = .ok file) : disk.config = some (.text file.source) := by
  unfold readConfig at h
  split at h
  · cases h
  · rename_i contents hconfig
    split at h
    · cases h
    · cases h
    · split at h
      · rename_i source _ file' hparse
        cases h
        rw [hconfig, NixConfigFile.parse_eq_ok.mp hparse]
      · cases h

theorem readConfig_default {disk : Disk} {file : NixConfigFile rnix}
    (h : disk.config = some (.text file.source)) : readConfig {} disk = .ok file := by
  unfold readConfig
  rw [h]
  dsimp only
  rw [NixConfigFile.parse_eq_ok.mpr rfl]

/-- Whatever the disk does, a save whose edits do not panic is all or nothing. -/
theorem allOrNothing_of_spares {edits : List ConfigEdit} {disk : Disk} {choice : SaveChoice}
    (hpaths : ∀ edit ∈ edits, edit.path ≠ [])
    (h : ∀ file : NixConfigFile rnix, disk.config = some (.text file.source) → Spares file edits) :
    AllOrNothing rnix edits disk (saveConfig rnix choice edits disk) := by
  unfold saveConfig
  split
  · rfl
  · rename_i file hread
    have hconfig := readConfig_eq_ok hread
    split
    · rename_i candidate hedits
      unfold writeAtomic
      split_ifs
      · cases choice.writeFails with
        | some error => rfl
        | none =>
          cases choice.renameFails with
          | some error => rfl
          | none => exact ⟨file, candidate, hconfig, applied_of_applyEdits hedits, rfl⟩
      · rfl
    · rfl
    · rename_i message hpanic
      exact (applyEdits_panics_iff hpaths).mp ⟨message, hpanic⟩ (h file hconfig)

/-- **A save that does not succeed** leaves the config file as it was. -/
theorem config_of_saveConfig {edits : List ConfigEdit} {disk disk' : Disk} {choice : SaveChoice}
    {o : Outcome SaveError Unit} (h : saveConfig rnix choice edits disk = (o, disk')) (ho : o ≠ .ok ()) :
    disk'.config = disk.config := by
  unfold saveConfig at h
  split at h
  · cases h
    rfl
  · split at h
    · unfold writeAtomic at h
      split_ifs at h
      · cases hwrite : choice.writeFails with
        | some error =>
          rw [hwrite] at h
          cases h
          rfl
        | none =>
          cases hrename : choice.renameFails with
          | some error =>
            rw [hwrite, hrename] at h
            cases h
            rfl
          | none =>
            rw [hwrite, hrename] at h
            exact absurd (Prod.mk.inj h).1.symm ho
      · cases h
        rfl
    · cases h
      rfl
    · cases h
      rfl

/-- A save that is all or nothing with a disk that does not fail has no edit that panics. -/
theorem spares_of_allOrNothing {edits : List ConfigEdit} {disk : Disk}
    (hpaths : ∀ edit ∈ edits, edit.path ≠ [])
    (h : AllOrNothing rnix edits disk (saveConfig rnix {} edits disk))
    {file : NixConfigFile rnix} (hfile : disk.config = some (.text file.source)) :
    Spares file edits := by
  by_contra hspares
  obtain ⟨message, hpanic⟩ := (applyEdits_panics_iff hpaths).mpr hspares
  rw [saveConfig, readConfig_default hfile] at h
  dsimp only at h
  rw [hpanic] at h
  exact h

end Save

/-! ## Saving -/

/-- A file that is an empty recursive attribute set. -/
def recRoot : Root := ⟨[], .attrSet (some [' ']) (.nil [' ']), []⟩

def recDisk : Disk := ⟨some (.text "rec { }".toList), none⟩

/-- The first setting of a recursive attribute set panics. -/
theorem crashingSave : ¬∀ choice, AllOrNothing (tableRnix [recRoot])
    [⟨["a".toList], "true".toList⟩] recDisk (saveConfig (tableRnix [recRoot]) choice
      [⟨["a".toList], "true".toList⟩] recDisk) :=
  fun h => h {}

/-- **A save never panics and is all or nothing**, whatever the disk does, exactly when none of its
edits is an insertion into a recursive attribute set. -/
theorem save_atomic_iff {rnix : Rnix} {edits : List ConfigEdit} {disk : Disk}
    (hpaths : ∀ edit ∈ edits, edit.path ≠ []) :
    (∀ choice, AllOrNothing rnix edits disk (saveConfig rnix choice edits disk)) ↔
      ∀ file : NixConfigFile rnix, disk.config = some (.text file.source) → Spares file edits :=
  ⟨fun h _ hfile => spares_of_allOrNothing hpaths (h {}) hfile,
    fun h _ => allOrNothing_of_spares hpaths h⟩

def atticDisk : Disk := ⟨some (.text atticRoot.text), none⟩

/-- Edits that give the host another name and add a message of the day. -/
def boxEdits : List ConfigEdit :=
  [⟨["host".toList], quoteNixString boxName⟩, ⟨["services".toList, "motd".toList], quoteNixString boxName⟩]

/-- A replacement and an insertion are all or nothing, and all when the disk works. -/
theorem save_atomic_box :
    saveConfig boxTable {} boxEdits atticDisk = (.ok (), ⟨some (.text greetingRoot.text), none⟩) ∧
      ∀ choice, AllOrNothing boxTable boxEdits atticDisk (saveConfig boxTable choice boxEdits atticDisk) := by
  refine ⟨by decide, (save_atomic_iff (by decide)).mpr fun file hfile => ?_⟩
  obtain rfl : atticFile = file :=
    NixConfigFile.eq_of_source (Contents.text.inj (Option.some.inj hfile))
  refine ⟨?_, fun file' hset => ⟨?_, fun _ _ => trivial⟩⟩
  · -- the host has a name, so nothing is inserted
    rintro ⟨root, point, trivia, hparse, hnone, -⟩
    obtain rfl := Except.ok.inj (atticFile_parse.symm.trans hparse)
    cases hnone
  · obtain rfl : namedFile = file' := Outcome.ok.inj (atticFile_set.symm.trans hset)
    rintro ⟨root, point, trivia, hparse, -, hpoint, hrec⟩
    obtain rfl := Except.ok.inj (namedFile_parse.symm.trans hparse)
    cases hpoint
    cases hrec

end Dashboard
end Cococoir
