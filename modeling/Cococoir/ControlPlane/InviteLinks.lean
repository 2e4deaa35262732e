import Cococoir.Client.InviteUrl
import Cococoir.ControlPlane.Calls
import Cococoir.Text.AsciiCase

/-!
# Invite links

A code is four words of the list.  It is made by the generator, shared in a link, read back from
the link by a box and looked up, perhaps retyped, under its canonical form.

* `Wordlist`: what is asserted of the list.
* `Generated`: the codes that the generator can give.
* `InviteLinks`: generator, canonical form and link agree.

## The round trip

Four functions, three programs: the generator and the canonical form are the control plane's, the
link is made by the site, and read by the box.  They agree because of the shape of the words.  A
word has lowercase letters only, so lowering leaves it alone, no hyphen in it can be mistaken for
a joint, and no slash for the end of a code.  `splitOn_code` says that the parts of a code are its
words; from it a code has one reading, and everything else follows.

The canonical form depends on the letters of a code but not on their case
(`canonicalInviteCode_congr`), and on a canonical code it is the identity.

The list is any list of distinct words of the asserted shape; how long it is does not matter.
-/

namespace Cococoir
namespace ControlPlane

open Client Concurrency AsciiCase
open Concurrency.Prog (expect)

/-! ## Model -/

/-- The asserted shape of a word: 4 to 9 lowercase letters. -/
def WordShape (word : String) : Prop :=
  (4 ≤ word.utf8ByteSize ∧ word.utf8ByteSize ≤ 9) ∧ ∀ c ∈ word.toList, 97 ≤ c.toNat ∧ c.toNat ≤ 122

instance (word : String) : Decidable (WordShape word) :=
  @instDecidableAnd _ _ inferInstance (List.decidableBAll _ word.toList)

/-- The asserted shape of the list; the bound on its length is not needed. -/
structure Wordlist (words : List String) : Prop where
  shape : ∀ word ∈ words, WordShape word
  distinct : words.Nodup

/-- The link that the owner of a new invite is given. -/
def shareUrl (rootDomain code : String) : String := "https://" ++ rootDomain ++ "/i/" ++ code

variable (cp : ControlPlane)

/-- A code that a run of the generator can end with. -/
def Generated (code : String) : Prop :=
  ∃ (ε : Type) (good : Cmd → Choice → Prop) (w w' : World),
    (cp.randomInviteCode : Edge ε String).Runs Cmd.exec good w (.ok code) w'

/-- Four words of the list. -/
def FourWords (words : List String) : Prop := words.length = CODE_WORDS ∧ ∀ word ∈ words, word ∈ cp.words

/-- **What invite codes and links promise.** -/
structure InviteLinks : Prop where
  /-- A generated code is canonical, -/
  fixed : ∀ code, Generated cp code → cp.canonicalInviteCode code = some code
  /-- has the four parts that the generator asserts, -/
  parts : ∀ code, Generated cp code → (code.toList.splitOn '-').length = CODE_WORDS
  /-- and tells its words. -/
  determined : ∀ code, Generated cp code → ∃! words, FourWords cp words ∧ code = "-".intercalate words
  idempotent : ∀ code c, cp.canonicalInviteCode code = some c → cp.canonicalInviteCode c = some c
  /-- Two codes are the same invite exactly when they are the same up to ASCII case. -/
  sameCase : ∀ code code' c c', cp.canonicalInviteCode code = some c →
    cp.canonicalInviteCode code' = some c' → (c = c' ↔ SameText code.toList code'.toList)
  /-- The box reads the link that the edge made. -/
  parsed : ∀ rootDomain code, rootDomain ≠ "" → '/' ∉ rootDomain.toList → Generated cp code →
    parseInviteUrl (shareUrl rootDomain code) = .ok ("https://" ++ rootDomain, code)

/-! ## Codes and their words -/

variable {cp} {code c : String} {words words' : List String}

theorem hyphen_not_mem {word : String} (h : WordShape word) : '-' ∉ word.toList :=
  fun hmem => absurd (h.2 '-' hmem) (by decide)

theorem FourWords.shape (hlist : Wordlist cp.words) (h : FourWords cp words) :
    ∀ word ∈ words, WordShape word := fun word hword => hlist.shape word (h.2 word hword)

theorem FourWords.ne_nil (h : FourWords cp words) : words ≠ [] := by
  rintro rfl
  exact absurd h.1 (by decide)

/-- The parts of a code are its words. -/
theorem splitOn_code (hlist : Wordlist cp.words) (h : FourWords cp words) :
    ("-".intercalate words).toList.splitOn '-' = words.map String.toList := by
  rw [String.toList_intercalate]
  refine List.splitOn_intercalate '-' (fun part hpart => ?_) (by simpa using h.ne_nil)
  obtain ⟨word, hword, rfl⟩ := List.mem_map.mp hpart
  exact hyphen_not_mem (h.shape hlist word hword)

theorem FourWords.unique (hlist : Wordlist cp.words) (h : FourWords cp words)
    (h' : FourWords cp words') (he : "-".intercalate words = "-".intercalate words') :
    words = words' := by
  have hparts := congrArg (fun code => code.toList.splitOn '-') he
  rw [splitOn_code hlist h, splitOn_code hlist h'] at hparts
  exact List.map_injective_iff.mpr (fun _ _ => String.toList_injective) hparts

theorem toLower_of_wordShape {word : String} (h : WordShape word) :
    ∀ c ∈ word.toList, c.toLower = c := fun c hc => by
  have hrange := h.2 c hc
  exact toLower_of_not_upper (by omega)

/-- Lowering leaves a code as it is. -/
theorem lowered_code (hlist : Wordlist cp.words) (h : FourWords cp words) :
    ("-".intercalate words).toList.map Char.toLower = ("-".intercalate words).toList := by
  have hparts : (words.map String.toList).map (List.map Char.toLower) = words.map String.toList := by
    rw [List.map_map]
    refine List.map_congr_left fun word hword => ?_
    exact (List.map_congr_left (toLower_of_wordShape (h.shape hlist word hword))).trans (List.map_id _)
  rw [String.toList_intercalate, Split.map_intercalate, hparts]
  rfl

/-! ## The generator -/

theorem ends_randomWords {ε : Type} (n : ℕ) :
    (cp.randomWords n : Edge ε (List String)).Ends fun o =>
      ∀ words, o = .ok words → words.length = n ∧ ∀ word ∈ words, word ∈ cp.words := by
  induction n with
  | zero =>
    intro words h
    cases h
    simp
  | succ n ih =>
    intro bytes
    show ((expect _ _ : Edge ε String) >>= _).Ends _
    cases hword : cp.words[fromLeBytes bytes.1 % cp.words.length]? with
    | none => exact fun words h => by cases h
    | some word =>
      rw [Prog.expect_some, Prog.pure_bind]
      refine Prog.Ends.bind ih (fun rest hrest words h => ?_) (fun _ _ _ h => by cases h)
        fun _ _ _ h => by cases h
      cases h
      obtain ⟨hlength, hmem⟩ := hrest rest rfl
      exact ⟨by rw [List.length_cons, hlength],
        List.forall_mem_cons.mpr ⟨List.mem_of_getElem? hword, hmem⟩⟩

/-- **The generator gives four words of the list, joined by hyphens.** -/
theorem words_of_generated (h : Generated cp code) :
    ∃ words, FourWords cp words ∧ code = "-".intercalate words := by
  obtain ⟨ε, good, w, w', hruns⟩ := h
  have hends : (cp.randomInviteCode : Edge ε String).Ends fun o =>
      ∀ code, o = .ok code → ∃ words, FourWords cp words ∧ code = "-".intercalate words := by
    refine Prog.Ends.bind (ends_randomWords CODE_WORDS) (fun words hwords code h => ?_)
      (fun _ _ _ h => by cases h) fun _ _ _ h => by cases h
    cases h
    exact ⟨words, hwords words rfl, rfl⟩
  exact hends.runs hruns code rfl

/-! ## The canonical form -/

theorem canonicalInviteCode_eq_some : cp.canonicalInviteCode code = some c ↔
    FourWords cp (((code.toList.map Char.toLower).splitOn '-').map String.ofList) ∧
      c = String.ofList (code.toList.map Char.toLower) := by
  unfold canonicalInviteCode FourWords
  simp only [String.toList_ofList]
  split_ifs with h
  · rw [Option.some.injEq, and_iff_right h, eq_comm]
  · exact iff_of_false nofun fun hc => h hc.1

/-- The canonical form is that of any code with the same letters in lower case. -/
theorem canonicalInviteCode_congr {code' : String}
    (h : code.toList.map Char.toLower = code'.toList.map Char.toLower) :
    cp.canonicalInviteCode code = cp.canonicalInviteCode code' := by
  unfold canonicalInviteCode
  rw [h]

theorem canonicalInviteCode_code (hlist : Wordlist cp.words) (h : FourWords cp words) :
    cp.canonicalInviteCode ("-".intercalate words) = some ("-".intercalate words) := by
  rw [canonicalInviteCode_eq_some, lowered_code hlist h, splitOn_code hlist h, List.map_map]
  have hwords : words.map (String.ofList ∘ String.toList) = words :=
    (List.map_congr_left fun word _ => String.ofList_toList).trans (List.map_id _)
  rw [hwords, String.ofList_toList]
  exact ⟨h, rfl⟩

theorem canonicalInviteCode_idem (h : cp.canonicalInviteCode code = some c) :
    cp.canonicalInviteCode c = some c := by
  rw [← h]
  refine canonicalInviteCode_congr ?_
  rw [(canonicalInviteCode_eq_some.mp h).2, String.toList_ofList, List.map_map]
  exact List.map_congr_left fun c _ => toLower_toLower c

/-! ## The link -/

theorem slash_not_mem_code (hlist : Wordlist cp.words) (h : FourWords cp words) :
    '/' ∉ ("-".intercalate words).toList := by
  intro hmem
  rw [String.toList_intercalate] at hmem
  rcases Split.mem_of_mem_intercalate hmem with hsep | ⟨part, hpart, hc⟩
  · exact absurd hsep (by decide)
  · obtain ⟨word, hword, rfl⟩ := List.mem_map.mp hpart
    exact absurd ((h.shape hlist word hword).2 '/' hc) (by decide)

theorem code_ne_nil (hlist : Wordlist cp.words) (h : FourWords cp words) :
    ("-".intercalate words).toList ≠ [] := by
  intro hnil
  have hparts := congrArg List.length (splitOn_code hlist h)
  rw [hnil, List.length_map, h.1] at hparts
  exact absurd hparts (by decide)

/-- A link is read back as its domain and its code. -/
theorem parseInviteUrl_shareUrl {rootDomain : String} (hne : rootDomain ≠ "")
    (hslash : '/' ∉ rootDomain.toList) (hcode : code.toList ≠ []) (hcodeSlash : '/' ∉ code.toList) :
    parseInviteUrl (shareUrl rootDomain code) = .ok ("https://" ++ rootDomain, code) := by
  have hchars : (shareUrl rootDomain code).toList =
      https ++ (rootDomain.toList ++ '/' :: 'i' :: '/' :: code.toList) := by
    unfold shareUrl
    simp [https]
  have hhost : rootDomain.toList ≠ [] := fun h => hne (String.toList_eq_nil_iff.mp h)
  have hread := hostAndCode_eq_some.mpr ⟨.inl hchars, hhost, hslash, hcode, hcodeSlash⟩
  rw [parseInviteUrl_ok hread, String.ofList_toList, String.ofList_toList]

/-! ## Main result -/

/-- **Invite links survive the whole trip.** -/
theorem invite_links (hlist : Wordlist cp.words) : InviteLinks cp := by
  refine ⟨?_, ?_, ?_, fun _ _ => canonicalInviteCode_idem, ?_, ?_⟩
  · intro code hgen
    obtain ⟨words, hwords, rfl⟩ := words_of_generated hgen
    exact canonicalInviteCode_code hlist hwords
  · intro code hgen
    obtain ⟨words, hwords, rfl⟩ := words_of_generated hgen
    rw [splitOn_code hlist hwords, List.length_map]
    exact hwords.1
  · intro code hgen
    obtain ⟨words, hwords, rfl⟩ := words_of_generated hgen
    exact ⟨words, ⟨hwords, rfl⟩, fun words' h => h.1.unique hlist hwords h.2.symm⟩
  · intro code code' c c' h h'
    rw [(canonicalInviteCode_eq_some.mp h).2, (canonicalInviteCode_eq_some.mp h').2,
      ← map_toLower_eq_iff]
    exact ⟨fun he => String.ofList_injective he, fun he => congrArg String.ofList he⟩
  · intro rootDomain code hne hslash hgen
    obtain ⟨words, hwords, rfl⟩ := words_of_generated hgen
    exact parseInviteUrl_shareUrl hne hslash (code_ne_nil hlist hwords)
      (slash_not_mem_code hlist hwords)

theorem invite_links_sample : Wordlist sample.words ∧ InviteLinks sample := by
  have hlist : Wordlist sample.words := ⟨by decide, by decide⟩
  exact ⟨hlist, invite_links hlist⟩

end ControlPlane
end Cococoir
