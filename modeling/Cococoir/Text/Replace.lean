import Mathlib.Data.List.Infix

/-!
# Replacing a pattern

`str::replace`: every occurrence of a pattern, from left to right and without overlap, gives way
to another text.

* `Replaced`: the parts between the occurrences stay, `replaced_replace`.
* `replace_of_absent`: where there is no occurrence nothing changes.
* `not_infix_replace`: a pattern in brackets is gone, unless the new text is a piece of what the
  brackets hold; `exists_infix_replace` is a text where such a piece makes the pattern anew.

A template engine of the poorest kind replaces `{name}` by a value and takes it for granted that
no `{name}` is left.  The occurrences that were there are gone, but the value and what stands
around it might spell the pattern together.  If neither bracket is in the value this can go wrong
in one way only.  The opening bracket of a new occurrence is not in the value, so it was in the
text before; reading on from there, the old text and the new agree up to the value, and the value
has to supply what is missing up to the closing bracket, or a part of that.  Hence the value is a
piece of the word between the brackets.  `prefix_of_prefix_replace` is this reading, and the
induction in it is on the text as `replace` reads it: at each place an occurrence or a character
that starts none.
-/

namespace Cococoir
namespace Replace

variable {α : Type} [DecidableEq α]

/-- Replace the pattern, after `skip` more characters of an occurrence. -/
def replaceFrom (pat new : List α) : (skip : ℕ) → List α → List α
  | _, [] => []
  | skip + 1, _ :: s => replaceFrom pat new skip s
  | 0, c :: s =>
    if pat <+: c :: s then new ++ replaceFrom pat new (pat.length - 1) s
    else c :: replaceFrom pat new 0 s

/-- Replace every occurrence of the pattern. -/
def replace (pat new s : List α) : List α := replaceFrom pat new 0 s

variable {pat new s : List α} {c : α}

@[simp] theorem replace_nil : replace pat new [] = [] := rfl

theorem replaceFrom_drop (skip : ℕ) (s : List α) :
    replaceFrom pat new skip s = replace pat new (s.drop skip) := by
  induction skip generalizing s with
  | zero => rfl
  | succ skip ih =>
    cases s with
    | nil => rfl
    | cons c s =>
      rw [replaceFrom, ih]
      rfl

theorem replace_append_pat (hne : pat ≠ []) :
    replace pat new (pat ++ s) = new ++ replace pat new s := by
  obtain ⟨c, tail, rfl⟩ := List.exists_cons_of_ne_nil hne
  have hpre : c :: tail <+: c :: (tail ++ s) := List.prefix_append (c :: tail) s
  rw [List.cons_append, replace, replaceFrom, if_pos hpre, replaceFrom_drop, List.length_cons,
    Nat.add_sub_cancel, List.drop_left]

theorem replace_cons (h : ¬pat <+: c :: s) : replace pat new (c :: s) = c :: replace pat new s :=
  if_neg h

/-- How a text is read from the left: an occurrence, or a character that starts none. -/
theorem replace_induction {P : List α → Prop} (hne : pat ≠ []) (nil : P [])
    (occurrence : ∀ s, P s → P (pat ++ s)) (char : ∀ c s, ¬pat <+: c :: s → P s → P (c :: s)) (s) :
    P s := by
  induction hn : s.length using Nat.strong_induction_on generalizing s with
  | _ n ih =>
    subst hn
    cases s with
    | nil => exact nil
    | cons c s =>
      by_cases h : pat <+: c :: s
      · obtain ⟨rest, hrest⟩ := h
        have hlen := congrArg List.length hrest
        have hpos := List.length_pos_of_ne_nil hne
        rw [List.length_append] at hlen
        rw [← hrest]
        exact occurrence rest (ih rest.length (by omega) rest rfl)
      · exact char c s h (ih s.length (by simp) s rfl)

theorem replace_of_absent (h : ¬pat <:+: s) : replace pat new s = s := by
  induction s with
  | nil => rfl
  | cons c s ih =>
    rw [replace_cons fun hpre => h hpre.isInfix, ih fun hin => h (List.infix_cons hin)]

/-! ## What stays -/

/-- The text is some parts without the pattern around its occurrences, and `t` is the same parts
around the new text. -/
def Replaced (pat new s t : List α) : Prop :=
  ∃ parts : List (List α), parts ≠ [] ∧ (∀ p ∈ parts, ¬pat <:+: p) ∧
    s = pat.intercalate parts ∧ t = new.intercalate parts

theorem replaced_replace (hne : pat ≠ []) (s : List α) :
    Replaced pat new s (replace pat new s) := by
  have hnil : ¬pat <:+: [] := fun h => hne (List.infix_nil.mp h)
  induction s using replace_induction hne with
  | nil => exact ⟨[[]], by simp, by simpa using hnil, by simp, by simp⟩
  | occurrence s ih =>
    obtain ⟨parts, hparts, hno, hs, ht⟩ := ih
    refine ⟨[] :: parts, by simp, List.forall_mem_cons.mpr ⟨hnil, hno⟩, ?_, ?_⟩
    · rw [List.intercalate_cons_of_ne_nil hparts, ← hs]
      rfl
    · rw [replace_append_pat hne, List.intercalate_cons_of_ne_nil hparts, ← ht]
      rfl
  | char c s hc ih =>
    obtain ⟨parts, hparts, hno, hs, ht⟩ := ih
    obtain ⟨p, parts, rfl⟩ := List.exists_cons_of_ne_nil hparts
    obtain ⟨hp, hno⟩ := List.forall_mem_cons.mp hno
    have hcons : ∀ sep : List α, sep.intercalate ((c :: p) :: parts) =
        c :: sep.intercalate (p :: parts) := by
      intro sep
      cases parts with
      | nil => simp
      | cons q parts =>
        simp only [List.intercalate_cons_cons, List.cons_append]
    have hpre : p <+: s := by
      rw [hs]
      cases parts with
      | nil => simp
      | cons q parts =>
        simp only [List.intercalate_cons_cons, List.append_assoc]
        exact List.prefix_append p _
    refine ⟨(c :: p) :: parts, by simp, List.forall_mem_cons.mpr ⟨fun hin => ?_, hno⟩, ?_, ?_⟩
    · rcases List.infix_cons_iff.mp hin with hpat | hin
      · exact hc (hpat.trans (List.cons_prefix_cons.mpr ⟨rfl, hpre⟩))
      · exact hp hin
    · rw [hcons, ← hs]
    · rw [replace_cons hc, hcons, ← ht]

/-! ## Patterns in brackets -/

section Brackets

variable {a b : α} {mid : List α}

/-- What stands before a closing bracket was there, or has the new text in it. -/
theorem prefix_of_prefix_replace (hnew : b ∉ new) (hne : pat ≠ []) (s : List α) :
    ∀ m : List α, b ∉ m → m ++ [b] <+: replace pat new s → m ++ [b] <+: s ∨ new <:+: m := by
  induction s using replace_induction hne with
  | nil =>
    intro m hm h
    have hlen := h.length_le
    simp at hlen
  | occurrence s ih =>
    intro m hm h
    rw [replace_append_pat hne] at h
    refine .inr ?_
    have hle : new.length ≤ m.length := by
      by_contra hlt
      have hsub : m ++ [b] <+: new := by
        refine List.prefix_of_prefix_length_le h (List.prefix_append _ _) ?_
        rw [List.length_append, List.length_singleton]
        omega
      exact hnew (hsub.mem (by simp))
    have hpre : new <+: m ++ [b] := by
      refine List.prefix_of_prefix_length_le (List.prefix_append _ _) h ?_
      rw [List.length_append]
      omega
    exact (List.prefix_of_prefix_length_le hpre (List.prefix_append m [b]) hle).isInfix
  | char c s hc ih =>
    intro m hm h
    rw [replace_cons hc] at h
    cases m with
    | nil =>
      obtain ⟨rfl, -⟩ := List.cons_prefix_cons.mp h
      exact .inl (List.cons_prefix_cons.mpr ⟨rfl, List.nil_prefix⟩)
    | cons x m =>
      rw [List.mem_cons, not_or] at hm
      obtain ⟨rfl, htail⟩ := List.cons_prefix_cons.mp h
      rcases ih m hm.2 htail with hthere | hpiece
      · exact .inl (List.cons_prefix_cons.mpr ⟨rfl, hthere⟩)
      · exact .inr (List.infix_cons hpiece)

/-- **The pattern is gone**, unless the new text is a piece of what its brackets hold. -/
theorem not_infix_replace (ha : a ∉ new) (hb : b ∉ new) (hmid : b ∉ mid) (hpiece : ¬new <:+: mid)
    (s : List α) : ¬a :: (mid ++ [b]) <:+: replace (a :: (mid ++ [b])) new s := by
  have hne : a :: (mid ++ [b]) ≠ [] := List.cons_ne_nil _ _
  induction s using replace_induction hne with
  | nil => exact fun h => hne (List.infix_nil.mp h)
  | occurrence s ih =>
    rw [replace_append_pat hne]
    -- an occurrence does not start in the new text, which has no opening bracket
    have hskip : ∀ u : List α, a ∉ u → ∀ t, ¬a :: (mid ++ [b]) <:+: t →
        ¬a :: (mid ++ [b]) <:+: u ++ t := by
      intro u
      induction u with
      | nil => exact fun _ t ht => ht
      | cons x u ihu =>
        intro hu t ht hin
        rw [List.mem_cons, not_or] at hu
        rcases List.infix_cons_iff.mp hin with hpre | hin
        · exact hu.1 (List.cons_prefix_cons.mp hpre).1
        · exact ihu hu.2 t ht hin
    exact hskip new ha _ ih
  | char c s hc ih =>
    rw [replace_cons hc]
    intro hin
    rcases List.infix_cons_iff.mp hin with hpre | hin
    · obtain ⟨rfl, htail⟩ := List.cons_prefix_cons.mp hpre
      rcases prefix_of_prefix_replace hb hne s mid hmid htail with hthere | hin
      · exact hc (List.cons_prefix_cons.mpr ⟨rfl, hthere⟩)
      · exact hpiece hin
    · exact ih hin

/-- A piece of what the brackets hold makes the pattern anew, in some text. -/
theorem exists_infix_replace (hab : a ≠ b) (hmid : a ∉ mid) (hpiece : new <:+: mid) :
    ∃ s, a :: (mid ++ [b]) <:+: replace (a :: (mid ++ [b])) new s := by
  obtain ⟨u, v, rfl⟩ := hpiece
  set pat := a :: (u ++ new ++ v ++ [b]) with hpat
  have hne : pat ≠ [] := List.cons_ne_nil _ _
  -- no occurrence starts at a character other than the opening bracket
  have hskip : ∀ x : List α, a ∉ x → ∀ t, replace pat new (x ++ t) = x ++ replace pat new t := by
    intro x
    induction x with
    | nil => exact fun _ t => rfl
    | cons c x ih =>
      intro hx t
      rw [List.mem_cons, not_or] at hx
      rw [List.cons_append, replace_cons fun h => hx.1 (List.cons_prefix_cons.mp h).1, ih hx.2]
      rfl
  simp only [List.mem_append, not_or] at hmid
  obtain ⟨⟨hu, hnew⟩, hv⟩ := hmid
  have hclose : a ∉ v ++ [b] := by simp [hv, hab]
  have hfirst : ¬pat <+: a :: (u ++ (pat ++ (v ++ [b]))) := by
    intro h
    obtain ⟨-, h⟩ := List.cons_prefix_cons.mp h
    rw [List.append_assoc, List.append_assoc, List.prefix_append_right_inj] at h
    have hmem : a ∈ new ++ (v ++ [b]) := by
      rw [hpat] at h
      cases hrest : new ++ (v ++ [b]) with
      | nil => simp at hrest
      | cons x rest =>
        rw [hrest] at h
        rw [(List.cons_prefix_cons.mp h).1]
        exact List.mem_cons_self
    rw [List.mem_append] at hmem
    exact hmem.elim hnew hclose
  refine ⟨a :: (u ++ (pat ++ (v ++ [b]))), ?_⟩
  have hlast := hskip (v ++ [b]) hclose []
  rw [List.append_nil] at hlast
  rw [replace_cons hfirst, hskip u hu, replace_append_pat hne, hlast, replace_nil, List.append_nil]
  rw [hpat]
  simp

end Brackets

end Replace
end Cococoir
