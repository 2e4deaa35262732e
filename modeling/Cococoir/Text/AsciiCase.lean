import Mathlib.Data.List.Forall2

/-!
# Equality up to ASCII case

Texts that people type are often compared without regard to case, and the way to do it is to lower
both sides and to compare what comes out.  Is that a comparison of the letters?  Only if lowering
joins no two letters but those of one pair.

Two letters are the same up to case when they are equal or 32 apart, the upper one in `A`..`Z`:
`SameLetter`.  Two texts are the same, `SameText`, when they are equally long and their letters
are the same one by one; this speaks of no function that lowers.  `map_toLower_eq_iff` says that
lowering decides it.

Everything else that has a lower case, the letters beyond ASCII, is left alone: `Char.toLower`
moves 26 letters.
-/

namespace Cococoir
namespace AsciiCase

variable {c d : Char} {s t : List Char}

/-- `d` is the capital letter `c` in lower case. -/
def Lowered (c d : Char) : Prop := 65 ≤ c.toNat ∧ c.toNat ≤ 90 ∧ d.toNat = c.toNat + 32

/-- The same letter, in either case. -/
def SameLetter (c d : Char) : Prop := c = d ∨ Lowered c d ∨ Lowered d c

/-- The same text, when case does not count. -/
def SameText (s t : List Char) : Prop := List.Forall₂ SameLetter s t

theorem toNat_toLower (c : Char) :
    c.toLower.toNat = if 65 ≤ c.toNat ∧ c.toNat ≤ 90 then c.toNat + 32 else c.toNat := by
  have hupper : c.val ≥ 'A'.val ∧ c.val ≤ 'Z'.val ↔ 65 ≤ c.toNat ∧ c.toNat ≤ 90 :=
    and_congr UInt32.le_iff_toNat_le UInt32.le_iff_toNat_le
  unfold Char.toLower
  split_ifs with h h' h'
  · have hadd : (c.val + 32).toNat = (c.val.toNat + 32) % 2 ^ 32 := UInt32.toNat_add ..
    have hval : c.val.toNat = c.toNat := rfl
    show (c.val + 32).toNat = _
    omega
  · exact absurd (hupper.mp h) h'
  · exact absurd (hupper.mpr h') h
  · rfl

theorem toLower_of_not_upper (h : ¬(65 ≤ c.toNat ∧ c.toNat ≤ 90)) : c.toLower = c :=
  Char.toNat_inj.mp (by rw [toNat_toLower, if_neg h])

theorem toLower_toLower (c : Char) : c.toLower.toLower = c.toLower := by
  refine toLower_of_not_upper ?_
  rw [toNat_toLower]
  split_ifs <;> omega

theorem toLower_eq_iff : c.toLower = d.toLower ↔ SameLetter c d := by
  unfold SameLetter Lowered
  rw [← Char.toNat_inj, ← Char.toNat_inj, toNat_toLower, toNat_toLower]
  split_ifs <;> omega

/-- **Two texts are the same up to case when lowering makes them equal.** -/
theorem map_toLower_eq_iff : s.map Char.toLower = t.map Char.toLower ↔ SameText s t := by
  unfold SameText
  induction s generalizing t with
  | nil => cases t <;> simp
  | cons c s ih =>
    cases t with
    | nil => simp
    | cons d t => rw [List.map_cons, List.map_cons, List.cons.injEq, toLower_eq_iff, ih,
        List.forall₂_cons]

end AsciiCase
end Cococoir
