import Cococoir.Text.Split
import Mathlib.Data.List.Basic

/-!
# Form-decoding of a query

A query is cut at its ampersands, each piece at its first equals sign, and in both parts a plus is
a space and a percent sign with two hexadecimal digits is a byte.

* `formPairs`, `queryOf`: the parameters of a query, and the query of a reference.
* `formDecode_eq_self`: the values that decode to themselves.

Whoever writes a value into a link without encoding it relies on the value decoding to itself.
Which do?  Decoding works on bytes, in two passes: first each plus becomes a space, then each
escape becomes a byte.  If the value has a plus, the first pass changes it for good; if it has an
escape, the second makes it shorter, and nothing makes it longer again
(`length_percentDecode_lt`).  So the values that decode to themselves are those that have neither,
and `formDecode_eq_self` is an equivalence.  An ampersand or a hash in the value is another
matter: it ends the value before it is decoded, and `formPairs` and `queryOf` say where.

Bytes are written as numbers, since a query need not be text.
-/

namespace Cococoir
namespace FormUrl

open Split

variable {s t name value a b : List UInt8}

/-- The UTF-8 bytes of a text. -/
def utf8 (s : String) : List UInt8 := s.toByteArray.data.toList

@[simp] theorem utf8_append (s t : String) : utf8 (s ++ t) = utf8 s ++ utf8 t := by
  rw [utf8, String.toByteArray_append, ByteArray.toList_data_append]
  rfl

/-- The value of a hexadecimal digit. -/
def hexValue (b : UInt8) : Option UInt8 :=
  if 48 ≤ b ∧ b ≤ 57 then some (b - 48)
  else if 65 ≤ b ∧ b ≤ 70 then some (b - 55)
  else if 97 ≤ b ∧ b ≤ 102 then some (b - 87)
  else none

/-- A byte that is written as a percent sign (37) and two digits. -/
def escaped (c h l : UInt8) : Option UInt8 :=
  match hexValue h, hexValue l with
  | some x, some y => if c = 37 then some (16 * x + y) else none
  | _, _ => none

def percentDecode : List UInt8 → List UInt8
  | c :: h :: l :: s =>
    match escaped c h l with
    | some b => b :: percentDecode s
    | none => c :: percentDecode (h :: l :: s)
  | s => s

/-- A plus (43) is a space. -/
def plusToSpace (b : UInt8) : UInt8 := if b = 43 then 32 else b

def formDecode (s : List UInt8) : List UInt8 := percentDecode (s.map plusToSpace)

/-- A name and its value, around the first equals sign (61). -/
def formPair (s : List UInt8) : List UInt8 × List UInt8 :=
  match splitOnce 61 s with
  | some (name, value) => (formDecode name, formDecode value)
  | none => (formDecode s, [])

/-- The parameters of a query, between ampersands (38); an empty piece is none. -/
def formPairs (query : List UInt8) : List (List UInt8 × List UInt8) :=
  ((query.splitOn 38).filter fun s => s ≠ []).map formPair

/-- The query of a reference: between the first question mark (63) and the fragment (35). -/
def queryOf (reference : List UInt8) : List UInt8 :=
  match splitOnce 63 (reference.takeWhile (· ≠ 35)) with
  | some (_, query) => query
  | none => []

/-! ## Percent-decoding -/

/-- Somewhere a percent sign is followed by two digits. -/
def HasEscape (s : List UInt8) : Prop := ∃ c h l, [c, h, l] <:+: s ∧ (escaped c h l).isSome

theorem hasEscape_cons {c h l : UInt8} (hc : escaped c h l = none) :
    HasEscape (c :: h :: l :: s) ↔ HasEscape (h :: l :: s) := by
  constructor
  · rintro ⟨c', h', l', hin, hsome⟩
    rcases List.infix_cons_iff.mp hin with hpre | hin
    · obtain ⟨rest, heq⟩ := hpre
      cases heq
      rw [hc] at hsome
      cases hsome
    · exact ⟨c', h', l', hin, hsome⟩
  · rintro ⟨c', h', l', hin, hsome⟩
    exact ⟨c', h', l', List.infix_cons hin, hsome⟩

theorem percentDecode_short (hs : ∀ c h l s', s ≠ c :: h :: l :: s') : percentDecode s = s := by
  match s with
  | [] => rfl
  | [_] => rfl
  | [_, _] => rfl
  | c :: h :: l :: s' => exact absurd rfl (hs c h l s')

theorem not_hasEscape_short (hs : ∀ c h l s', s ≠ c :: h :: l :: s') : ¬HasEscape s := by
  rintro ⟨c, h, l, hin, -⟩
  have hle := hin.length_le
  match s with
  | [] | [_] | [_, _] => simp at hle
  | c :: h :: l :: s' => exact hs c h l s' rfl

theorem length_percentDecode_le (s : List UInt8) : (percentDecode s).length ≤ s.length := by
  induction s using percentDecode.induct with
  | case1 c h l s b hb ih =>
    rw [percentDecode, hb]
    simp only [List.length_cons]
    omega
  | case2 c h l s hb ih =>
    rw [percentDecode, hb]
    exact Nat.succ_le_succ ih
  | case3 s hs =>
    exact Nat.le_of_eq (congrArg List.length (percentDecode_short fun c h l s' heq => hs c h l s' heq))

/-- An escape makes a text shorter. -/
theorem length_percentDecode_lt (h : HasEscape s) : (percentDecode s).length < s.length := by
  induction s using percentDecode.induct with
  | case1 c h l s b hb ih =>
    have hle := length_percentDecode_le s
    rw [percentDecode, hb]
    simp only [List.length_cons]
    omega
  | case2 c h l s hb ih =>
    rw [percentDecode, hb]
    exact Nat.succ_lt_succ (ih ((hasEscape_cons hb).mp ‹_›))
  | case3 s hs => exact absurd h (not_hasEscape_short fun c h l s' heq => hs c h l s' heq)

theorem percentDecode_eq_self (h : ¬HasEscape s) : percentDecode s = s := by
  induction s using percentDecode.induct with
  | case1 c x y s b hb ih =>
    exact absurd ⟨c, x, y, ⟨[], s, rfl⟩, Option.isSome_of_eq_some hb⟩ h
  | case2 c x y s hb ih =>
    rw [percentDecode, hb]
    exact congrArg (c :: ·) (ih (mt (hasEscape_cons hb).mpr h))
  | case3 s hs => exact percentDecode_short fun c h l s' heq => hs c h l s' heq

/-! ## Form-decoding -/

theorem length_formDecode_le (s : List UInt8) : (formDecode s).length ≤ s.length := by
  have hle := length_percentDecode_le (s.map plusToSpace)
  rwa [List.length_map] at hle

theorem map_plusToSpace_eq_self : s.map plusToSpace = s ↔ 43 ∉ s := by
  induction s with
  | nil => simp
  | cons b s ih =>
    rw [List.map_cons, List.cons.injEq, ih, List.mem_cons, not_or]
    refine and_congr_left fun _ => ?_
    unfold plusToSpace
    split_ifs with hb
    · simp [hb]
    · exact iff_of_true rfl (Ne.symm hb)

/-- **The values that decode to themselves**: without a plus, and without an escape. -/
theorem formDecode_eq_self : formDecode s = s ↔ 43 ∉ s ∧ ¬HasEscape s := by
  unfold formDecode
  constructor
  · intro h
    have hno : ¬HasEscape (s.map plusToSpace) := by
      intro hescape
      have hlt := length_percentDecode_lt hescape
      rw [h, List.length_map] at hlt
      exact Nat.lt_irrefl _ hlt
    rw [percentDecode_eq_self hno] at h
    exact ⟨map_plusToSpace_eq_self.mp h, h ▸ hno⟩
  · rintro ⟨hplus, hno⟩
    rw [map_plusToSpace_eq_self.mpr hplus, percentDecode_eq_self hno]

/-! ## Pairs -/

theorem splitOn_append (h : 38 ∉ a) : (a ++ 38 :: b).splitOn 38 = a :: b.splitOn 38 := by
  rw [List.splitOn_eq_splitOnP, List.splitOn_eq_splitOnP]
  refine List.splitOnP_append_cons_of_forall_mem (fun x hx => ?_) 38 (by decide) b
  exact beq_false_of_ne fun heq => h (heq ▸ hx)

theorem splitOn_single (h : 38 ∉ a) : a.splitOn 38 = [a] := by
  rw [List.splitOn_eq_splitOnP]
  exact List.splitOnP_eq_singleton fun x hx => beq_false_of_ne fun heq => h (heq ▸ hx)

theorem formPairs_append (h : 38 ∉ a) (hne : a ≠ []) :
    formPairs (a ++ 38 :: b) = formPair a :: formPairs b := by
  rw [formPairs, splitOn_append h, List.filter_cons_of_pos (by simpa using hne), List.map_cons]
  rfl

theorem formPairs_single (h : 38 ∉ a) (hne : a ≠ []) : formPairs a = [formPair a] := by
  rw [formPairs, splitOn_single h, List.filter_cons_of_pos (by simpa using hne), List.filter_nil]
  rfl

theorem formPair_eq (h : 61 ∉ name) :
    formPair (name ++ 61 :: value) = (formDecode name, formDecode value) := by
  rw [formPair, splitOnce_append h]

end FormUrl
end Cococoir
