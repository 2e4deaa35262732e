import Mathlib.Data.List.Basic

/-!
# Splitting a list at a separator

`split_once` and `rsplit_once`: the parts before and after the first, or the last, occurrence of a
separator; `strip_prefix`: what follows a given start.  Links, subnets, cookies and queries are
all read with these three.

Each is characterized by the one equation that its result satisfies.  `splitOnce_eq_some` reads:
the list is the first part, the separator and the second part, and the separator is not in the
first.  For `rsplitOnce` it is not in the second, and `stripPrefix_eq_some` has no condition at
all.  A parser is then specified by a chain of such equations, which says what the text was and
not how it was cut.

`map_intercalate` and `mem_of_mem_intercalate` are for texts that are joined before they are cut.
-/

namespace Cococoir
namespace Split

variable {α : Type} [DecidableEq α] {sep : α} {s a b : List α}

/-- The parts around the first separator. -/
def splitOnce (sep : α) : List α → Option (List α × List α)
  | [] => none
  | c :: s => if c = sep then some ([], s) else (splitOnce sep s).map fun p => (c :: p.1, p.2)

/-- The parts around the last separator. -/
def rsplitOnce (sep : α) : List α → Option (List α × List α)
  | [] => none
  | c :: s =>
    match rsplitOnce sep s with
    | some (a, b) => some (c :: a, b)
    | none => if c = sep then some ([], s) else none

omit [DecidableEq α] in
theorem map_intercalate {β : Type} (f : α → β) (sep : List α) (parts : List (List α)) :
    (sep.intercalate parts).map f = (sep.map f).intercalate (parts.map (List.map f)) := by
  induction parts with
  | nil => rfl
  | cons part parts ih =>
    cases parts with
    | nil => simp
    | cons next parts =>
      rw [List.intercalate_cons_cons, List.map_append, List.map_append, ih]
      simp

omit [DecidableEq α] in
theorem mem_of_mem_intercalate {c : α} {parts : List (List α)} (h : c ∈ s.intercalate parts) :
    c ∈ s ∨ ∃ part ∈ parts, c ∈ part := by
  induction parts with
  | nil => cases h
  | cons part parts ih =>
    cases parts with
    | nil => exact .inr ⟨part, List.mem_cons_self, by simpa using h⟩
    | cons next parts =>
      rw [List.intercalate_cons_cons, List.mem_append, List.mem_append] at h
      rcases h with (h | h) | h
      · exact .inr ⟨part, List.mem_cons_self, h⟩
      · exact .inl h
      · rcases ih h with h | ⟨other, hother, h⟩
        · exact .inl h
        · exact .inr ⟨other, List.mem_cons_of_mem _ hother, h⟩

/-- What follows a given start. -/
def stripPrefix (start s : List α) : Option (List α) :=
  if start <+: s then some (s.drop start.length) else none

theorem stripPrefix_append : stripPrefix a (a ++ b) = some b := by
  rw [stripPrefix, if_pos (List.prefix_append a b), List.drop_left]

theorem stripPrefix_eq_some : stripPrefix a s = some b ↔ s = a ++ b := by
  constructor
  · intro h
    unfold stripPrefix at h
    split_ifs at h with hstart
    obtain ⟨rest, rfl⟩ := hstart
    rw [List.drop_left] at h
    rw [Option.some.inj h]
  · rintro rfl
    exact stripPrefix_append

theorem splitOnce_eq_none : splitOnce sep s = none ↔ sep ∉ s := by
  induction s with
  | nil => simp [splitOnce]
  | cons c s ih =>
    rw [splitOnce]
    split_ifs with hc
    · simp [hc]
    · rw [Option.map_eq_none_iff, ih, List.mem_cons, not_or, and_iff_right (Ne.symm hc)]

theorem splitOnce_append (h : sep ∉ a) : splitOnce sep (a ++ sep :: b) = some (a, b) := by
  induction a with
  | nil => exact if_pos rfl
  | cons c a ih =>
    rw [List.mem_cons, not_or] at h
    rw [List.cons_append, splitOnce, if_neg (Ne.symm h.1), ih h.2]
    rfl

theorem splitOnce_eq_some : splitOnce sep s = some (a, b) ↔ s = a ++ sep :: b ∧ sep ∉ a := by
  constructor
  · intro h
    by_cases hmem : sep ∈ s
    · obtain ⟨x, y, rfl, hx⟩ := List.eq_append_cons_of_mem hmem
      rw [splitOnce_append hx] at h
      cases h
      exact ⟨rfl, hx⟩
    · rw [splitOnce_eq_none.mpr hmem] at h
      cases h
  · rintro ⟨rfl, h⟩
    exact splitOnce_append h

theorem rsplitOnce_eq_none : rsplitOnce sep s = none ↔ sep ∉ s := by
  induction s with
  | nil => simp [rsplitOnce]
  | cons c s ih =>
    rw [rsplitOnce, List.mem_cons, not_or, ← ih]
    cases rsplitOnce sep s with
    | none => simp [eq_comm]
    | some p => simp

theorem rsplitOnce_append (h : sep ∉ b) : rsplitOnce sep (a ++ sep :: b) = some (a, b) := by
  induction a with
  | nil =>
    rw [List.nil_append, rsplitOnce, rsplitOnce_eq_none.mpr h]
    exact if_pos rfl
  | cons c a ih => rw [List.cons_append, rsplitOnce, ih]

theorem rsplitOnce_eq_some : rsplitOnce sep s = some (a, b) ↔ s = a ++ sep :: b ∧ sep ∉ b := by
  constructor
  · intro h
    induction s generalizing a with
    | nil => cases h
    | cons c s ih =>
      rw [rsplitOnce] at h
      cases hs : rsplitOnce sep s with
      | some p =>
        rw [hs] at h
        cases h
        obtain ⟨rfl, hb⟩ := ih hs
        exact ⟨rfl, hb⟩
      | none =>
        rw [hs] at h
        dsimp only at h
        split_ifs at h with hc
        cases h
        exact ⟨by rw [hc]; rfl, rsplitOnce_eq_none.mp hs⟩
  · rintro ⟨rfl, h⟩
    exact rsplitOnce_append h

end Split
end Cococoir
