import Cococoir.Net.Address
import Mathlib.Data.Nat.Digits.Defs

/-!
# Reading IP addresses

`FromStr` of the standard library's IPv6 addresses, as its parser goes: numerals with a bound on
their digits, groups separated by colons, a dotted tail wherever two groups are left, and one `::`
for at least one group of zeros.  What `Display` prints is read back as the address it was printed
from: `Ipv6Addr.fromStr_display`.

## How the parser is modelled

The standard library's parser is a cursor with backtracking: each piece either moves the cursor or
leaves it.  Here a piece is a function from the text to an optional value and what is left of the
text.  `readGroups` is the loop that reads as many groups as it can, at most a given number, and
reports whether the last of them was a dotted address.  An address is eight groups; or fewer, then
`::`, then more.

## Why reading back needs an argument

Printing has three forms: eight groups; groups around `::`, which stands for the longest run of
zeros; and the mapped form with a dotted tail.  The parser is greedy, and in each form one has to
see that it stops where the piece ended.  `Stops` says that no digit follows a numeral, `Ends`
that no group follows a list of groups, and both hold of what the printer puts there: a colon, a
double colon or the end.  A dotted address is tried at every group, and is refused because there
is no dot before a colon (`readIpv4Addr_eq_none`).
-/

namespace Cococoir
namespace Net

/-! ## The parser -/

/-- The value of a digit in a base. -/
def toDigit (radix : ℕ) (c : Char) : Option ℕ :=
  let value := if '0' ≤ c ∧ c ≤ '9' then some (c.toNat - 48)
    else if 'a' ≤ c ∧ c ≤ 'f' then some (c.toNat - 87)
    else if 'A' ≤ c ∧ c ≤ 'F' then some (c.toNat - 55) else none
  value.filter (· < radix)

/-- The digits at the front of a text, and what follows them. -/
def readDigits (radix : ℕ) : List Char → List ℕ × List Char
  | [] => ([], [])
  | c :: s =>
    match toDigit radix c with
    | some d => (d :: (readDigits radix s).1, (readDigits radix s).2)
    | none => ([], c :: s)

/-- The number that digits stand for, the most significant first. -/
def numberOf (radix : ℕ) (digits : List ℕ) : ℕ := digits.foldl (fun n d => n * radix + d) 0

/-- A numeral below a bound, of at most so many digits. -/
def readNumber (radix maxDigits : ℕ) (allowZeroPrefix : Bool) (bound : ℕ) (s : List Char) :
    Option (ℕ × List Char) :=
  let digits := (readDigits radix s).1
  if digits = [] ∨ maxDigits < digits.length then none
  else if allowZeroPrefix = false ∧ digits.head? = some 0 ∧ 1 < digits.length then none
  else if numberOf radix digits < bound then some (numberOf radix digits, (readDigits radix s).2)
  else none

def readGivenChar (target : Char) : List Char → Option (List Char)
  | [] => none
  | c :: s => if c = target then some s else none

/-- What stands at position `index` of a list with separators. -/
def readSeparator {α : Type} (sep : Char) (index : ℕ) (inner : List Char → Option (α × List Char))
    (s : List Char) : Option (α × List Char) :=
  if 0 < index then (readGivenChar sep s).bind inner else inner s

/-- One octet of a dotted address; octal is refused. -/
def readOctet (index : ℕ) (s : List Char) : Option (ℕ × List Char) :=
  readSeparator '.' index (readNumber 10 3 false 256) s

/-- The four octets of a dotted address. -/
def readIpv4Addr (s : List Char) : Option (List ℕ × List Char) := do
  let (a, s) ← readOctet 0 s
  let (b, s) ← readOctet 1 s
  let (c, s) ← readOctet 2 s
  let (d, s) ← readOctet 3 s
  return ([a, b, c, d], s)

/-- The two groups that a dotted address fills. -/
def ipv4Groups : List ℕ → List ℕ
  | [a, b, c, d] => [a * 256 + b, c * 256 + d]
  | _ => []

/-- At most `remaining` groups from position `index` on, and whether a dotted address was among
them. -/
def readGroups : (remaining index : ℕ) → List Char → List ℕ × Bool × List Char
  | 0, _, s => ([], false, s)
  | remaining + 1, index, s =>
    -- a dotted tail needs two groups
    match if 0 < remaining then readSeparator ':' index readIpv4Addr s else none with
    | some (octets, s) => (ipv4Groups octets, true, s)
    | none =>
      match readSeparator ':' index (readNumber 16 4 true 65536) s with
      | some (group, s) =>
        (group :: (readGroups remaining (index + 1) s).1, (readGroups remaining (index + 1) s).2)
      | none => ([], false, s)

/-- The eight groups of an address. -/
def readIpv6Addr (s : List Char) : Option (List ℕ × List Char) :=
  let (head, isDotted, s) := readGroups 8 0 s
  if head.length = 8 then some (head, s)
  else if isDotted then none
  else do
    let s ← readGivenChar ':' s
    let s ← readGivenChar ':' s
    let (tail, _, s) := readGroups (8 - (head.length + 1)) 0 s
    return (head ++ List.replicate (8 - head.length - tail.length) 0 ++ tail, s)

/-- The octets of groups. -/
def groupOctets (groups : List ℕ) : List UInt8 :=
  groups.flatMap fun g => [UInt8.ofNat (g / 256), UInt8.ofNat (g % 256)]

/-- `FromStr`: the whole text is an address. -/
def Ipv6Addr.fromStr (text : String) : Option Ipv6Addr :=
  match readIpv6Addr text.toList with
  | some (groups, []) =>
    -- the parser gives eight groups
    if h : (groupOctets groups).length = 16 then some ⟨groupOctets groups, h⟩ else none
  | _ => none

example : (Ipv6Addr.fromStr "2a01:4f8:c17:1::2").map Ipv6Addr.display = some "2a01:4f8:c17:1::2" := by
  decide

/-! ## Numerals are read back -/

/-- Nothing that could continue a numeral follows. -/
def Stops (radix : ℕ) (s : List Char) : Prop := ∀ c ∈ s.head?, toDigit radix c = none

theorem readDigits_stops {radix : ℕ} {s : List Char} (h : Stops radix s) :
    readDigits radix s = ([], s) := by
  cases s with
  | nil => rfl
  | cons c s => rw [readDigits, h c rfl]

theorem readDigits_append {radix : ℕ} {xs s : List Char} {ds : List ℕ}
    (hds : xs.map (toDigit radix) = ds.map some) (hs : Stops radix s) :
    readDigits radix (xs ++ s) = (ds, s) := by
  induction xs generalizing ds with
  | nil =>
    obtain rfl : ds = [] := List.map_eq_nil_iff.mp hds.symm
    exact readDigits_stops hs
  | cons c xs ih =>
    cases ds with
    | nil => cases hds
    | cons d ds =>
      obtain ⟨hc, hrest⟩ := List.cons.inj hds
      rw [List.cons_append, readDigits, hc]
      simp only [ih hrest]

theorem numberOf_append {radix : ℕ} {ds : List ℕ} {d : ℕ} :
    numberOf radix (ds ++ [d]) = numberOf radix ds * radix + d := by
  rw [numberOf, List.foldl_append]
  rfl

/-- A printed numeral is digits that stand for the number, with a zero first only for zero. -/
theorem exists_digits {radix : ℕ} (hr : radix = 10 ∨ radix = 16) (n : ℕ) :
    ∃ ds, (Nat.toDigits radix n).map (toDigit radix) = ds.map some ∧ numberOf radix ds = n ∧
      (ds.head? = some 0 → n = 0) := by
  have hdigit : ∀ d < radix, toDigit radix (Nat.digitChar d) = some d := by
    rcases hr with rfl | rfl <;> decide
  have hone : 1 < radix := by omega
  induction n using Nat.strong_induction_on with
  | _ n ih =>
    rw [Nat.toDigits_eq_if hone]
    split_ifs with hlt
    · refine ⟨[n], by simp [hdigit n hlt], by simp [numberOf], fun h => by simpa using h⟩
    · obtain ⟨ds, hds, hvalue, hhead⟩ := ih (n / radix) (Nat.div_lt_self (by omega) hone)
      have hne : ds ≠ [] := by
        rintro rfl
        exact Nat.toDigits_ne_nil (List.map_eq_nil_iff.mp hds)
      refine ⟨ds ++ [n % radix], ?_, ?_, fun h => ?_⟩
      · rw [List.map_append, List.map_append, hds, List.map_singleton, List.map_singleton,
          hdigit _ (Nat.mod_lt _ (by omega))]
      · rw [numberOf_append, hvalue, Nat.mul_comm, Nat.div_add_mod]
      · rw [List.head?_append_of_ne_nil _ hne] at h
        have hzero := hhead h
        have := (Nat.div_eq_zero_iff_lt (by omega)).mp hzero
        omega

/-- **A printed number is read back**, unless a digit follows it. -/
theorem readNumber_toDigits {radix maxDigits bound n : ℕ} {allow : Bool} {s : List Char}
    (hr : radix = 10 ∨ radix = 16) (hlen : (Nat.toDigits radix n).length ≤ maxDigits)
    (hn : n < bound) (hs : Stops radix s) :
    readNumber radix maxDigits allow bound (Nat.toDigits radix n ++ s) = some (n, s) := by
  obtain ⟨ds, hds, hvalue, hhead⟩ := exists_digits hr n
  have hlength : (Nat.toDigits radix n).length = ds.length := by
    have := congrArg List.length hds
    simpa using this
  have hne : ds ≠ [] := by
    rintro rfl
    exact Nat.toDigits_ne_nil (List.map_eq_nil_iff.mp hds)
  have hzero : ¬(allow = false ∧ ds.head? = some 0 ∧ 1 < ds.length) := by
    rintro ⟨-, h0, hlong⟩
    rw [hhead h0, Nat.toDigits_zero, List.length_singleton] at hlength
    omega
  rw [readNumber, readDigits_append hds hs]
  dsimp only
  rw [if_neg (by rw [not_or]; exact ⟨hne, by omega⟩), if_neg hzero, hvalue, if_pos hn]

/-! ## Groups are read back -/

/-- The groups of a list from a position on, each after a colon but the first of all. -/
def groupsText (index : ℕ) : List ℕ → List Char
  | [] => []
  | g :: gs => (if 0 < index then [':'] else []) ++ Nat.toDigits 16 g ++ groupsText (index + 1) gs

theorem groupsText_zero (gs : List ℕ) : groupsText 0 gs = fmtSubslice gs := by
  have hsucc : ∀ (gs : List ℕ) (i g : ℕ), Nat.toDigits 16 g ++ groupsText (i + 1) gs =
      fmtSubslice (g :: gs) := by
    intro gs
    induction gs with
    | nil =>
      intro i g
      simp [groupsText, fmtSubslice]
    | cons g' gs ih =>
      intro i g
      have hcons : fmtSubslice (g :: g' :: gs) = Nat.toDigits 16 g ++ ([':'] ++ fmtSubslice (g' :: gs)) := by
        rw [fmtSubslice, fmtSubslice, List.map_cons, List.intercalate_cons_of_ne_nil (by simp),
          List.append_assoc]
      rw [groupsText, if_pos (Nat.succ_pos i), List.append_assoc, ih, hcons]
  cases gs with
  | nil => rfl
  | cons g gs => exact hsucc gs 0 g

theorem suffix_readDigits {radix : ℕ} {s : List Char} : (readDigits radix s).2 <:+ s := by
  induction s with
  | nil => exact List.suffix_refl _
  | cons c s ih =>
    rw [readDigits]
    split
    · exact ih.trans (List.suffix_cons c s)
    · exact List.suffix_refl _

theorem suffix_readNumber {radix k bound n : ℕ} {allow : Bool} {s s' : List Char}
    (h : readNumber radix k allow bound s = some (n, s')) : s' <:+ s := by
  unfold readNumber at h
  dsimp only at h
  split_ifs at h
  cases h
  exact suffix_readDigits

/-- A dotted address has a dot. -/
theorem readIpv4Addr_eq_none {s : List Char} (h : '.' ∉ s) : readIpv4Addr s = none := by
  rw [readIpv4Addr]
  cases ha : readOctet 0 s with
  | none => rfl
  | some a =>
    have hsuffix : a.2 <:+ s := suffix_readNumber ha
    have hb : readOctet 1 a.2 = none := by
      rw [readOctet, readSeparator, if_pos Nat.one_pos]
      cases hrest : a.2 with
      | nil => rfl
      | cons c rest =>
        have hc : c ≠ '.' := by
          rintro rfl
          exact h (hsuffix.mem (by rw [hrest]; exact List.mem_cons_self))
        rw [readGivenChar, if_neg hc]
        rfl
    change (readOctet 1 a.2).bind _ = none
    rw [hb]
    rfl

theorem toDigit_colon {radix : ℕ} : toDigit radix ':' = none := by
  simp [toDigit]

theorem stops_groupsText {index : ℕ} {gs : List ℕ} {s : List Char} (h : Stops 16 s) :
    Stops 16 (groupsText (index + 1) gs ++ s) := by
  cases gs with
  | nil => exact h
  | cons g gs =>
    rw [groupsText, if_pos (Nat.succ_pos index)]
    intro c hc
    simp only [List.append_assoc, List.cons_append, List.nil_append, List.head?_cons,
      Option.mem_some] at hc
    rw [← hc]
    exact toDigit_colon

/-- No group follows: the text is over, or goes on with `::`. -/
def Ends (s : List Char) : Prop := s = [] ∨ ∃ rest, s = ':' :: ':' :: rest

theorem Ends.stops {s : List Char} (h : Ends s) : Stops 16 s := by
  rcases h with rfl | ⟨rest, rfl⟩
  · exact nofun
  · intro c hc
    obtain rfl : ':' = c := by simpa using hc
    exact toDigit_colon

theorem readNumber_stops {radix k bound : ℕ} {allow : Bool} {s : List Char} (h : Stops radix s) :
    readNumber radix k allow bound s = none := by
  rw [readNumber, readDigits_stops h]
  exact if_pos (Or.inl rfl)

theorem readIpv4Addr_stops {s : List Char} (h : Stops 10 s) : readIpv4Addr s = none := by
  have hoctet : readOctet 0 s = none := readNumber_stops h
  rw [readIpv4Addr, hoctet]
  rfl

theorem Ends.readGroups {s : List Char} (h : Ends s) (remaining index : ℕ) :
    readGroups remaining index s = ([], false, s) := by
  have hsep : ∀ {α : Type} (radix : ℕ) (inner : List Char → Option (α × List Char)),
      (∀ t, Stops radix t → inner t = none) → readSeparator ':' index inner s = none := by
    intro α radix inner hinner
    have hcolon : ∀ rest, Stops radix (':' :: rest) := by
      intro rest c hc
      obtain rfl : ':' = c := by simpa using hc
      exact toDigit_colon
    rw [readSeparator]
    rcases h with rfl | ⟨rest, rfl⟩
    · split_ifs
      · rfl
      · exact hinner [] nofun
    · split_ifs
      · exact hinner (':' :: rest) (hcolon rest)
      · exact hinner _ (hcolon _)
  cases remaining with
  | zero => rfl
  | succ remaining =>
    have hv4 : readSeparator ':' index readIpv4Addr s = none := hsep 10 _ fun t => readIpv4Addr_stops
    have hgroup : readSeparator ':' index (readNumber 16 4 true 65536) s = none :=
      hsep 16 _ fun t => readNumber_stops
    rw [Net.readGroups, hv4, ite_self, hgroup]

/-- **Printed groups are read back.** -/
theorem readGroups_groupsText {gs : List ℕ} (hgs : ∀ g ∈ gs, g < 65536) {remaining index : ℕ}
    (hlen : gs.length ≤ remaining) {s : List Char} (hs : Ends s)
    (hdot : '.' ∉ groupsText index gs ++ s) :
    readGroups remaining index (groupsText index gs ++ s) = (gs, false, s) := by
  induction gs generalizing remaining index with
  | nil => exact hs.readGroups remaining index
  | cons g gs ih =>
    cases remaining with
    | zero => simp at hlen
    | succ remaining =>
      have htext : groupsText index (g :: gs) ++ s = (if 0 < index then [':'] else []) ++
          (Nat.toDigits 16 g ++ (groupsText (index + 1) gs ++ s)) := by
        rw [groupsText]
        simp only [List.append_assoc]
      rw [htext] at hdot ⊢
      simp only [List.mem_append, not_or] at hdot
      have hsep : ∀ {α : Type} (inner : List Char → Option (α × List Char)),
          readSeparator ':' index inner ((if 0 < index then [':'] else []) ++
            (Nat.toDigits 16 g ++ (groupsText (index + 1) gs ++ s))) =
          inner (Nat.toDigits 16 g ++ (groupsText (index + 1) gs ++ s)) := by
        intro α inner
        rw [readSeparator]
        split_ifs <;> rfl
      have hv4 : readIpv4Addr (Nat.toDigits 16 g ++ (groupsText (index + 1) gs ++ s)) = none := by
        refine readIpv4Addr_eq_none ?_
        simp only [List.mem_append, not_or]
        exact hdot.2
      have hnumber : readNumber 16 4 true 65536
          (Nat.toDigits 16 g ++ (groupsText (index + 1) gs ++ s)) =
            some (g, groupsText (index + 1) gs ++ s) := by
        have hg := hgs g List.mem_cons_self
        refine readNumber_toDigits (Or.inr rfl) ?_ hg (stops_groupsText hs.stops)
        exact Nat.toDigits_length 16 g 4 (by omega) (by omega)
      rw [readGroups, hsep, hv4, ite_self, hsep, hnumber]
      simp only
      rw [ih (fun x hx => hgs x (List.mem_cons_of_mem g hx)) (by simpa using hlen)
        (by simp only [List.mem_append, not_or]; exact hdot.2.2)]

/-! ## Printed addresses are read back -/

theorem readOctet_toDigits {index : ℕ} {b : UInt8} {s : List Char} (hs : Stops 10 s) :
    readOctet index ((if 0 < index then ['.'] else []) ++ (Nat.toDigits 10 b.toNat ++ s)) =
      some (b.toNat, s) := by
  have hb := b.toNat_lt
  have hnumber : readNumber 10 3 false 256 (Nat.toDigits 10 b.toNat ++ s) = some (b.toNat, s) :=
    readNumber_toDigits (Or.inl rfl) (Nat.toDigits_length 10 _ 3 (by omega) (by omega)) hb hs
  rw [readOctet, readSeparator]
  split_ifs
  · exact hnumber
  · exact hnumber

theorem readIpv4Addr_dotted {a b c d : UInt8} :
    readIpv4Addr (dotted [a, b, c, d]) = some ([a.toNat, b.toNat, c.toNat, d.toNat], []) := by
  have htext : dotted [a, b, c, d] = [] ++ (Nat.toDigits 10 a.toNat ++ (['.'] ++
      (Nat.toDigits 10 b.toNat ++ (['.'] ++ (Nat.toDigits 10 c.toNat ++ (['.'] ++
        (Nat.toDigits 10 d.toNat ++ []))))))) := by
    simp [dotted, List.intercalate_cons_cons]
  have hdot : ∀ s : List Char, Stops 10 (['.'] ++ s) := by
    intro s c hc
    obtain rfl : '.' = c := by simpa using hc
    decide
  have h₀ := fun s hs => @readOctet_toDigits 0 a s hs
  have h₁ := fun s hs => @readOctet_toDigits 1 b s hs
  have h₂ := fun s hs => @readOctet_toDigits 2 c s hs
  have h₃ := fun s hs => @readOctet_toDigits 3 d s hs
  simp only [lt_irrefl, if_false, Nat.succ_pos, if_true] at h₀ h₁ h₂ h₃
  rw [htext, readIpv4Addr, h₀ _ (hdot _)]
  simp only [Option.bind_eq_bind, Option.bind_some]
  rw [h₁ _ (hdot _)]
  simp only [Option.bind_some]
  rw [h₂ _ (hdot _)]
  simp only [Option.bind_some]
  rw [h₃ _ fun c hc => by cases hc]
  rfl

theorem segments_lt {u : List UInt8} : ∀ g ∈ segments u, g < 65536 := by
  induction u using segments.induct with
  | case1 hi lo rest ih =>
    intro g hg
    rcases List.mem_cons.mp hg with rfl | hg
    · have h₁ := hi.toNat_lt
      have h₂ := lo.toNat_lt
      omega
    · exact ih g hg
  | case2 u hu =>
    rcases u with _ | ⟨hi, _ | ⟨lo, rest⟩⟩
    · exact fun g hg => by cases hg
    · exact fun g hg => by cases hg
    · exact absurd rfl (hu hi lo rest)

/-- The octets of the segments of octets. -/
theorem groupOctets_segments {u : List UInt8} (heven : 2 ∣ u.length) :
    groupOctets (segments u) = u := by
  induction u using segments.induct with
  | case1 hi lo rest ih =>
    have h := lo.toNat_lt
    have hhi : UInt8.ofNat ((hi.toNat * 256 + lo.toNat) / 256) = hi := by
      rw [show (hi.toNat * 256 + lo.toNat) / 256 = hi.toNat by omega, UInt8.ofNat_toNat]
    have hlo : UInt8.ofNat ((hi.toNat * 256 + lo.toNat) % 256) = lo := by
      rw [show (hi.toNat * 256 + lo.toNat) % 256 = lo.toNat by omega, UInt8.ofNat_toNat]
    have hrest : groupOctets (segments rest) = rest := by
      refine ih ?_
      simp only [List.length_cons] at heven
      omega
    rw [segments, groupOctets, List.flatMap_cons, hhi, hlo]
    exact congrArg ([hi, lo] ++ ·) hrest
  | case2 u hu =>
    rcases u with _ | ⟨hi, _ | ⟨lo, rest⟩⟩
    · rfl
    · simp at heven
    · exact absurd rfl (hu hi lo rest)

theorem dot_not_mem_fmtSubslice (gs : List ℕ) : '.' ∉ fmtSubslice gs := by
  rw [← groupsText_zero]
  have h : ∀ (gs : List ℕ) (i : ℕ), '.' ∉ groupsText i gs := by
    intro gs
    induction gs with
    | nil => exact fun i => List.not_mem_nil
    | cons g gs ih =>
      intro i
      rw [groupsText]
      simp only [List.mem_append, not_or]
      refine ⟨⟨?_, (not_mem_toDigits (by omega) (by omega)).2⟩, ih _⟩
      split_ifs <;> simp
  exact h gs 0

/-- The eight groups of an address without a `::`. -/
theorem readIpv6Addr_plain {gs : List ℕ} (hgs : ∀ g ∈ gs, g < 65536) (h8 : gs.length = 8) :
    readIpv6Addr (fmtSubslice gs) = some (gs, []) := by
  have hread := @readGroups_groupsText gs hgs 8 0 (by omega) [] (Or.inl rfl) (by
    rw [groupsText_zero, List.append_nil]
    exact dot_not_mem_fmtSubslice gs)
  rw [groupsText_zero, List.append_nil] at hread
  rw [readIpv6Addr, hread]
  exact if_pos h8

/-- An address with a `::`, which stands for the zeros that are missing. -/
theorem readIpv6Addr_compressed {front back : List ℕ} (hfront : ∀ g ∈ front, g < 65536)
    (hback : ∀ g ∈ back, g < 65536) (hlen : front.length + back.length < 8) :
    readIpv6Addr (fmtSubslice front ++ [':', ':'] ++ fmtSubslice back) =
      some (front ++ List.replicate (8 - front.length - back.length) 0 ++ back, []) := by
  have hdot := dot_not_mem_fmtSubslice front
  have hdot' := dot_not_mem_fmtSubslice back
  have hhead := @readGroups_groupsText front hfront 8 0 (by omega) ([':', ':'] ++ fmtSubslice back)
    (Or.inr ⟨_, rfl⟩) (by
      rw [groupsText_zero]
      simp [hdot, hdot'])
  have htail := @readGroups_groupsText back hback (8 - (front.length + 1)) 0 (by omega) []
    (Or.inl rfl) (by
      rw [groupsText_zero, List.append_nil]
      exact hdot')
  rw [groupsText_zero] at hhead
  rw [groupsText_zero, List.append_nil] at htail
  rw [readIpv6Addr, List.append_assoc, hhead]
  simp only [show front.length ≠ 8 by omega, if_false, Bool.false_eq_true]
  simp only [List.cons_append, List.nil_append, readGivenChar, if_true, Option.bind_eq_bind,
    Option.bind_some, htail]
  rfl

/-- An IPv4-mapped address, with its dotted tail. -/
theorem readIpv6Addr_mapped {x y z t : UInt8} :
    readIpv6Addr ([':', ':', 'f', 'f', 'f', 'f', ':'] ++ dotted [x, y, z, t]) =
      some (List.replicate 5 0 ++ (65535 :: ipv4Groups [x.toNat, y.toNat, z.toNat, t.toNat]),
        []) := by
  have hhead : readGroups 8 0 ([':', ':', 'f', 'f', 'f', 'f', ':'] ++ dotted [x, y, z, t]) =
      ([], false, ':' :: ':' :: (['f', 'f', 'f', 'f', ':'] ++ dotted [x, y, z, t])) :=
    Ends.readGroups (Or.inr ⟨_, rfl⟩) 8 0
  -- the letters of the group are no dotted address, and what follows its colon is one
  have hletters : readIpv4Addr (['f', 'f', 'f', 'f', ':'] ++ dotted [x, y, z, t]) = none := by
    refine readIpv4Addr_stops fun c hc => ?_
    obtain rfl : 'f' = c := by simpa using hc
    rfl
  have hgroup : readNumber 16 4 true 65536 (['f', 'f', 'f', 'f', ':'] ++ dotted [x, y, z, t]) =
      some (65535, ':' :: dotted [x, y, z, t]) := by
    have hdigits : Nat.toDigits 16 65535 = ['f', 'f', 'f', 'f'] := by decide
    have hread := @readNumber_toDigits 16 4 65536 65535 true (':' :: dotted [x, y, z, t])
      (Or.inr rfl) (by rw [hdigits]; rfl) (by omega) fun c hc => by
        obtain rfl : ':' = c := by simpa using hc
        exact toDigit_colon
    rw [hdigits] at hread
    exact hread
  have htail : readGroups 7 0 (['f', 'f', 'f', 'f', ':'] ++ dotted [x, y, z, t]) =
      (65535 :: ipv4Groups [x.toNat, y.toNat, z.toNat, t.toNat], true, []) := by
    have hdotted : readGroups 6 1 (':' :: dotted [x, y, z, t]) =
        (ipv4Groups [x.toNat, y.toNat, z.toNat, t.toNat], true, []) := by
      have hsep : readSeparator ':' 1 readIpv4Addr (':' :: dotted [x, y, z, t]) =
          readIpv4Addr (dotted [x, y, z, t]) := rfl
      rw [readGroups, hsep, readIpv4Addr_dotted]
      rfl
    rw [readGroups, readSeparator, if_neg (lt_irrefl 0), hletters, ite_self, readSeparator,
      if_neg (lt_irrefl 0), hgroup]
    simp only [hdotted]
  rw [readIpv6Addr, hhead]
  simp only [List.length_nil, readGivenChar, if_true, Option.bind_eq_bind, Option.bind_some,
    Nat.zero_add, htail]
  rfl

/-- **What is printed is read back.** -/
theorem Ipv6Addr.fromStr_display (a : Ipv6Addr) : Ipv6Addr.fromStr a.display = some a := by
  have heven : 2 ∣ a.octets.length := by
    rw [a.length_octets]
    omega
  have h8 : (segments a.octets).length = 8 := by rw [length_segments, a.length_octets]
  -- it is enough that the parser gives the segments
  have hgroups : readIpv6Addr a.displayChars = some (segments a.octets, []) →
      Ipv6Addr.fromStr a.display = some a := by
    intro h
    have hoctets := groupOctets_segments heven
    rw [fromStr, display, String.toList_ofList, h]
    simp only [hoctets, a.length_octets, dif_pos]
  refine hgroups ?_
  cases hmapped : toIpv4Mapped a.octets with
  | some ipv4 =>
    obtain ⟨x, y, z, t, hoctets⟩ : ∃ x y z t : UInt8,
        a.octets = List.replicate 10 0 ++ [255, 255] ++ [x, y, z, t] ∧ ipv4 = [x, y, z, t] := by
      unfold toIpv4Mapped at hmapped
      split_ifs at hmapped with htake
      cases hmapped
      have hdrop : (a.octets.drop 12).length = 4 := by rw [List.length_drop, a.length_octets]
      match hd : a.octets.drop 12, hdrop with
      | [x, y, z, t], _ =>
        refine ⟨x, y, z, t, ?_, rfl⟩
        rw [← List.take_append_drop 12 a.octets, htake, hd]
    obtain ⟨hoctets, rfl⟩ := hoctets
    simp only [displayChars, hmapped]
    have hsegments : segments a.octets =
        List.replicate 5 0 ++ (65535 :: ipv4Groups [x.toNat, y.toNat, z.toNat, t.toNat]) := by
      rw [hoctets]
      rfl
    rw [hsegments]
    exact readIpv6Addr_mapped
  | none =>
    simp only [displayChars, hmapped]
    have hz := @zeroSpan_zero (segments a.octets) [] (segments a.octets) ⟨0, 0⟩ ⟨0, 0⟩ rfl
      (fun h => absurd rfl h) (fun h => absurd rfl h)
      ⟨Nat.zero_le _, fun j h₁ h₂ => absurd h₂ (by simp at h₁ ⊢)⟩
    rw [List.length_nil] at hz
    set segs := segments a.octets with hsegs
    set z := zeroSpan 0 ⟨0, 0⟩ ⟨0, 0⟩ segs
    have hlt : ∀ g ∈ segs, g < 65536 := segments_lt
    have hle := hz.1
    split_ifs with hlen
    · rw [readIpv6Addr_compressed (fun g hg => hlt g (List.mem_of_mem_take hg))
        (fun g hg => hlt g (List.mem_of_mem_drop hg))
        (by rw [List.length_take_of_le (by omega), List.length_drop]; omega)]
      have hcount : 8 - (segs.take z.start).length - (segs.drop (z.start + z.len)).length =
          z.len := by
        rw [List.length_take_of_le (by omega), List.length_drop]
        omega
      rw [hcount, ← hz.eq]
    · exact readIpv6Addr_plain hlt h8

end Net
end Cococoir
