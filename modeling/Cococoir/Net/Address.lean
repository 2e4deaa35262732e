import Mathlib.Data.List.Basic
import Mathlib.Data.List.TakeWhile
import Mathlib.Data.Nat.Init
import Mathlib.Tactic.Ring

/-!
# IP addresses and how they are printed

The two address families of the standard library, as their octets, and their `Display`
forms: dotted decimal for IPv4; for IPv6 eight hexadecimal segments with the first
longest run of at least two zero segments written `::`, and the IPv4-mapped addresses
written with a dotted tail.

The control plane compares, stores and hands out addresses in printed form, so what it
needs of `Display` is that two addresses print alike only when they are equal:
`Ipv4Addr.display_injective` and `Ipv6Addr.display_injective`.

## Why printing is injective

For IPv4 it is the numerals between the dots.  For IPv6 the text has to tell where its `::` stands
and how many segments it stands for.  A text is read back as a list of tokens between colons: a
side of the double colon has the segments printed there, and what is missing up to eight is zero.
`Ipv6Addr.exists_tokens` says that an address is printed as such tokens and that they expand to
its segments; equal texts have equal tokens, since no numeral has a colon in it, and hence equal
segments.  The mapped form is told from the others by its dots.

`zeroSpan` is the scan of the standard library, which keeps the first of several longest runs.  Of
it only one thing is needed, that the run it returns consists of zeros, so which run is taken does
not matter to the proof.
-/

namespace Cococoir
namespace Net

/-! ## Numerals -/

/-- Numerals in a base up to sixteen are read back. -/
theorem toDigits_injective {b : ℕ} (hb : 1 < b) (hb' : b ≤ 16) :
    Function.Injective (Nat.toDigits b) := by
  have hdigit : ∀ x < 16, ∀ y < 16, Nat.digitChar x = Nat.digitChar y → x = y := by decide
  intro m
  induction m using Nat.strong_induction_on with
  | _ m ih =>
    intro n h
    rw [Nat.toDigits_eq_if hb, Nat.toDigits_eq_if (n := n) hb] at h
    have hm : m % b < b := Nat.mod_lt _ (by omega)
    have hn : n % b < b := Nat.mod_lt _ (by omega)
    split_ifs at h with h₁ h₂ h₂
    · exact hdigit m (by omega) n (by omega) (List.singleton_inj.mp h)
    · have := congrArg List.length h
      simp only [List.length_append, List.length_singleton] at this
      have := Nat.length_toDigits_pos (b := b) (n := n / b)
      omega
    · have := congrArg List.length h
      simp only [List.length_append, List.length_singleton] at this
      have := Nat.length_toDigits_pos (b := b) (n := m / b)
      omega
    · obtain ⟨hdiv, hlast⟩ := List.append_inj' h rfl
      have hmod : m % b = n % b :=
        hdigit _ (by omega) _ (by omega) (List.singleton_inj.mp hlast)
      have hlt : m / b < m := Nat.div_lt_self (by omega) hb
      rw [← Nat.div_add_mod m b, ← Nat.div_add_mod n b, ih _ hlt hdiv, hmod]

/-- A numeral has neither the colon nor the dot that addresses are punctuated with. -/
theorem not_mem_toDigits {b n : ℕ} (hb : 1 < b) (hb' : b ≤ 16) :
    ':' ∉ Nat.toDigits b n ∧ '.' ∉ Nat.toDigits b n := by
  have hdigit : ∀ x < 16, Nat.digitChar x ≠ ':' ∧ Nat.digitChar x ≠ '.' := by decide
  induction n using Nat.strong_induction_on with
  | _ n ih =>
    have hn : n % b < b := Nat.mod_lt _ (by omega)
    rw [Nat.toDigits_eq_if hb]
    split_ifs with h
    · simp only [List.mem_singleton]
      exact ⟨(hdigit n (by omega)).1.symm, (hdigit n (by omega)).2.symm⟩
    · obtain ⟨h₁, h₂⟩ := ih (n / b) (Nat.div_lt_self (by omega) hb)
      have hd := hdigit (n % b) (by omega)
      simp only [List.mem_append, List.mem_singleton, not_or]
      exact ⟨⟨h₁, hd.1.symm⟩, h₂, hd.2.symm⟩

theorem intercalate_append {α : Type} (sep : List α) {xs ys : List (List α)} (hx : xs ≠ [])
    (hy : ys ≠ []) :
    sep.intercalate (xs ++ ys) = sep.intercalate xs ++ sep ++ sep.intercalate ys := by
  induction xs with
  | nil => exact absurd rfl hx
  | cons x xs ih =>
    cases xs with
    | nil =>
      rw [List.singleton_append, List.intercalate_cons_of_ne_nil hy, List.intercalate_singleton]
    | cons x' xs =>
      rw [List.cons_append, List.intercalate_cons_of_ne_nil (by simp), ih (by simp),
        List.intercalate_cons_of_ne_nil (l := x) (by simp)]
      simp only [List.append_assoc]

/-! ## IPv4 -/

/-- An IPv4 address. -/
@[ext] structure Ipv4Addr where
  octets : List UInt8
  length_octets : octets.length = 4
  deriving DecidableEq

/-- `a.b.c.d` -/
def dotted (octets : List UInt8) : List Char :=
  ['.'].intercalate (octets.map fun b => Nat.toDigits 10 b.toNat)

def Ipv4Addr.display (a : Ipv4Addr) : String := String.ofList (dotted a.octets)

theorem dotted_inj {u v : List UInt8} (hu : u ≠ []) (hv : v ≠ []) (h : dotted u = dotted v) :
    u = v := by
  have hmem : ∀ w : List UInt8, ∀ l ∈ w.map fun b => Nat.toDigits 10 b.toNat, '.' ∉ l := by
    intro w l hl
    obtain ⟨b, -, rfl⟩ := List.mem_map.mp hl
    exact (not_mem_toDigits (by omega) (by omega)).2
  have hsplit := congrArg (List.splitOn '.') h
  rw [dotted, dotted, List.splitOn_intercalate _ (hmem u) (by simpa using hu),
    List.splitOn_intercalate _ (hmem v) (by simpa using hv)] at hsplit
  exact List.map_injective_iff.mpr
    (fun a b hab => UInt8.toNat.inj (toDigits_injective (by omega) (by omega) hab)) hsplit

theorem Ipv4Addr.display_injective : Function.Injective Ipv4Addr.display := by
  intro a b h
  refine Ipv4Addr.ext (dotted_inj ?_ ?_ (String.ofList_injective h))
  · exact List.ne_nil_of_length_eq_add_one a.length_octets
  · exact List.ne_nil_of_length_eq_add_one b.length_octets

/-! ## IPv6 -/

/-- An IPv6 address. -/
@[ext] structure Ipv6Addr where
  octets : List UInt8
  length_octets : octets.length = 16
  deriving DecidableEq

/-- The 16-bit segments of a list of octets. -/
def segments : List UInt8 → List ℕ
  | hi :: lo :: rest => (hi.toNat * 256 + lo.toNat) :: segments rest
  | _ => []

/-- `to_ipv4_mapped`: the dotted part of `::ffff:a.b.c.d`. -/
def toIpv4Mapped (octets : List UInt8) : Option (List UInt8) :=
  if octets.take 12 = List.replicate 10 0 ++ [255, 255] then some (octets.drop 12) else none

/-- A run of segments. -/
structure Span where
  start : ℕ
  len : ℕ

/-- The first longest run of zero segments, scanning from position `i` with the run that
ends there and the longest run so far. -/
def zeroSpan : (i : ℕ) → (current longest : Span) → List ℕ → Span
  | _, _, longest, [] => longest
  | i, current, longest, s :: rest =>
    if s = 0 then
      let current : Span := ⟨if current.len = 0 then i else current.start, current.len + 1⟩
      zeroSpan (i + 1) current (if current.len > longest.len then current else longest) rest
    else zeroSpan (i + 1) ⟨0, 0⟩ longest rest

/-- A colon-separated part of the address. -/
def fmtSubslice (chunk : List ℕ) : List Char :=
  [':'].intercalate (chunk.map (Nat.toDigits 16))

/-- `Display` of an IPv6 address. -/
def Ipv6Addr.displayChars (a : Ipv6Addr) : List Char :=
  match toIpv4Mapped a.octets with
  | some ipv4 => [':', ':', 'f', 'f', 'f', 'f', ':'] ++ dotted ipv4
  | none =>
    let segs := segments a.octets
    let zeroes := zeroSpan 0 ⟨0, 0⟩ ⟨0, 0⟩ segs
    if zeroes.len > 1 then
      fmtSubslice (segs.take zeroes.start) ++ [':', ':'] ++
        fmtSubslice (segs.drop (zeroes.start + zeroes.len))
    else fmtSubslice segs

def Ipv6Addr.display (a : Ipv6Addr) : String := String.ofList a.displayChars

example : (Ipv6Addr.mk [0x2a, 1, 4, 0xf8, 0xc, 0x17, 0, 1, 0, 0, 0, 0, 0, 0, 0, 2]
    rfl).display = "2a01:4f8:c17:1::2" := by decide

/-! ### The run found is a run of zeros -/

/-- The segments of the span exist and are zero. -/
def Span.Zero (l : List ℕ) (s : Span) : Prop :=
  s.start + s.len ≤ l.length ∧ ∀ j, s.start ≤ j → j < s.start + s.len → l[j]? = some 0

theorem zeroSpan_zero {l pre rest : List ℕ} {current longest : Span} (hl : l = pre ++ rest)
    (hcur : current.len ≠ 0 → current.start + current.len = pre.length)
    (hcurZero : current.len ≠ 0 → current.Zero l) (hlong : longest.Zero l) :
    (zeroSpan pre.length current longest rest).Zero l := by
  induction rest generalizing pre current longest with
  | nil => exact hlong
  | cons s rest ih =>
    have hl' : l = (pre ++ [s]) ++ rest := by rw [hl, List.append_assoc]; rfl
    have hlen : (pre ++ [s]).length = pre.length + 1 := by simp
    rw [zeroSpan]
    by_cases hs : s = 0
    · rw [if_pos hs]
      -- the run that ends here, one segment longer
      set cur : Span := ⟨if current.len = 0 then pre.length else current.start,
        current.len + 1⟩ with hcurdef
      have hend : cur.start + cur.len = pre.length + 1 := by
        rw [hcurdef]
        by_cases h0 : current.len = 0
        · simp [h0]
        · have := hcur h0
          simp only [if_neg h0]
          omega
      have hzero : cur.Zero l := by
        refine ⟨by rw [hend, hl']; simp, fun j hj hj' => ?_⟩
        by_cases hlast : j = pre.length
        · rw [hlast, hl, hs]
          simp
        · have hjlt : j < pre.length := by omega
          by_cases h0 : current.len = 0
          · rw [hcurdef] at hj
            simp only [h0, if_true] at hj
            omega
          · rw [hcurdef] at hj
            simp only [if_neg h0] at hj
            exact (hcurZero h0).2 j hj (by rw [hcur h0]; exact hjlt)
      rw [← hlen]
      refine ih hl' (fun _ => by rw [hlen]; exact hend) (fun _ => hzero) ?_
      split_ifs with hlonger
      · exact hzero
      · exact hlong
    · rw [if_neg hs, ← hlen]
      exact ih hl' (fun h => absurd rfl h) (fun h => absurd rfl h) hlong

theorem Span.Zero.eq {l : List ℕ} {s : Span} (h : s.Zero l) :
    l = l.take s.start ++ List.replicate s.len 0 ++ l.drop (s.start + s.len) := by
  refine List.ext_getElem? fun j => ?_
  have hle := h.1
  rcases lt_or_ge j s.start with hj | hj
  · rw [List.append_assoc, List.getElem?_append_left (by rw [List.length_take]; omega),
      List.getElem?_take_of_lt hj]
  rw [List.append_assoc, List.getElem?_append_right (by rw [List.length_take]; omega),
    List.length_take_of_le (by omega)]
  rcases lt_or_ge j (s.start + s.len) with hj' | hj'
  · rw [h.2 j hj hj', List.getElem?_append_left (by rw [List.length_replicate]; omega),
      List.getElem?_replicate_of_lt (by omega)]
  · rw [List.getElem?_append_right (by rw [List.length_replicate]; omega), List.length_replicate,
      List.getElem?_drop]
    congr 1
    omega

/-! ### Reading an address back from its colon-separated tokens -/

/-- The tokens of one side of a `::`; an empty side still has one, empty, token. -/
def sideTokens (chunk : List ℕ) : List (List Char) :=
  if chunk = [] then [[]] else chunk.map (Nat.toDigits 16)

theorem intercalate_sideTokens (chunk : List ℕ) :
    [':'].intercalate (sideTokens chunk) = fmtSubslice chunk := by
  unfold sideTokens fmtSubslice
  split_ifs with h
  · rw [h]
    rfl
  · rfl

/-- The eight hexadecimal segments that a token list stands for. -/
def expand (tokens : List (List Char)) : List (List Char) :=
  let front := tokens.takeWhile (· ≠ [])
  let back := (tokens.reverse.takeWhile (· ≠ [])).reverse
  if front.length = tokens.length then tokens
  else front ++ List.replicate (8 - front.length - back.length) ['0'] ++ back

theorem takeWhile_hex_append (chunk : List ℕ) {rest : List (List Char)}
    (hrest : rest.head? = some []) :
    (chunk.map (Nat.toDigits 16) ++ rest).takeWhile (· ≠ []) = chunk.map (Nat.toDigits 16) := by
  induction chunk with
  | nil =>
    cases rest with
    | nil => simp at hrest
    | cons x rest =>
      simp only [List.head?_cons, Option.some.injEq] at hrest
      simp [hrest]
  | cons s chunk ih =>
    rw [List.map_cons, List.cons_append,
      List.takeWhile_cons_of_pos (by simp [Nat.toDigits_ne_nil]), ih]

theorem expand_hex (chunk : List ℕ) :
    expand (chunk.map (Nat.toDigits 16)) = chunk.map (Nat.toDigits 16) := by
  have h : (chunk.map (Nat.toDigits 16)).takeWhile (· ≠ []) = chunk.map (Nat.toDigits 16) :=
    List.takeWhile_eq_self_iff.mpr fun x hx => by
      obtain ⟨n, -, rfl⟩ := List.mem_map.mp hx
      simp [Nat.toDigits_ne_nil]
  rw [expand, h]
  simp

theorem expand_sides (front back : List ℕ) :
    expand (sideTokens front ++ ([] :: sideTokens back)) =
      front.map (Nat.toDigits 16) ++ List.replicate (8 - front.length - back.length) ['0'] ++
        back.map (Nat.toDigits 16) := by
  have hside : ∀ chunk : List ℕ, ∀ rest : List (List Char), rest.head? = some [] →
      (sideTokens chunk ++ rest).takeWhile (· ≠ []) = chunk.map (Nat.toDigits 16) := by
    intro chunk rest hrest
    unfold sideTokens
    split_ifs with h
    · simp [h]
    · exact takeWhile_hex_append chunk hrest
  have hrev : (sideTokens back).reverse = sideTokens back.reverse := by
    by_cases hb : back = []
    · rw [hb]
      rfl
    · rw [sideTokens, sideTokens, if_neg hb, if_neg (by simpa using hb), List.map_reverse]
  have hfront := hside front ([] :: sideTokens back) rfl
  have hback := hside back.reverse ([] :: (sideTokens front).reverse) rfl
  have hlen : front.length ≠ (sideTokens front ++ ([] :: sideTokens back)).length := by
    unfold sideTokens
    simp only [List.length_append, List.length_cons]
    split_ifs with h₁ h₂ h₂ <;> simp [h₁]
  simp only [expand]
  have happ : (sideTokens front ++ ([] :: sideTokens back)).reverse =
      sideTokens back.reverse ++ ([] :: (sideTokens front).reverse) := by
    rw [List.reverse_append, List.reverse_cons, hrev, List.append_assoc]
    rfl
  rw [hfront, happ, hback, List.length_map, if_neg hlen]
  simp [List.map_reverse]

/-- The tokens an address is printed as, and what they stand for. -/
theorem Ipv6Addr.exists_tokens {a : Ipv6Addr} (h : toIpv4Mapped a.octets = none)
    (h8 : (segments a.octets).length = 8) :
    ∃ tokens : List (List Char), a.displayChars = [':'].intercalate tokens ∧ tokens ≠ [] ∧
      (∀ t ∈ tokens, ':' ∉ t ∧ '.' ∉ t) ∧
      expand tokens = (segments a.octets).map (Nat.toDigits 16) := by
  have hclean : ∀ chunk : List ℕ, ∀ t ∈ chunk.map (Nat.toDigits 16), ':' ∉ t ∧ '.' ∉ t := by
    intro chunk t ht
    obtain ⟨n, -, rfl⟩ := List.mem_map.mp ht
    exact not_mem_toDigits (by omega) (by omega)
  have hcleanSide : ∀ chunk : List ℕ, ∀ t ∈ sideTokens chunk, ':' ∉ t ∧ '.' ∉ t := by
    intro chunk t ht
    unfold sideTokens at ht
    split_ifs at ht
    · rw [List.mem_singleton.mp ht]
      simp
    · exact hclean chunk t ht
  have hsideNe : ∀ chunk : List ℕ, sideTokens chunk ≠ [] := by
    intro chunk
    unfold sideTokens
    split_ifs with hc
    · simp
    · simpa using hc
  have hz := @zeroSpan_zero (segments a.octets) [] (segments a.octets) ⟨0, 0⟩ ⟨0, 0⟩ rfl (fun h => absurd rfl h)
    (fun h => absurd rfl h) ⟨Nat.zero_le _, fun j h₁ h₂ => absurd h₂ (by simp at h₁ ⊢)⟩
  rw [List.length_nil] at hz
  simp only [displayChars, h]
  set segs := segments a.octets with hsegs
  set z := zeroSpan 0 ⟨0, 0⟩ ⟨0, 0⟩ segs with hzdef
  split_ifs with hlen
  · refine ⟨sideTokens (segs.take z.start) ++ ([] :: sideTokens (segs.drop (z.start + z.len))),
      ?_, by simp [hsideNe], fun t ht => ?_, ?_⟩
    · rw [intercalate_append _ (hsideNe _) (by simp), intercalate_sideTokens,
        List.intercalate_cons_of_ne_nil (hsideNe _), intercalate_sideTokens]
      simp
    · rw [List.mem_append, List.mem_cons] at ht
      rcases ht with ht | rfl | ht
      · exact hcleanSide _ t ht
      · simp
      · exact hcleanSide _ t ht
    · rw [expand_sides]
      have hle := hz.1
      have hcount : 8 - (segs.take z.start).length - (segs.drop (z.start + z.len)).length =
          z.len := by
        rw [List.length_take_of_le (by omega), List.length_drop]
        omega
      conv_rhs => rw [hz.eq]
      rw [hcount, List.map_append, List.map_append, List.map_replicate]
      rfl
  · refine ⟨segs.map (Nat.toDigits 16), rfl, ?_, hclean segs, expand_hex segs⟩
    intro hnil
    rw [List.map_eq_nil_iff] at hnil
    rw [hnil] at h8
    simp at h8

/-- The tokens of an IPv4-mapped address. -/
theorem intercalate_mapped (ipv4 : List UInt8) :
    [':', ':', 'f', 'f', 'f', 'f', ':'] ++ dotted ipv4 =
      [':'].intercalate [[], [], ['f', 'f', 'f', 'f'], dotted ipv4] := by
  simp [List.intercalate_cons_cons]

theorem not_mem_dotted (ipv4 : List UInt8) : ':' ∉ dotted ipv4 := by
  unfold dotted
  induction ipv4 with
  | nil => simp
  | cons b l ih =>
    cases l with
    | nil =>
      simp only [List.map_cons, List.map_nil, List.intercalate_singleton]
      exact (not_mem_toDigits (by omega) (by omega)).1
    | cons b' l =>
      rw [List.map_cons, List.intercalate_cons_of_ne_nil (by simp)]
      simp only [List.mem_append, not_or]
      exact ⟨⟨(not_mem_toDigits (by omega) (by omega)).1, by decide⟩, ih⟩

theorem dot_mem_dotted {ipv4 : List UInt8} (h : 2 ≤ ipv4.length) : '.' ∈ dotted ipv4 := by
  match ipv4 with
  | b :: b' :: l =>
    rw [dotted, List.map_cons, List.intercalate_cons_of_ne_nil (by simp)]
    simp

theorem segments_inj {u v : List UInt8} (hlen : u.length = v.length) (heven : 2 ∣ u.length)
    (h : segments u = segments v) : u = v := by
  induction u using segments.induct generalizing v with
  | case1 hi lo rest ih =>
    match v, hlen with
    | hi' :: lo' :: rest', hlen =>
      simp only [segments, List.cons.injEq] at h
      have h₁ := lo.toNat_lt
      have h₂ := lo'.toNat_lt
      have hhi : hi = hi' := UInt8.toNat.inj (by omega)
      have hlo : lo = lo' := UInt8.toNat.inj (by omega)
      simp only [List.length_cons] at hlen heven
      rw [hhi, hlo, ih (by omega) (by omega) h.2]
  | case2 u hu =>
    match u, hu with
    | [], _ => exact (List.length_eq_zero_iff.mp hlen.symm).symm
    | [_], _ => simp at heven
    | hi :: lo :: rest, hu => exact absurd rfl (hu hi lo rest)

theorem length_segments {u : List UInt8} : (segments u).length = u.length / 2 := by
  induction u using segments.induct with
  | case1 hi lo rest ih =>
    simp only [segments, List.length_cons, ih]
    omega
  | case2 u hu =>
    match u, hu with
    | [], _ => rfl
    | [_], _ => simp [segments]
    | hi :: lo :: rest, hu => exact absurd rfl (hu hi lo rest)

theorem eq_of_toIpv4Mapped {u v w : List UInt8} (hu : toIpv4Mapped u = some w)
    (hv : toIpv4Mapped v = some w) : u = v := by
  unfold toIpv4Mapped at hu hv
  split_ifs at hu hv with h₁ h₂
  rw [← List.take_append_drop 12 u, ← List.take_append_drop 12 v, h₁, h₂,
    Option.some.inj hu, Option.some.inj hv]

theorem Ipv6Addr.display_injective : Function.Injective Ipv6Addr.display := by
  intro a b h
  have hchars : a.displayChars = b.displayChars := String.ofList_injective h
  have h8 : ∀ c : Ipv6Addr, (segments c.octets).length = 8 := fun c => by
    rw [length_segments, c.length_octets]
  have hdrop : ∀ (c : Ipv6Addr) (w : List UInt8), toIpv4Mapped c.octets = some w →
      w.length = 4 := by
    intro c w hw
    unfold toIpv4Mapped at hw
    split_ifs at hw
    rw [← Option.some.inj hw, List.length_drop, c.length_octets]
  have hmapped : ∀ w : List UInt8, ∀ t ∈ [[], [], ['f', 'f', 'f', 'f'], dotted w], ':' ∉ t := by
    intro w t ht
    simp only [List.mem_cons, List.not_mem_nil, or_false] at ht
    rcases ht with rfl | rfl | rfl | rfl
    · simp
    · simp
    · decide
    · exact not_mem_dotted w
  -- a mapped address has a token with a dot, the other addresses have none
  have hmix : ∀ (c d : Ipv6Addr) (w : List UInt8), toIpv4Mapped c.octets = some w →
      toIpv4Mapped d.octets = none → c.displayChars ≠ d.displayChars := by
    intro c d w hc hd he
    obtain ⟨tokens, htok, hne, hcl, -⟩ := exists_tokens hd (h8 d)
    rw [htok] at he
    simp only [displayChars, hc] at he
    have hs := congrArg (List.splitOn ':') he
    rw [intercalate_mapped, List.splitOn_intercalate _ (hmapped w) (by simp),
      List.splitOn_intercalate _ (fun t ht => (hcl t ht).1) hne] at hs
    have hdot : '.' ∈ dotted w := dot_mem_dotted (by rw [hdrop c w hc]; omega)
    refine (hcl (dotted w) ?_).2 hdot
    rw [← hs]
    simp
  cases ha : toIpv4Mapped a.octets with
  | some u =>
    cases hb : toIpv4Mapped b.octets with
    | some v =>
      simp only [displayChars, ha, hb, List.append_cancel_left_eq] at hchars
      have huv : u = v := dotted_inj (List.ne_nil_of_length_eq_add_one (hdrop a u ha))
        (List.ne_nil_of_length_eq_add_one (hdrop b v hb)) hchars
      exact Ipv6Addr.ext (eq_of_toIpv4Mapped ha (huv ▸ hb))
    | none => exact absurd hchars (hmix a b u ha hb)
  | none =>
    cases hb : toIpv4Mapped b.octets with
    | some v => exact absurd hchars.symm (hmix b a v hb ha)
    | none =>
      obtain ⟨ta, hta, hnea, hcla, hea⟩ := exists_tokens ha (h8 a)
      obtain ⟨tb, htb, hneb, hclb, heb⟩ := exists_tokens hb (h8 b)
      rw [hta, htb] at hchars
      have hs := congrArg (List.splitOn ':') hchars
      rw [List.splitOn_intercalate _ (fun t ht => (hcla t ht).1) hnea,
        List.splitOn_intercalate _ (fun t ht => (hclb t ht).1) hneb] at hs
      rw [hs, heb] at hea
      have hsegs := List.map_injective_iff.mpr
        (toDigits_injective (b := 16) (by omega) (by omega)) hea
      refine Ipv6Addr.ext (segments_inj ?_ ?_ hsegs.symm)
      · rw [a.length_octets, b.length_octets]
      · rw [a.length_octets]
        omega

end Net
end Cococoir
