import Cococoir.Net.HostNumbers
import Cococoir.Net.Parse
import Cococoir.Text.Split

/-!
# Subnets as text

`Subnet::from_str` and `Subnet::to_string`, for both address families.

* `Subnet.fromStr_eq_ok`: which texts are read, and as which subnet: any spelling of the address
  and of the length will do, as long as no bit after the prefix is set.
* `Subnet.fromStr_text`: what is printed is read back.
* `subnet_text_laws`: the two together, with the assertions of `to_string`.

## Reading

A text is cut at its last slash; what comes before is an address of the family, what comes after a
length in eight bits.  Then the length is checked against the lengths that the family allows,
which end at a byte, and the octets after the prefix against zero.  The numeral is read as the
standard library reads a `u8`, with an overflow check at every digit and an optional plus sign, so
`+08` is a length.  Hence the law says *in any spelling*: it asks what the two parts are read as
and not how they look.

## Printing

`to_string` pads the prefix with zeros and prints the address and the length.  It asserts that the
octets it made have the family's number, which is an invariant of the structure.  What is printed
is canonical, so a text that was read need not come back, but its subnet does.

The two families differ in the parser and in the printer of their addresses.  `ParsedAddr` has the
one fact about them that is needed, that the parser undoes the printer, and everything else is
proved once.
-/

namespace Cococoir
namespace Net

open Split

/-! ## Reading lengths -/

/-- The digits of a `u8`, checked for overflow at each. -/
def readU8Digits (acc : ℕ) : List Char → Option ℕ
  | [] => some acc
  | c :: s =>
    match toDigit 10 c with
    | some d => if acc * 10 + d < 256 then readU8Digits (acc * 10 + d) s else none
    | none => none

/-- `str::parse::<u8>`: digits, after a plus sign or none. -/
def parseU8 (s : List Char) : Option ℕ :=
  let digits := match s with
    | '+' :: rest => rest
    | _ => s
  if digits = [] then none else readU8Digits 0 digits

theorem le_foldl_digits {radix acc : ℕ} (hr : 0 < radix) (ds : List ℕ) :
    acc ≤ ds.foldl (fun n d => n * radix + d) acc := by
  induction ds generalizing acc with
  | nil => exact le_refl _
  | cons d ds ih =>
    refine le_trans ?_ ih
    exact le_trans (Nat.le_mul_of_pos_right acc hr) (Nat.le_add_right _ _)

theorem readU8Digits_eq {acc : ℕ} {xs : List Char} {ds : List ℕ}
    (hds : xs.map (toDigit 10) = ds.map some) (h : ds.foldl (fun n d => n * 10 + d) acc < 256) :
    readU8Digits acc xs = some (ds.foldl (fun n d => n * 10 + d) acc) := by
  induction xs generalizing acc ds with
  | nil =>
    obtain rfl : ds = [] := List.map_eq_nil_iff.mp hds.symm
    rfl
  | cons c xs ih =>
    cases ds with
    | nil => cases hds
    | cons d ds =>
      obtain ⟨hc, hrest⟩ := List.cons.inj hds
      rw [List.foldl_cons] at h ⊢
      have hd : acc * 10 + d < 256 := lt_of_le_of_lt (le_foldl_digits (by decide) ds) h
      rw [readU8Digits, hc]
      dsimp only
      rw [if_pos hd, ih hrest h]

/-- The characters of a numeral are digits. -/
theorem isSome_toDigit_of_mem {n : ℕ} {c : Char} (h : c ∈ Nat.toDigits 10 n) :
    (toDigit 10 c).isSome := by
  obtain ⟨ds, hds, -, -⟩ := exists_digits (Or.inl rfl) n
  have hc : toDigit 10 c ∈ ds.map some := hds ▸ List.mem_map_of_mem h
  obtain ⟨d, -, hd⟩ := List.mem_map.mp hc
  rw [← hd]
  rfl

theorem slash_not_mem_toDigits (n : ℕ) : '/' ∉ Nat.toDigits 10 n :=
  fun h => absurd (isSome_toDigit_of_mem h) (by decide)

theorem parseU8_toDigits {n : ℕ} (h : n < 256) : parseU8 (Nat.toDigits 10 n) = some n := by
  obtain ⟨ds, hds, hvalue, -⟩ := exists_digits (Or.inl rfl) n
  have hne := Nat.toDigits_ne_nil (b := 10) (n := n)
  have hsign : ∀ rest, Nat.toDigits 10 n ≠ '+' :: rest := by
    intro rest he
    exact absurd (isSome_toDigit_of_mem (c := '+') (by rw [he]; exact List.mem_cons_self))
      (by decide)
  have hdigits := @readU8Digits_eq 0 _ _ hds (by rw [← numberOf, hvalue]; exact h)
  rw [← numberOf, hvalue] at hdigits
  unfold parseU8
  cases htext : Nat.toDigits 10 n with
  | nil => exact absurd htext hne
  | cons c rest =>
    rw [htext] at hdigits hsign
    simp only [reduceCtorEq, if_false, hdigits]

/-! ## Reading IPv4 addresses -/

/-- The length of a text in bytes. -/
def byteLen (s : List Char) : ℕ := (s.map Char.utf8Size).sum

/-- `FromStr`: the whole text is an address, and no address is longer than 15 bytes. -/
def Ipv4Addr.fromStr (text : String) : Option Ipv4Addr :=
  if 15 < byteLen text.toList then none
  else
    match readIpv4Addr text.toList with
    | some (octets, []) =>
      -- the parser gives four octets
      if h : (octets.map UInt8.ofNat).length = 4 then some ⟨octets.map UInt8.ofNat, h⟩ else none
    | _ => none

example : (Ipv4Addr.fromStr "10.10.0.1").map Ipv4Addr.display = some "10.10.0.1" := by decide

theorem utf8Size_toDigits {n : ℕ} {c : Char} (h : c ∈ Nat.toDigits 10 n) : c.utf8Size = 1 := by
  have hsome := isSome_toDigit_of_mem h
  unfold toDigit at hsome
  refine Char.utf8Size_eq_one_iff.mpr ?_
  have hle : ∀ {b : Char}, b.toNat ≤ 127 → c ≤ b → c.val ≤ 127 := fun hb hc =>
    UInt32.le_iff_toNat_le.mpr (Nat.le_trans (UInt32.le_iff_toNat_le.mp hc) hb)
  dsimp only at hsome
  split_ifs at hsome with h₁ h₂ h₃
  · exact hle (by decide) h₁.2
  · exact hle (by decide) h₂.2
  · exact hle (by decide) h₃.2
  · exact absurd hsome (by simp)

theorem byteLen_toDigits (b : UInt8) : byteLen (Nat.toDigits 10 b.toNat) ≤ 3 := by
  have hone : ∀ x ∈ (Nat.toDigits 10 b.toNat).map Char.utf8Size, x = 1 := by
    intro x hx
    obtain ⟨c, hc, rfl⟩ := List.mem_map.mp hx
    exact utf8Size_toDigits hc
  have hb := b.toNat_lt
  have hlen := Nat.toDigits_length 10 b.toNat 3 (by omega) (by omega)
  rw [byteLen, List.eq_replicate_of_mem hone, List.sum_replicate_nat, List.length_map,
    Nat.mul_one]
  exact hlen

theorem Ipv4Addr.fromStr_display (a : Ipv4Addr) : Ipv4Addr.fromStr a.display = some a := by
  obtain ⟨octets, hlen⟩ := a
  match octets, hlen with
  | [x, y, z, t], hlen =>
    have hshort : byteLen (dotted [x, y, z, t]) ≤ 15 := by
      have hx := byteLen_toDigits x
      have hy := byteLen_toDigits y
      have hz := byteLen_toDigits z
      have ht := byteLen_toDigits t
      have hdot : ('.' : Char).utf8Size = 1 := by decide
      simp only [byteLen] at hx hy hz ht ⊢
      simp only [dotted, List.map_cons, List.map_nil, List.intercalate_cons_cons,
        List.intercalate_singleton, List.map_append, List.sum_append, List.sum_cons, List.sum_nil,
        hdot]
      omega
    rw [fromStr, display, String.toList_ofList, if_neg (Nat.not_lt.mpr hshort),
      readIpv4Addr_dotted]
    simp [hlen]

/-! ## Address families that are read and printed -/

/-- An address family with its parser, which undoes its printing. -/
class ParsedAddr (A : Type) extends AddrBytes A where
  fromStr : String → Option A
  /-- `Display` of the parser's error. -/
  parseError : String
  length_octets : ∀ a : A, (octets a).length = LEN
  octets_fromOctets : ∀ l, octets (fromOctets l) = l.1
  fromStr_display : ∀ a : A, fromStr (display a) = some a

instance : ParsedAddr Ipv6Addr where
  fromStr := Ipv6Addr.fromStr
  parseError := "invalid IPv6 address syntax"
  length_octets := Ipv6Addr.length_octets
  octets_fromOctets _ := rfl
  fromStr_display := Ipv6Addr.fromStr_display

instance : ParsedAddr Ipv4Addr where
  fromStr := Ipv4Addr.fromStr
  parseError := "invalid IPv4 address syntax"
  length_octets := Ipv4Addr.length_octets
  octets_fromOctets _ := rfl
  fromStr_display := Ipv4Addr.fromStr_display

/-! ## Reading and printing subnets -/

open AddrBytes (LEN MIN_PREFIX MAX_PREFIX)

variable {A : Type} [ParsedAddr A]

namespace Subnet

theorem length_take_octets {a : A} {prefixLen : ℕ} (hmax : prefixLen ≤ MAX_PREFIX A)
    (haligned : prefixLen % 8 = 0) :
    ((AddrBytes.octets a).take (prefixLen / 8)).length * 8 = prefixLen := by
  have hlen := ParsedAddr.length_octets a
  have hle := AddrBytes.max_le (A := A)
  rw [List.length_take, hlen]
  omega

/-- Parse `addr/len`, rejecting unaligned or out-of-range prefix lengths and prefixes with host
bits set. -/
def fromStr (s : String) : Except String (Subnet A) :=
  match rsplitOnce '/' s.toList with
  | none => .error ("invalid subnet " ++ s ++ ": missing /len")
  | some (addrStr, lenStr) =>
    match parseU8 lenStr with
    | none => .error ("invalid prefix length in " ++ s)
    | some prefixLen =>
      if h : MIN_PREFIX A ≤ prefixLen ∧ prefixLen ≤ MAX_PREFIX A ∧ prefixLen % 8 = 0 then
        match ParsedAddr.fromStr (A := A) (String.ofList addrStr) with
        | none =>
          .error ("invalid subnet " ++ String.ofList addrStr ++ ": " ++ ParsedAddr.parseError A)
        | some addr =>
          let octets := AddrBytes.octets addr
          let prefixBytes := prefixLen / 8
          if (octets.drop prefixBytes).any (· ≠ 0) then
            .error (s ++ " is not a /" ++ Nat.repr prefixLen ++ " (host bits set)")
          else .ok ⟨octets.take prefixBytes, prefixLen, length_take_octets h.2.1 h.2.2, h.1, h.2.1⟩
      else
        .error (s ++ ": prefix length must be byte-aligned and between /" ++
          Nat.repr (MIN_PREFIX A) ++ " and /" ++ Nat.repr (MAX_PREFIX A) ++ " (was /" ++
          Nat.repr prefixLen ++ ")")

theorem length_network {s : Subnet A} (h : s.prefixOctets.length ≤ LEN A) :
    s.network.length = LEN A := by
  rw [network, List.length_append, List.length_replicate]
  omega

/-- The canonical `addr/len` form; `none` is a failed assertion. -/
protected def toString (s : Subnet A) : Option String :=
  if s.prefixOctets.length * 8 = s.prefixLen then
    if h : s.prefixOctets.length ≤ LEN A then
      some (AddrBytes.display (AddrBytes.fromOctets (A := A) ⟨s.network, length_network h⟩) ++ "/" ++
        Nat.repr s.prefixLen)
    else none
  else none

example : (fromStr "10.10.0.0/+024").toOption.bind (Subnet.toString (A := Ipv4Addr)) =
    some "10.10.0.0/24" := by decide

theorem replicate_of_not_any {l : List UInt8} (h : ¬l.any (· ≠ 0)) :
    l = List.replicate l.length 0 := by
  refine List.eq_replicate_of_mem fun b hb => ?_
  by_contra hne
  exact h (List.any_eq_true.mpr ⟨b, hb, by simpa using hne⟩)

/-- The octets of a subnet determine its length. -/
theorem eq_of_prefixOctets {s t : Subnet A} (h : s.prefixOctets = t.prefixOctets) : s = t := by
  have hlen : s.prefixLen = t.prefixLen := by rw [← s.aligned, ← t.aligned, h]
  cases s
  cases t
  cases h
  cases hlen
  rfl

/-- **The texts that are read**: an address and a length of the family, in any spelling, around the
last slash, and the octets after the prefix zero. -/
theorem fromStr_eq_ok {text : String} {s : Subnet A} :
    fromStr text = .ok s ↔ ∃ (addrStr lenStr : List Char) (addr : A),
      text.toList = addrStr ++ '/' :: lenStr ∧ '/' ∉ lenStr ∧ parseU8 lenStr = some s.prefixLen ∧
      ParsedAddr.fromStr (String.ofList addrStr) = some addr ∧
      AddrBytes.octets addr = s.network := by
  unfold fromStr
  constructor
  · intro h
    split at h
    · cases h
    rename_i addrStr lenStr hsplit
    obtain ⟨htext, hslash⟩ := rsplitOnce_eq_some.mp hsplit
    split at h
    · cases h
    rename_i prefixLen hlen
    split_ifs at h with hrange
    split at h
    · cases h
    rename_i addr haddr
    dsimp only at h
    split_ifs at h with hany
    cases h
    refine ⟨addrStr, lenStr, addr, htext, hslash, hlen, haddr, ?_⟩
    have hdrop := replicate_of_not_any hany
    have hlength := ParsedAddr.length_octets addr
    have haligned := length_take_octets (a := addr) hrange.2.1 hrange.2.2
    rw [List.length_drop, hlength] at hdrop
    have htake : (List.take (prefixLen / 8) (AddrBytes.octets addr)).length = prefixLen / 8 := by
      omega
    rw [network, htake, ← hdrop, List.take_append_drop]
  · rintro ⟨addrStr, lenStr, addr, htext, hslash, hlen, haddr, hoctets⟩
    have hbytes : s.prefixLen / 8 = s.prefixOctets.length := by
      rw [← s.aligned, Nat.mul_div_cancel _ (by decide)]
    have haligned : s.prefixLen % 8 = 0 := by
      rw [← s.aligned, Nat.mul_mod_left]
    have hzero : ¬((AddrBytes.octets addr).drop (s.prefixLen / 8)).any (· ≠ 0) := by
      rw [hoctets, hbytes, network, List.drop_left]
      simp
    rw [rsplitOnce_eq_some.mpr ⟨htext, hslash⟩]
    simp only [hlen, s.min_le, s.le_max, haligned, haddr, hzero, and_self, dite_true,
      Bool.false_eq_true, if_false]
    refine congrArg Except.ok (eq_of_prefixOctets ?_)
    dsimp only
    rw [hoctets, hbytes, network, List.take_left]

/-- The assertions of `to_string` hold of every subnet. -/
theorem toString_eq (s : Subnet A) :
    s.toString = some (AddrBytes.display (AddrBytes.fromOctets (A := A)
      ⟨s.network, length_network s.length_prefixOctets_le⟩) ++ "/" ++ Nat.repr s.prefixLen) := by
  rw [Subnet.toString, if_pos s.aligned, dif_pos s.length_prefixOctets_le]

theorem prefixLen_lt (s : Subnet A) : s.prefixLen < 256 := by
  have h₁ := s.le_max
  have h₂ := AddrBytes.max_le (A := A)
  have h₃ := AddrBytes.len_le (A := A)
  omega

/-- **What is printed is read back.** -/
theorem fromStr_text {s : Subnet A} {text : String} (h : s.toString = some text) :
    fromStr text = .ok s := by
  rw [toString_eq, Option.some.injEq] at h
  set addr := AddrBytes.fromOctets (A := A) ⟨s.network, length_network s.length_prefixOctets_le⟩
    with haddr
  refine fromStr_eq_ok.mpr ⟨(AddrBytes.display addr).toList, Nat.toDigits 10 s.prefixLen, addr, ?_,
    slash_not_mem_toDigits _, parseU8_toDigits s.prefixLen_lt, ?_, ?_⟩
  · rw [← h, String.toList_append, String.toList_append, Nat.toList_repr, List.append_assoc]
    rfl
  · rw [String.ofList_toList, ParsedAddr.fromStr_display]
  · rw [haddr, ParsedAddr.octets_fromOctets]

theorem toString_injective : Function.Injective (Subnet.toString (A := A)) := by
  intro s t h
  have hs := fromStr_text (toString_eq s)
  have ht := fromStr_text (h ▸ toString_eq s : t.toString = _)
  exact Except.ok.inj (hs.symm.trans ht)

/-- The octets after the prefix are zero when the low bits of the address are. -/
theorem octets_eq_network_iff {s : Subnet A} {a : A}
    (hpre : s.prefixOctets = (AddrBytes.octets a).take (s.prefixLen / 8)) :
    AddrBytes.octets a = s.network ↔
      2 ^ (LEN A * 8 - s.prefixLen) ∣ beNat (AddrBytes.octets a) := by
  have hlen := ParsedAddr.length_octets a
  have hbytes : s.prefixLen / 8 = s.prefixOctets.length := by
    rw [← s.aligned, Nat.mul_div_cancel _ (by decide)]
  set rest := (AddrBytes.octets a).drop s.prefixOctets.length with hrest
  have hsplit : AddrBytes.octets a = s.prefixOctets ++ rest := by
    rw [hrest, ← hbytes]
    conv_lhs => rw [← List.take_append_drop (s.prefixLen / 8) (AddrBytes.octets a), ← hpre]
  have hrestLen : rest.length = LEN A - s.prefixOctets.length := by
    rw [hrest, List.length_drop, hlen]
  have hpow : 2 ^ (LEN A * 8 - s.prefixLen) = 256 ^ rest.length := by
    rw [show 256 = 2 ^ 8 from rfl, ← Nat.pow_mul, hrestLen, ← s.aligned]
    congr 1
    omega
  -- the number of the address is that of the bytes after the prefix, up to a multiple
  have hdvd : 2 ^ (LEN A * 8 - s.prefixLen) ∣ beNat (AddrBytes.octets a) ↔ beNat rest = 0 := by
    rw [hpow, hsplit, beNat_append, Nat.dvd_add_right (Nat.dvd_mul_left _ _)]
    exact ⟨fun h => Nat.eq_zero_of_dvd_of_lt h (beNat_lt rest), fun h => h ▸ Nat.dvd_zero _⟩
  rw [hdvd, hsplit, network, List.append_cancel_left_eq, ← hrestLen, List.eq_replicate_iff,
    and_iff_right rfl, beNat_eq_zero]

/-- What a text must be to be read. -/
theorem accepted_iff {addrStr lenStr : List Char} (hslash : '/' ∉ lenStr) :
    (∃ s : Subnet A, fromStr (String.ofList (addrStr ++ '/' :: lenStr)) = .ok s) ↔
      ∃ (prefixLen : ℕ) (addr : A), parseU8 lenStr = some prefixLen ∧
        MIN_PREFIX A ≤ prefixLen ∧ prefixLen ≤ MAX_PREFIX A ∧ 8 ∣ prefixLen ∧
        ParsedAddr.fromStr (String.ofList addrStr) = some addr ∧
        2 ^ (LEN A * 8 - prefixLen) ∣ beNat (AddrBytes.octets addr) := by
  have hsplit : ∀ {x y : List Char}, (String.ofList (addrStr ++ '/' :: lenStr)).toList =
      x ++ '/' :: y → '/' ∉ y → addrStr = x ∧ lenStr = y := by
    intro x y h hy
    rw [String.toList_ofList] at h
    have hboth := (rsplitOnce_append hslash).symm.trans (rsplitOnce_eq_some.mpr ⟨h, hy⟩)
    cases hboth
    exact ⟨rfl, rfl⟩
  constructor
  · rintro ⟨s, h⟩
    obtain ⟨x, y, addr, htext, hy, hlen, haddr, hoctets⟩ := fromStr_eq_ok.mp h
    obtain ⟨rfl, rfl⟩ := hsplit htext hy
    have hpre : s.prefixOctets = (AddrBytes.octets addr).take (s.prefixLen / 8) := by
      rw [hoctets, network, ← s.aligned, Nat.mul_div_cancel _ (by decide), List.take_left]
    exact ⟨s.prefixLen, addr, hlen, s.min_le, s.le_max, ⟨_, s.aligned.symm.trans (Nat.mul_comm _ _)⟩,
      haddr, (octets_eq_network_iff hpre).mp hoctets⟩
  · rintro ⟨prefixLen, addr, hlen, hmin, hmax, hdvd, haddr, hzero⟩
    set s : Subnet A := ⟨(AddrBytes.octets addr).take (prefixLen / 8), prefixLen,
      length_take_octets hmax (Nat.mod_eq_zero_of_dvd hdvd), hmin, hmax⟩ with hs
    refine ⟨s, fromStr_eq_ok.mpr ⟨addrStr, lenStr, addr, String.toList_ofList, hslash, hlen, haddr,
      ?_⟩⟩
    exact (octets_eq_network_iff (s := s) rfl).mpr hzero

/-- What reading and printing subnets of a family guarantee. -/
structure TextLaws (A : Type) [ParsedAddr A] : Prop where
  /-- No assertion of `to_string` fails, and what it prints is read as the same subnet. -/
  round_trip : ∀ (text : String) (s : Subnet A), fromStr text = .ok s →
    ∃ printed, s.toString = some printed ∧ fromStr printed = .ok s
  /-- Subnets that print alike are equal. -/
  injective : ∀ (s t : Subnet A) printed, s.toString = some printed → t.toString = some printed →
    s = t
  /-- What is read is an address and a length around a last slash. -/
  separated : ∀ (text : String) (s : Subnet A), fromStr text = .ok s →
    ∃ addrStr lenStr : List Char, text = String.ofList (addrStr ++ '/' :: lenStr) ∧ '/' ∉ lenStr
  /-- The length is byte-aligned and in range, and the bits after the prefix are zero. -/
  accepted : ∀ addrStr lenStr : List Char, '/' ∉ lenStr →
    ((∃ s : Subnet A, fromStr (String.ofList (addrStr ++ '/' :: lenStr)) = .ok s) ↔
      ∃ (prefixLen : ℕ) (addr : A), parseU8 lenStr = some prefixLen ∧
        MIN_PREFIX A ≤ prefixLen ∧ prefixLen ≤ MAX_PREFIX A ∧ 8 ∣ prefixLen ∧
        ParsedAddr.fromStr (String.ofList addrStr) = some addr ∧
        2 ^ (LEN A * 8 - prefixLen) ∣ beNat (AddrBytes.octets addr))

theorem textLaws : TextLaws A where
  round_trip _ s _ := ⟨_, toString_eq s, fromStr_text (toString_eq s)⟩
  injective s t _ hs ht := toString_injective (hs.trans ht.symm)
  separated text s h := by
    obtain ⟨addrStr, lenStr, -, htext, hslash, -⟩ := fromStr_eq_ok.mp h
    exact ⟨addrStr, lenStr, by rw [← htext, String.ofList_toList], hslash⟩
  accepted _ _ hslash := accepted_iff hslash

end Subnet

/-- **Subnets of both families survive printing, and exactly the well-formed texts are read.** -/
theorem subnet_text_laws : Subnet.TextLaws Ipv6Addr ∧ Subnet.TextLaws Ipv4Addr :=
  ⟨Subnet.textLaws, Subnet.textLaws⟩

end Net
end Cococoir
