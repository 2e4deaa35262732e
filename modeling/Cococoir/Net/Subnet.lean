import Cococoir.Net.Address

/-!
# Subnets and host indices

A byte-aligned subnet of either address family, and the address of a host index in it: the index
fills the bytes after the network part, big-endian.  `Subnet.host` is undefined exactly where the
code panics, on an index that does not fit.

The result the allocation rests on is that different indices get different addresses, and
different printed ones: `Subnet.hostString_injective`.

## The model

`AddrBytes` is the source's trait: a number of octets, the lengths a prefix may have, and a way to
and from octets.  Its two instances are the two families.  A `Subnet` holds the octets of the
prefix, not a whole address, so that no host bits can be set; that the length is one of the
allowed ones and that it fits the octets are fields.

The capacity is what the host bits can hold, and 64 bits if there are more, since the index is a
`u64`.  `hostOctets` takes the low bytes of the index as they are: it is the check before it that
makes this lossless.

## Hosts that a machine may have

Host 0 is the network and host 1 the edge, and `Assignable` leaves out these two: every host from
2 on is assignable.  The greatest host has every host bit set, which in IPv4 makes it the
broadcast address, and the check of the capacity lets it through.
-/

namespace Cococoir
namespace Net

/-- Byte-level addressing: the number of octets, the prefix lengths a subnet may have,
and the conversions, with the laws that make them conversions. -/
class AddrBytes (A : Type) where
  LEN : ℕ
  MIN_PREFIX : ℕ
  MAX_PREFIX : ℕ
  octets : A → List UInt8
  fromOctets : {l : List UInt8 // l.length = LEN} → A
  display : A → String
  len_le : LEN ≤ 16
  max_le : MAX_PREFIX ≤ LEN * 8
  fromOctets_injective : Function.Injective fromOctets
  display_injective : Function.Injective display

instance : AddrBytes Ipv6Addr where
  LEN := 16
  MIN_PREFIX := 64
  MAX_PREFIX := 112
  octets := Ipv6Addr.octets
  fromOctets l := ⟨l.1, l.2⟩
  display := Ipv6Addr.display
  len_le := le_refl _
  max_le := by decide
  fromOctets_injective _ _ h := Subtype.ext (congrArg Ipv6Addr.octets h)
  display_injective := Ipv6Addr.display_injective

instance : AddrBytes Ipv4Addr where
  LEN := 4
  MIN_PREFIX := 8
  MAX_PREFIX := 30
  octets := Ipv4Addr.octets
  fromOctets l := ⟨l.1, l.2⟩
  display := Ipv4Addr.display
  len_le := by decide
  max_le := by decide
  fromOctets_injective _ _ h := Subtype.ext (congrArg Ipv4Addr.octets h)
  display_injective := Ipv4Addr.display_injective

/-! ## Big-endian bytes -/

/-- The low `k` bytes of `n`, most significant first. -/
def beBytes : (k n : ℕ) → List UInt8
  | 0, _ => []
  | k + 1, n => beBytes k (n / 256) ++ [UInt8.ofNat (n % 256)]

@[simp] theorem length_beBytes (k n : ℕ) : (beBytes k n).length = k := by
  induction k generalizing n with
  | zero => rfl
  | succ k ih => rw [beBytes, List.length_append, ih, List.length_singleton]

theorem drop_beBytes (j k n : ℕ) : (beBytes (j + k) n).drop j = beBytes k n := by
  induction k generalizing n with
  | zero => exact List.drop_eq_nil_of_le (by rw [length_beBytes]; omega)
  | succ k ih =>
    have happ : beBytes (j + (k + 1)) n =
        beBytes (j + k) (n / 256) ++ [UInt8.ofNat (n % 256)] := rfl
    rw [happ, List.drop_append_of_le_length (by rw [length_beBytes]; omega), ih]
    rfl

theorem beBytes_zero (k : ℕ) : beBytes k 0 = List.replicate k 0 := by
  induction k with
  | zero => rfl
  | succ k ih =>
    rw [beBytes, Nat.zero_div, ih, List.replicate_succ']
    rfl

/-- Leading zero bytes of a number that needs none of them. -/
theorem replicate_append_beBytes {j k n : ℕ} (hn : n < 256 ^ k) :
    List.replicate j 0 ++ beBytes k n = beBytes (j + k) n := by
  induction k generalizing n with
  | zero =>
    have : n = 0 := by simpa using hn
    simp [this, beBytes_zero]
  | succ k ih =>
    have hdiv : n / 256 < 256 ^ k := by
      rw [Nat.pow_succ] at hn
      exact Nat.div_lt_of_lt_mul (by omega)
    rw [beBytes, ← List.append_assoc, ih hdiv]
    rfl

theorem beBytes_inj {k m n : ℕ} (hm : m < 256 ^ k) (hn : n < 256 ^ k)
    (h : beBytes k m = beBytes k n) : m = n := by
  induction k generalizing m n with
  | zero =>
    simp only [Nat.pow_zero] at hm hn
    omega
  | succ k ih =>
    rw [Nat.pow_succ] at hm hn
    obtain ⟨hdiv, hlast⟩ := List.append_inj' h rfl
    have hd : m / 256 = n / 256 :=
      ih (Nat.div_lt_of_lt_mul (by omega)) (Nat.div_lt_of_lt_mul (by omega)) hdiv
    have hmod := congrArg UInt8.toNat (List.singleton_inj.mp hlast)
    simp only [UInt8.toNat_ofNat', Nat.mod_mod] at hmod
    omega

/-- The greatest number of `k` bytes. -/
theorem beBytes_last (k : ℕ) : beBytes k (256 ^ k - 1) = List.replicate k 255 := by
  induction k with
  | zero => rfl
  | succ k ih =>
    have hpos : 0 < 256 ^ k := Nat.pow_pos (by decide)
    have hdiv : (256 ^ (k + 1) - 1) / 256 = 256 ^ k - 1 := by
      rw [Nat.pow_succ]
      omega
    have hmod : (256 ^ (k + 1) - 1) % 256 = 255 := by
      rw [Nat.pow_succ]
      omega
    rw [beBytes, hdiv, hmod, ih, List.replicate_succ']
    rfl

/-! ## Subnets -/

variable {A : Type} [AddrBytes A]

open AddrBytes (LEN MIN_PREFIX MAX_PREFIX)

/-- A byte-aligned subnet: the octets up to the boundary, and the length in bits. -/
structure Subnet (A : Type) [AddrBytes A] where
  /-- The prefix bytes; the host bits are always zero. -/
  prefixOctets : List UInt8
  /-- Prefix length in bits. -/
  prefixLen : ℕ
  aligned : prefixOctets.length * 8 = prefixLen
  min_le : MIN_PREFIX A ≤ prefixLen
  le_max : prefixLen ≤ MAX_PREFIX A

namespace Subnet

/-- The number of bits a host index may fill. -/
def hostBits (s : Subnet A) : ℕ := LEN A * 8 - s.prefixLen

/-- The largest host index: the host bits, or 64 bits when there are more. -/
def maxHost (s : Subnet A) : ℕ := min (2 ^ s.hostBits - 1) (2 ^ 64 - 1)

theorem hostBits_eq (s : Subnet A) : s.hostBits = (LEN A - s.prefixOctets.length) * 8 := by
  rw [hostBits, ← s.aligned, Nat.sub_mul]

theorem length_prefixOctets_le (s : Subnet A) : s.prefixOctets.length ≤ LEN A := by
  have h₁ := s.aligned
  have h₂ := s.le_max
  have h₃ := AddrBytes.max_le (A := A)
  omega

/-- The octets of host `index`: the prefix, then the low bytes of the index, taken from a
16-byte buffer that holds it right-aligned. -/
def hostOctets (s : Subnet A) (index : ℕ) : List UInt8 :=
  let octets := List.replicate 8 0 ++ beBytes 8 index
  s.prefixOctets ++ octets.drop (16 - s.hostBits / 8)

theorem length_hostOctets (s : Subnet A) (index : ℕ) : (s.hostOctets index).length = LEN A := by
  have h₁ := s.length_prefixOctets_le
  have h₂ := AddrBytes.len_le (A := A)
  simp only [hostOctets, List.length_append, List.length_drop, List.length_replicate,
    length_beBytes, hostBits_eq]
  omega

/-- The address for a host index; `none` is the panic on an index beyond the capacity. -/
def host (s : Subnet A) (index : ℕ) : Option A :=
  if index > s.maxHost then none
  else some (AddrBytes.fromOctets ⟨s.hostOctets index, s.length_hostOctets index⟩)

/-- The printed address for a host index. -/
def hostString (s : Subnet A) (index : ℕ) : Option String :=
  (s.host index).map AddrBytes.display

theorem hostOctets_eq (s : Subnet A) {index : ℕ} (h : index ≤ s.maxHost) :
    s.hostOctets index = s.prefixOctets ++ beBytes (s.hostBits / 8) index := by
  have h64 : index < 256 ^ 8 := by
    have := le_trans h (Nat.min_le_right _ _)
    omega
  have hbytes : 16 = (16 - s.hostBits / 8) + s.hostBits / 8 := by
    have h₁ := s.length_prefixOctets_le
    have h₂ := AddrBytes.len_le (A := A)
    rw [hostBits_eq]
    omega
  simp only [hostOctets]
  rw [replicate_append_beBytes h64, show 8 + 8 = (16 - s.hostBits / 8) + s.hostBits / 8 from hbytes,
    drop_beBytes]

theorem lt_of_le_maxHost (s : Subnet A) {index : ℕ} (h : index ≤ s.maxHost) :
    index < 256 ^ (s.hostBits / 8) := by
  have hle := le_trans h (Nat.min_le_left _ _)
  have hbits : s.hostBits = 8 * (s.hostBits / 8) := by
    rw [hostBits_eq]
    omega
  have hpow : 2 ^ s.hostBits = 256 ^ (s.hostBits / 8) := by
    conv_lhs => rw [hbits, Nat.pow_mul]
  have hpos := Nat.two_pow_pos s.hostBits
  omega

theorem host_injective (s : Subnet A) {i j : ℕ} {a : A} (hi : s.host i = some a)
    (hj : s.host j = some a) : i = j := by
  unfold host at hi hj
  split_ifs at hi with hi'
  split_ifs at hj with hj'
  have hi' := Nat.le_of_not_lt hi'
  have hj' := Nat.le_of_not_lt hj'
  have hoct := congrArg Subtype.val (AddrBytes.fromOctets_injective
    ((Option.some.inj hi).trans (Option.some.inj hj).symm))
  simp only [s.hostOctets_eq hi', s.hostOctets_eq hj', List.append_cancel_left_eq] at hoct
  exact beBytes_inj (s.lt_of_le_maxHost hi') (s.lt_of_le_maxHost hj') hoct

/-- **Different indices get different printed addresses.** -/
theorem hostString_injective (s : Subnet A) {i j : ℕ} {a : String} (hi : s.hostString i = some a)
    (hj : s.hostString j = some a) : i = j := by
  obtain ⟨x, hx, rfl⟩ := Option.map_eq_some_iff.mp hi
  obtain ⟨y, hy, hxy⟩ := Option.map_eq_some_iff.mp hj
  rw [AddrBytes.display_injective hxy] at hy
  exact s.host_injective hx hy

/-! ### The addresses of hosts -/

/-- The octets of the network address: no host bit set. -/
def network (s : Subnet A) : List UInt8 :=
  s.prefixOctets ++ List.replicate (LEN A - s.prefixOctets.length) 0

/-- The octets of the broadcast address: every host bit set. -/
def broadcast (s : Subnet A) : List UInt8 :=
  s.prefixOctets ++ List.replicate (LEN A - s.prefixOctets.length) 255

/-- An address of the subnet that a customer may have: not the network itself, and not host 1,
the edge. -/
def Assignable (s : Subnet A) (a : A) : Prop :=
  s.prefixOctets <+: AddrBytes.octets a ∧ AddrBytes.octets a ≠ s.network ∧ s.host 1 ≠ some a

theorem hostBytes_eq (s : Subnet A) : s.hostBits / 8 = LEN A - s.prefixOctets.length := by
  rw [hostBits_eq, Nat.mul_div_cancel _ (by decide)]

theorem maxHost_eq {s : Subnet A} (h : s.hostBits ≤ 64) :
    s.maxHost = 256 ^ (s.hostBits / 8) - 1 := by
  have hpow : 256 ^ (s.hostBits / 8) = 2 ^ s.hostBits := by
    rw [show 256 = 2 ^ 8 from rfl, ← Nat.pow_mul]
    congr 1
    rw [hostBits_eq]
    omega
  have hle : 2 ^ s.hostBits ≤ 2 ^ 64 := Nat.pow_le_pow_right (by decide) h
  rw [maxHost, hpow]
  omega

theorem le_maxHost_of_host {s : Subnet A} {i : ℕ} {a : A} (h : s.host i = some a) :
    i ≤ s.maxHost := by
  unfold host at h
  split_ifs at h with hi
  exact Nat.le_of_not_lt hi

section Octets

variable (hoct : ∀ l, AddrBytes.octets (AddrBytes.fromOctets l : A) = l.1) {s : Subnet A} {i : ℕ}
  {a : A}

include hoct

theorem octets_of_host (h : s.host i = some a) :
    AddrBytes.octets a = s.prefixOctets ++ beBytes (s.hostBits / 8) i := by
  have hi := le_maxHost_of_host h
  unfold host at h
  rw [if_neg (Nat.not_lt.mpr hi)] at h
  rw [← Option.some.inj h, hoct]
  exact hostOctets_eq s hi

/-- Every host from 2 on is assignable. -/
theorem assignable_of_host (h : s.host i = some a) (htwo : 2 ≤ i) : s.Assignable a := by
  have hlt := s.lt_of_le_maxHost (le_maxHost_of_host h)
  refine ⟨⟨_, (octets_of_host hoct h).symm⟩, fun hnet => ?_, fun hedge => ?_⟩
  · rw [octets_of_host hoct h, network, ← hostBytes_eq, ← beBytes_zero] at hnet
    have hzero := beBytes_inj hlt (Nat.pow_pos (by decide)) (List.append_cancel_left hnet)
    omega
  · have hone := s.host_injective h hedge
    omega

/-- The greatest host is the broadcast address. -/
theorem broadcast_of_host (hbits : s.hostBits ≤ 64) (h : s.host i = some a) :
    AddrBytes.octets a = s.broadcast ↔ i = s.maxHost := by
  have hlt := s.lt_of_le_maxHost (le_maxHost_of_host h)
  rw [octets_of_host hoct h, broadcast, ← hostBytes_eq, ← beBytes_last, maxHost_eq hbits,
    List.append_cancel_left_eq]
  constructor
  · exact beBytes_inj hlt (Nat.sub_lt (Nat.pow_pos (by decide)) Nat.one_pos)
  · rintro rfl
    rfl

end Octets

end Subnet

/-- The edge's routed IPv6 subnet. -/
abbrev Subnet64 : Type := Subnet Ipv6Addr

/-- The WireGuard tunnel network. -/
abbrev WgSubnet : Type := Subnet Ipv4Addr

example : (Subnet.mk (A := Ipv4Addr) [10, 10, 0] 24 rfl (by decide) (by decide)).hostString 2 =
    some "10.10.0.2" := by decide

end Net
end Cococoir
