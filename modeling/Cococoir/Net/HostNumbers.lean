import Cococoir.Net.Subnet
import Mathlib.Data.List.Induction

/-!
# Hosts as numbers

An address is a number, its octets read big-endian.  In a subnet of either family host `i` is
defined up to the capacity, its octets are the prefix and the bytes of `i`, and its number is `i`
more than the number of the network address: `host_laws`.

`Net.Subnet` computes hosts the way the source does, byte by byte: it writes the index big-endian,
pads it or cuts it to the bytes after the prefix, and appends.  That this is addition is not
visible there, and it is only true because the prefix ends at a byte and because the capacity is
checked first: an index with more bytes would lose its high ones without a word.

The reading is `beNat`.  `beNat_append` splits a number at any byte, `beNat_beBytes` says that the
bytes of a number that fits stand for it, and the law about numbers is these two, applied to the
prefix and the index.  Both families are one proof, over `AddrBytes`.
-/

namespace Cococoir
namespace Net

/-! ## Big-endian numbers -/

/-- The number that bytes stand for, the most significant first. -/
def beNat (bytes : List UInt8) : ℕ := bytes.foldl (fun n b => n * 256 + b.toNat) 0

@[simp] theorem beNat_nil : beNat [] = 0 := rfl

theorem beNat_concat (bytes : List UInt8) (b : UInt8) :
    beNat (bytes ++ [b]) = beNat bytes * 256 + b.toNat := by
  rw [beNat, List.foldl_append]
  rfl

theorem beNat_append (u v : List UInt8) :
    beNat (u ++ v) = beNat u * 256 ^ v.length + beNat v := by
  induction v using List.reverseRecOn with
  | nil => simp
  | append_singleton v b ih =>
    rw [← List.append_assoc, beNat_concat, ih, beNat_concat, List.length_append,
      List.length_singleton, Nat.pow_succ]
    ring

theorem beNat_lt (bytes : List UInt8) : beNat bytes < 256 ^ bytes.length := by
  induction bytes using List.reverseRecOn with
  | nil => simp
  | append_singleton bytes b ih =>
    have hb := b.toNat_lt
    rw [beNat_concat, List.length_append, List.length_singleton, Nat.pow_succ]
    omega

/-- The bytes of a number that fits stand for it. -/
theorem beNat_beBytes {k n : ℕ} (h : n < 256 ^ k) : beNat (beBytes k n) = n := by
  induction k generalizing n with
  | zero =>
    rw [Nat.pow_zero] at h
    rw [beBytes, beNat_nil]
    omega
  | succ k ih =>
    have hdiv : n / 256 < 256 ^ k := by
      rw [Nat.pow_succ] at h
      exact Nat.div_lt_of_lt_mul (by omega)
    have hlast : (UInt8.ofNat (n % 256)).toNat = n % 256 := by
      rw [UInt8.toNat_ofNat']
      omega
    rw [beBytes, beNat_concat, ih hdiv, hlast]
    omega

theorem beNat_eq_zero {bytes : List UInt8} : beNat bytes = 0 ↔ ∀ b ∈ bytes, b = 0 := by
  induction bytes using List.reverseRecOn with
  | nil => simp
  | append_singleton bytes b ih =>
    have hb : b.toNat = 0 ↔ b = 0 := UInt8.toNat_inj (b := 0)
    rw [beNat_concat, Nat.add_eq_zero_iff, hb, List.forall_mem_append, ← ih]
    simp

/-! ## The hosts of a subnet -/

open AddrBytes (LEN)

variable {A : Type} [AddrBytes A]

namespace Subnet

/-- What `host` computes, for a subnet: where it is defined, its octets, and its numbers. -/
structure HostLaws (s : Subnet A) : Prop where
  /-- Defined exactly on the indices that the host bits and 64 bits hold. -/
  defined : ∀ i, (s.host i).isSome ↔ i < min (2 ^ s.hostBits) (2 ^ 64)
  /-- The prefix bytes are the subnet's. -/
  network_bytes : ∀ i a, s.host i = some a →
    (AddrBytes.octets a).take s.prefixOctets.length = s.prefixOctets
  /-- The remaining bytes are the index. -/
  host_bytes : ∀ i a, s.host i = some a →
    beNat ((AddrBytes.octets a).drop s.prefixOctets.length) = i
  injective : ∀ i j a, s.host i = some a → s.host j = some a → i = j
  /-- As a number, host `i` is `i` after host 0. -/
  number : ∀ i a a₀, s.host i = some a → s.host 0 = some a₀ →
    beNat (AddrBytes.octets a) = beNat (AddrBytes.octets a₀) + i

theorem isSome_host {s : Subnet A} {i : ℕ} :
    (s.host i).isSome ↔ i < min (2 ^ s.hostBits) (2 ^ 64) := by
  have hpos := Nat.two_pow_pos s.hostBits
  have hmax : i ≤ s.maxHost ↔ i < min (2 ^ s.hostBits) (2 ^ 64) := by
    rw [maxHost]
    omega
  rw [← hmax, host]
  split_ifs with h
  · simpa using h
  · simpa using h

section Octets

variable (hoct : ∀ l, AddrBytes.octets (AddrBytes.fromOctets l : A) = l.1) {s : Subnet A} {i : ℕ}
  {a : A}

include hoct

theorem beNat_host_bytes (h : s.host i = some a) :
    beNat ((AddrBytes.octets a).drop s.prefixOctets.length) = i := by
  rw [octets_of_host hoct h, List.drop_left]
  exact beNat_beBytes (s.lt_of_le_maxHost (le_maxHost_of_host h))

theorem beNat_host (h : s.host i = some a) :
    beNat (AddrBytes.octets a) = beNat s.prefixOctets * 256 ^ (s.hostBits / 8) + i := by
  rw [octets_of_host hoct h, beNat_append, length_beBytes,
    beNat_beBytes (s.lt_of_le_maxHost (le_maxHost_of_host h))]

theorem hostLaws (s : Subnet A) : s.HostLaws where
  defined _ := isSome_host
  network_bytes i a h := by rw [octets_of_host hoct h, List.take_left]
  host_bytes i a h := beNat_host_bytes hoct h
  injective i j a hi hj := s.host_injective hi hj
  number i a a₀ h h₀ := by rw [beNat_host hoct h, beNat_host hoct h₀, Nat.add_zero]

end Octets

end Subnet

/-- **The hosts of a subnet, in either family, are its prefix and the index.** -/
theorem host_laws : (∀ s : Subnet64, s.HostLaws) ∧ ∀ s : WgSubnet, s.HostLaws :=
  ⟨Subnet.hostLaws fun _ => rfl, Subnet.hostLaws fun _ => rfl⟩

end Net
end Cococoir
