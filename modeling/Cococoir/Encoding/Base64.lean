import Mathlib.Data.List.Basic

/-!
# Base64

The standard alphabet, with padding that is required and canonical: three bytes are four digits of
six bits each, and what is left at the end, one byte or two, is filled up with zero bits and
marked.

* `decode_encode`: what is encoded is decoded.
* `length_encode`, `length_of_decode`: a text is as long as the encoding of what it decodes to.
* `mem_encode`: the characters that an encoding is made of.

A key is 32 bytes in memory and a text of 44 characters in a file, and its reader checks the
length of what it decodes.  So the law about lengths is wanted from the decoder's side: a text
that decodes to 32 bytes has 44 characters, whoever wrote it.

Encoding and decoding are recursions by threes and by fours, and the proofs follow the encoder's
four equations: nothing left, one byte, two bytes, and three bytes with the rest.  Each of the
last three is a fact about bits.  It is proved with numbers: a byte is a number below 256, shifts
are quotients and remainders, and what is to be shown about two or three of them is linear.
`digit_spec` is the only place where the alphabet is looked at, and it goes through the 64 digits
once.
-/

namespace Cococoir
namespace Base64

def alphabet : List Char := "ABCDEFGHIJKLMNOPQRSTUVWXYZabcdefghijklmnopqrstuvwxyz0123456789+/".toList

/-- The digit of six bits. -/
def digit (i : ℕ) : Char := alphabet.getD i 'A'

/-- The six bits of a digit. -/
def value (c : Char) : Option ℕ := alphabet.idxOf? c

def encode : List UInt8 → List Char
  | [] => []
  | [a] => [digit (a.toNat / 4), digit (a.toNat % 4 * 16), '=', '=']
  | [a, b] =>
    [digit (a.toNat / 4), digit (a.toNat % 4 * 16 + b.toNat / 16), digit (b.toNat % 16 * 4), '=']
  | a :: b :: c :: rest =>
    digit (a.toNat / 4) :: digit (a.toNat % 4 * 16 + b.toNat / 16) ::
      digit (b.toNat % 16 * 4 + c.toNat / 64) :: digit (c.toNat % 64) :: encode rest

/-- One byte, of two digits. -/
def decodeOne (w x : Char) : Option (List UInt8) := do
  let i ← value w
  let j ← value x
  if j % 16 = 0 then some [.ofNat (i * 4 + j / 16)] else none

/-- Two bytes, of three digits. -/
def decodeTwo (w x y : Char) : Option (List UInt8) := do
  let i ← value w
  let j ← value x
  let k ← value y
  if k % 4 = 0 then some [.ofNat (i * 4 + j / 16), .ofNat (j % 16 * 16 + k / 4)] else none

/-- Three bytes, of four digits. -/
def decodeThree (w x y z : Char) : Option (List UInt8) := do
  let i ← value w
  let j ← value x
  let k ← value y
  let l ← value z
  return [.ofNat (i * 4 + j / 16), .ofNat (j % 16 * 16 + k / 4), .ofNat (k % 4 * 64 + l)]

def decode : List Char → Option (List UInt8)
  | [] => some []
  | w :: x :: y :: z :: rest =>
    if z = '=' then
      -- padding, at the end only
      if rest = [] then if y = '=' then decodeOne w x else decodeTwo w x y else none
    else do
      let bytes ← decodeThree w x y z
      let more ← decode rest
      return bytes ++ more
  | _ => none

/-! ## Digits -/

@[simp] theorem value_digit {i : ℕ} (h : i < 64) : value (digit i) = some i :=
  (by decide +kernel : ∀ i : Fin 64, value (digit i) = some i.val) ⟨i, h⟩

theorem digit_spec {i : ℕ} (h : i < 64) :
    (digit i).isAlphanum = true ∨ digit i = '+' ∨ digit i = '/' :=
  (by decide +kernel : ∀ i : Fin 64, (digit i.val).isAlphanum = true ∨ digit i = '+' ∨ digit i = '/') ⟨i, h⟩

theorem digit_ne_pad {i : ℕ} (h : i < 64) : digit i ≠ '=' :=
  (by decide +kernel : ∀ i : Fin 64, digit i.val ≠ '=') ⟨i, h⟩

/-! ## What is encoded is decoded -/

theorem ofNat_eq {n : ℕ} {a : UInt8} (h : n = a.toNat) : UInt8.ofNat n = a := by
  rw [h, UInt8.ofNat_toNat]

theorem decodeOne_encode (a : UInt8) :
    decodeOne (digit (a.toNat / 4)) (digit (a.toNat % 4 * 16)) = some [a] := by
  have ha := a.toNat_lt
  unfold decodeOne
  rw [value_digit (by omega), value_digit (by omega)]
  simp only [Option.bind_eq_bind, Option.bind_some]
  rw [if_pos (by omega), ofNat_eq (a := a) (by omega)]

theorem decodeTwo_encode (a b : UInt8) :
    decodeTwo (digit (a.toNat / 4)) (digit (a.toNat % 4 * 16 + b.toNat / 16)) (digit (b.toNat % 16 * 4)) =
      some [a, b] := by
  have ha := a.toNat_lt
  have hb := b.toNat_lt
  unfold decodeTwo
  rw [value_digit (by omega), value_digit (by omega), value_digit (by omega)]
  simp only [Option.bind_eq_bind, Option.bind_some]
  rw [if_pos (by omega), ofNat_eq (a := a) (by omega), ofNat_eq (a := b) (by omega)]

theorem decodeThree_encode (a b c : UInt8) :
    decodeThree (digit (a.toNat / 4)) (digit (a.toNat % 4 * 16 + b.toNat / 16))
      (digit (b.toNat % 16 * 4 + c.toNat / 64)) (digit (c.toNat % 64)) = some [a, b, c] := by
  have ha := a.toNat_lt
  have hb := b.toNat_lt
  have hc := c.toNat_lt
  unfold decodeThree
  rw [value_digit (by omega), value_digit (by omega), value_digit (by omega), value_digit (by omega)]
  simp only [Option.bind_eq_bind, Option.bind_some, Option.pure_def]
  rw [ofNat_eq (a := a) (by omega), ofNat_eq (a := b) (by omega), ofNat_eq (a := c) (by omega)]

/-- **What is encoded is decoded.** -/
theorem decode_encode (bytes : List UInt8) : decode (encode bytes) = some bytes := by
  induction bytes using encode.induct with
  | case1 => rfl
  | case2 a =>
    rw [encode, decode, if_pos rfl, if_pos rfl, if_pos rfl]
    exact decodeOne_encode a
  | case3 a b =>
    have hb := b.toNat_lt
    rw [encode, decode, if_pos rfl, if_pos rfl, if_neg (digit_ne_pad (by omega))]
    exact decodeTwo_encode a b
  | case4 a b c rest ih =>
    rw [encode, decode, if_neg (digit_ne_pad (by omega)), decodeThree_encode, ih]
    rfl

/-! ## Lengths -/

theorem length_encode (bytes : List UInt8) : (encode bytes).length = 4 * ((bytes.length + 2) / 3) := by
  induction bytes using encode.induct with
  | case1 | case2 a | case3 a b => simp [encode]
  | case4 a b c rest ih =>
    simp only [encode, List.length_cons, ih]
    omega

theorem length_decodeOne {w x : Char} {bytes : List UInt8} (h : decodeOne w x = some bytes) :
    bytes.length = 1 := by
  simp only [decodeOne, Option.bind_eq_bind, Option.bind_eq_some_iff, Option.ite_none_right_eq_some] at h
  obtain ⟨i, -, j, -, -, h⟩ := h
  cases h
  rfl

theorem length_decodeTwo {w x y : Char} {bytes : List UInt8} (h : decodeTwo w x y = some bytes) :
    bytes.length = 2 := by
  simp only [decodeTwo, Option.bind_eq_bind, Option.bind_eq_some_iff, Option.ite_none_right_eq_some] at h
  obtain ⟨i, -, j, -, k, -, -, h⟩ := h
  cases h
  rfl

theorem length_decodeThree {w x y z : Char} {bytes : List UInt8} (h : decodeThree w x y z = some bytes) :
    bytes.length = 3 := by
  simp only [decodeThree, Option.bind_eq_bind, Option.bind_eq_some_iff, Option.pure_def] at h
  obtain ⟨i, -, j, -, k, -, l, -, h⟩ := h
  cases h
  rfl

/-- **A text is as long as the encoding** of what it decodes to. -/
theorem length_of_decode {text : List Char} {bytes : List UInt8} (h : decode text = some bytes) :
    text.length = 4 * ((bytes.length + 2) / 3) := by
  fun_induction decode text generalizing bytes with
  | case1 =>
    cases h
    rfl
  | case2 w x => rw [length_decodeOne h, List.length_cons, List.length_cons, List.length_cons,
      List.length_singleton]
  | case3 w x y => rw [length_decodeTwo h, List.length_cons, List.length_cons, List.length_cons,
      List.length_singleton]
  | case4 | case6 => cases h
  | case5 w x y z rest hz ih =>
    simp only [Option.bind_eq_bind, Option.bind_eq_some_iff, Option.pure_def, Option.some.injEq] at h
    obtain ⟨three, hthree, more, hmore, rfl⟩ := h
    have hrest := ih hmore
    have hlength := length_decodeThree hthree
    simp only [List.length_cons, List.length_append]
    omega

/-! ## Characters -/

/-- The characters that an encoding is made of. -/
theorem mem_encode {bytes : List UInt8} {c : Char} (h : c ∈ encode bytes) :
    c.isAlphanum = true ∨ c = '+' ∨ c = '/' ∨ c = '=' := by
  have hdigit {i : ℕ} (hi : i < 64) (hc : c = digit i) :
      c.isAlphanum = true ∨ c = '+' ∨ c = '/' ∨ c = '=' := by
    rw [hc]
    exact (digit_spec hi).imp_right fun h => h.imp_right .inl
  induction bytes using encode.induct with
  | case1 => cases h
  | case2 a =>
    have ha := a.toNat_lt
    simp only [encode, List.mem_cons, List.not_mem_nil, or_false, or_self] at h
    rcases h with h | h | h
    · exact hdigit (by omega) h
    · exact hdigit (by omega) h
    · exact .inr (.inr (.inr h))
  | case3 a b =>
    have ha := a.toNat_lt
    have hb := b.toNat_lt
    simp only [encode, List.mem_cons, List.not_mem_nil, or_false] at h
    rcases h with h | h | h | h
    · exact hdigit (by omega) h
    · exact hdigit (by omega) h
    · exact hdigit (by omega) h
    · exact .inr (.inr (.inr h))
  | case4 a b d rest ih =>
    have ha := a.toNat_lt
    have hb := b.toNat_lt
    have hd := d.toNat_lt
    simp only [encode, List.mem_cons] at h
    rcases h with h | h | h | h | h
    · exact hdigit (by omega) h
    · exact hdigit (by omega) h
    · exact hdigit (by omega) h
    · exact hdigit (by omega) h
    · exact ih h

end Base64
end Cococoir
