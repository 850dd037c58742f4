import Vanadium.Store.Keys

/-!
# Bits of byte slices

What package `ptrie` computes on byte slices read as bit strings: the length, a bit, the longest
common prefix from a bit of the first byte on, and the slice that joins two of them inside a byte.
Each is compared with the list of bits (`Foundations.bits`).

Lengths and positions in bits are `uint32`: the length of a slice of `2 ^ 29` bytes or more wraps
around.
-/

namespace Vanadium.Ptrie

open Foundations Store List

/-- The value of a `uint32`. -/
def u32 (n : ℕ) : ℕ := n % 2 ^ 32

variable {n skipbits s : ℕ} {slice : Bytes}

theorem u32_of_lt (h : n < 2 ^ 32) : u32 n = n := Nat.mod_eq_of_lt h

def bitlen (slice : Bytes) : ℕ := u32 (8 * slice.length)

def getBit (slice : Bytes) (i : ℕ) : Bool := (slice.getD (i / 8) 0).val.testBit (7 - i % 8)

/-- `mostSignificantBit`: the table counts how often a byte can be halved. -/
def mostSignificantBit (x : ℕ) : ℕ := Nat.log2 x

/-- The loop of `sliceBitLCP` over the bytes from the second on. -/
def sliceBitLCPLoop (skipbits : ℕ) : Bytes → Bytes → ℕ → ℕ
  | x :: a, y :: b, i =>
    if x.val ^^^ y.val ≠ 0 then u32 (8 * i - skipbits + (7 - mostSignificantBit (x.val ^^^ y.val)))
    else sliceBitLCPLoop skipbits a b (i + 1)
  | _, _, i => u32 (8 * i - skipbits)

/-- `sliceBitLCP`. Both slices hold a byte. -/
def sliceBitLCP (skipbits : ℕ) : Bytes → Bytes → ℕ
  | x :: a, y :: b =>
    if ((x.val ^^^ y.val) <<< skipbits) % 256 ≠ 0 then
      7 - mostSignificantBit (((x.val ^^^ y.val) <<< skipbits) % 256)
    else sliceBitLCPLoop skipbits a b 1
  | _, _ => 0

/-- The byte in which `appendBits` joins its arguments: the high bits are those of the old byte. -/
def joinByte (r : ℕ) (oldByte newByte : Fin 256) : Fin 256 :=
  let bitmask := (2 ^ (8 - r) - 1) % 256
  Fin.ofNat 256 ((bitmask &&& newByte.val) ||| ((255 ^^^ bitmask) &&& oldByte.val))

/-- `appendBits`. The slice `b` holds a byte. -/
def appendBits (a : Bytes) (n : ℕ) : Bytes → Bytes
  | y :: b => a.take (n / 8) ++ joinByte (n % 8) (a.getD (n / 8) 0) y :: b
  | [] => a.take (n / 8)

/-! ## What they compute -/

theorem bitlen_of_lt (h : slice.length < 2 ^ 29) :
    bitlen slice = (bits slice).length := by
  rw [bitlen, length_bits, u32_of_lt (by omega)]

theorem head?_drop_bits {i : ℕ} (h : i < (bits slice).length) :
    ((bits slice).drop i).head? = some (getBit slice i) := by
  rw [head?_drop, getElem?_bits, getBit, getD_eq_getElem?_getD]
  rw [length_bits] at h
  rw [getElem?_eq_getElem (by omega)]
  rfl

theorem lcp_byte : ∀ (c : Fin 256) (s : Fin 8), (c.val <<< s.val) % 256 ≠ 0 →
    lcp (natBits (8 - s.val) c.val) (natBits (8 - s.val) 0) =
      7 - mostSignificantBit ((c.val <<< s.val) % 256) ∧
    natBits (8 - s.val) c.val ≠ natBits (8 - s.val) 0 := by
  decide +kernel

theorem natBits_byte : ∀ (c : Fin 256) (s : Fin 8), (c.val <<< s.val) % 256 = 0 →
    natBits (8 - s.val) c.val = natBits (8 - s.val) 0 := by
  decide +kernel

theorem lcp_bytes {x y : Fin 256} (hs : s < 8) (h : ((x.val ^^^ y.val) <<< s) % 256 ≠ 0) :
    lcp (natBits (8 - s) x) (natBits (8 - s) y) =
      7 - mostSignificantBit (((x.val ^^^ y.val) <<< s) % 256) ∧
    natBits (8 - s) x ≠ natBits (8 - s) y := by
  have hc : x.val ^^^ y.val < 256 := Nat.xor_lt_two_pow (n := 8) x.isLt y.isLt
  rw [lcp_natBits, Ne, natBits_eq_iff]
  exact lcp_byte ⟨_, hc⟩ ⟨s, hs⟩ h

theorem natBits_bytes {x y : Fin 256} (hs : s < 8)
    (h : ((x.val ^^^ y.val) <<< s) % 256 = 0) :
    natBits (8 - s) x = natBits (8 - s) y := by
  have hc : x.val ^^^ y.val < 256 := Nat.xor_lt_two_pow (n := 8) x.isLt y.isLt
  rw [natBits_eq_iff]
  exact natBits_byte ⟨_, hc⟩ ⟨s, hs⟩ h

theorem sliceBitLCPLoop_eq (hs : skipbits < 8) (a b : Bytes) (i : ℕ) (hi : 1 ≤ i)
    (hlen : 8 * (i + a.length) < 2 ^ 32) :
    sliceBitLCPLoop skipbits a b i = 8 * i - skipbits + lcp (bits a) (bits b) := by
  induction a generalizing b i with
  | nil =>
    rw [sliceBitLCPLoop, bits_nil, lcp_nil_left, u32_of_lt (by rw [length_nil] at hlen; omega)]
    · rfl
    · simp
  | cons x a ih =>
    rw [length_cons] at hlen
    obtain _ | ⟨y, b⟩ := b
    · rw [sliceBitLCPLoop, bits_nil, lcp_nil_right, u32_of_lt (by omega)]
      · rfl
      · simp
    · have hc : x.val ^^^ y.val < 256 := Nat.xor_lt_two_pow (n := 8) x.isLt y.isLt
      have hshift : ((x.val ^^^ y.val) <<< 0) % 256 = x.val ^^^ y.val := by
        rw [Nat.shiftLeft_zero, Nat.mod_eq_of_lt hc]
      rw [sliceBitLCPLoop, bits_cons, bits_cons]
      by_cases hxy : x.val ^^^ y.val = 0
      · have heq := natBits_bytes (x := x) (y := y) (s := 0) (by decide) (by rw [hshift, hxy])
        rw [if_neg (not_not.mpr hxy), heq, lcp_append, length_natBits,
          ih b (i + 1) (by omega) (by omega)]
        omega
      · obtain ⟨hlcp, hne⟩ :=
          lcp_bytes (s := 0) (by decide) (by rw [hshift]; exact hxy)
        rw [hshift] at hlcp
        rw [if_pos hxy, lcp_append_of_ne (by simp) hne, hlcp, u32_of_lt (by omega)]

/-- `sliceBitLCP` compares the bits of the slices from `skipbits` on. -/
theorem sliceBitLCP_eq (hs : skipbits < 8) {a b : Bytes} (ha : a ≠ []) (hb : b ≠ [])
    (hlen : a.length < 2 ^ 29) :
    sliceBitLCP skipbits a b = lcp ((bits a).drop skipbits) ((bits b).drop skipbits) := by
  obtain ⟨x, a, rfl⟩ := exists_cons_of_ne_nil ha
  obtain ⟨y, b, rfl⟩ := exists_cons_of_ne_nil hb
  rw [length_cons] at hlen
  rw [sliceBitLCP, bits_cons, bits_cons, drop_append_of_le_length (by simp; omega),
    drop_append_of_le_length (by simp; omega), drop_natBits, drop_natBits]
  by_cases hxy : ((x.val ^^^ y.val) <<< skipbits) % 256 = 0
  · rw [if_neg (not_not.mpr hxy), natBits_bytes hs hxy, lcp_append, length_natBits,
      sliceBitLCPLoop_eq hs _ _ _ le_rfl (by omega)]
  · obtain ⟨hlcp, hne⟩ := lcp_bytes hs hxy
    rw [if_pos hxy, lcp_append_of_ne (by simp) hne, hlcp]

/-- The mask keeps the low bits of the new byte. -/
theorem testBit_joinByte {r j : ℕ} (hj : j < 8) (x y : Fin 256) :
    (joinByte r x y).val.testBit j = if j < 8 - r then y.val.testBit j else x.val.testBit j := by
  have hlow : ∀ n, (n % 256).testBit j = n.testBit j := fun n ↦ by
    rw [show 256 = 2 ^ 8 by rfl, Nat.testBit_mod_two_pow, decide_eq_true hj, Bool.true_and]
  have hall : Nat.testBit 255 j = true := by
    rw [show 255 = 2 ^ 8 - 1 by rfl, Nat.testBit_two_pow_sub_one, decide_eq_true hj]
  rw [joinByte, Fin.val_ofNat, hlow, Nat.testBit_or, Nat.testBit_and, Nat.testBit_and,
    Nat.testBit_xor, hlow, hall, Nat.testBit_two_pow_sub_one]
  by_cases hlt : j < 8 - r <;> simp [hlt]

theorem natBits_joinByte {r : ℕ} (hr : r ≤ 8) (x y : Fin 256) :
    natBits 8 (joinByte r x y) = (natBits 8 x).take r ++ (natBits 8 y).drop r := by
  apply ext_getElem?
  intro i
  have hlen : ((natBits 8 x).take r).length = r := by simp [hr]
  by_cases hi : i < 8
  · rw [getElem?_natBits hi, testBit_joinByte (by omega)]
    by_cases hir : i < r
    · rw [getElem?_append_left (by omega), getElem?_take_of_lt hir, getElem?_natBits hi,
        if_neg (by omega)]
    · rw [getElem?_append_right (by omega), hlen, getElem?_drop,
        Nat.add_sub_cancel' (not_lt.mp hir), getElem?_natBits hi, if_pos (by omega)]
  · rw [getElem?_eq_none (by simp; omega), getElem?_eq_none (by simp; omega)]

/-- `appendBits` puts the bits of `b`, without those that `a` has a place for, after the first `n`
bits of `a`. -/
theorem bits_appendBits {a b : Bytes} (hn : n ≤ (bits a).length) (hb : b ≠ []) :
    bits (appendBits a n b) = (bits a).take n ++ (bits b).drop (n % 8) := by
  obtain ⟨y, b, rfl⟩ := exists_cons_of_ne_nil hb
  have hr : n % 8 ≤ 8 := (Nat.mod_lt n (by decide)).le
  -- the bits of the joined byte that are those of the old byte
  have hold : (natBits 8 (a.getD (n / 8) 0)).take (n % 8) =
      ((bits a).drop (8 * (n / 8))).take (n % 8) := by
    rw [length_bits] at hn
    by_cases haligned : n % 8 = 0
    · rw [haligned, take_zero, take_zero]
    · have hlt : n / 8 < a.length := by omega
      rw [← bits_drop, drop_eq_getElem_cons hlt, bits_cons,
        take_append_of_le_length (by rw [length_natBits]; exact hr),
        getD_eq_getElem?_getD, getElem?_eq_getElem hlt]
      rfl
  rw [appendBits, bits_append, bits_take, bits_cons, natBits_joinByte hr, hold, bits_cons,
    drop_append_of_le_length (by rw [length_natBits]; exact hr)]
  have htake : (bits a).take n =
      (bits a).take (8 * (n / 8)) ++ ((bits a).drop (8 * (n / 8))).take (n % 8) := by
    conv_lhs => rw [← Nat.div_add_mod n 8]
    rw [take_add]
  rw [htake, append_assoc, append_assoc]

theorem length_appendBits {a b : Bytes} (hn : n ≤ (bits a).length) (hb : b ≠ []) :
    (appendBits a n b).length = n / 8 + b.length := by
  obtain ⟨y, b, rfl⟩ := exists_cons_of_ne_nil hb
  rw [length_bits] at hn
  rw [appendBits, length_append, length_take, min_eq_left (by omega), length_cons, length_cons]

end Vanadium.Ptrie
