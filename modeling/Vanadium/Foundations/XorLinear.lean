import Mathlib

/-!
# Maps that commute with exclusive or

Shifts, truncations and remainders of polynomials over the field of two elements are linear: they
commute with exclusive or. A table of such a map can be filled by doubling, from its values at the
powers of two (`entry_doubling`).

A feedback register takes in one symbol after the other, `c ↦ Z c ^^^ F b`. If `Z` is linear, what a
register holds is the part that its initial value contributes and the part of the symbols
(`foldl_feedback`), so the contribution of the oldest symbol can be taken out again
(`feedback_roll`).
-/

namespace Vanadium.Foundations

open List

variable {u v w : ℕ} {value : ℕ → BitVec v}

/-- A map that commutes with exclusive or. -/
def XorLinear (f : BitVec w → BitVec v) : Prop := ∀ x y, f (x ^^^ y) = f x ^^^ f y

namespace XorLinear

variable {f : BitVec w → BitVec v} {g : BitVec v → BitVec u} {z : BitVec w → BitVec w} (n : ℕ)

theorem zero (hf : XorLinear f) : f 0 = 0 := by
  have h := hf 0 0
  rw [BitVec.xor_self, BitVec.xor_self] at h
  exact h

theorem comp (hg : XorLinear g) (hf : XorLinear f) : XorLinear (g ∘ f) := by
  intro x y
  rw [Function.comp_apply, hf, hg]
  rfl

theorem xor {f' : BitVec w → BitVec v} (hf : XorLinear f) (hf' : XorLinear f') :
    XorLinear fun x ↦ f x ^^^ f' x := by
  intro x y
  change f (x ^^^ y) ^^^ f' (x ^^^ y) = (f x ^^^ f' x) ^^^ (f y ^^^ f' y)
  rw [hf, hf']
  ac_rfl

theorem iterate (hz : XorLinear z) (n : ℕ) : XorLinear z^[n] := by
  induction n with
  | zero => exact fun _ _ ↦ rfl
  | succ n ih => exact ih.comp hz

theorem ushiftRight : XorLinear fun x : BitVec w ↦ x >>> n :=
  fun _ _ ↦ BitVec.ushiftRight_xor_distrib _ _ n

theorem setWidth (v : ℕ) : XorLinear fun x : BitVec w ↦ x.setWidth v :=
  fun _ _ ↦ BitVec.setWidth_xor

theorem select (p : BitVec v) :
    XorLinear fun x : BitVec w ↦ if x.getLsbD n then p else 0 := by
  intro x y
  simp only [BitVec.getLsbD_xor]
  cases x.getLsbD n <;> cases y.getLsbD n <;> simp

end XorLinear

/-! ## Tables -/

/-- A table that is filled by doubling: the entry `j + 2 ^ k`, for `j < 2 ^ k`, is the value at
`2 ^ k` combined with the entry `j`. -/
def doubling (value : ℕ → BitVec v) (n : ℕ) : List (BitVec v) :=
  (List.range n).foldl (fun t k ↦ t ++ t.map (value (2 ^ k) ^^^ ·)) [0]

/-- An entry of a table. -/
def entry (t : List (BitVec v)) (x : BitVec w) : BitVec v := t.getD x.toNat 0

theorem ofNat_add_two_pow {j k : ℕ} (hj : j < 2 ^ k) :
    BitVec.ofNat w (j + 2 ^ k) = BitVec.ofNat w (2 ^ k) ^^^ BitVec.ofNat w j := by
  rw [← BitVec.ofNat_xor]
  congr 1
  apply Nat.eq_of_testBit_eq
  intro i
  rw [Nat.testBit_xor, Nat.testBit_two_pow, Nat.add_comm]
  rcases lt_trichotomy i k with hik | rfl | hik
  · rw [Nat.testBit_two_pow_add_gt hik, decide_eq_false (Nat.ne_of_gt hik), Bool.false_xor]
  · rw [Nat.testBit_two_pow_add_eq, Nat.testBit_lt_two_pow hj, decide_eq_true rfl]
    rfl
  · have hlt : 2 ^ k + j < 2 ^ i :=
      calc 2 ^ k + j < 2 ^ k + 2 ^ k := Nat.add_lt_add_left hj _
        _ = 2 ^ (k + 1) := by rw [pow_succ]; omega
        _ ≤ 2 ^ i := Nat.pow_le_pow_right (by omega) hik
    rw [Nat.testBit_lt_two_pow hlt,
      Nat.testBit_lt_two_pow (lt_of_le_of_lt (Nat.le_add_left _ _) hlt),
      decide_eq_false (Nat.ne_of_lt hik)]
    rfl

/-- **A table filled by doubling tabulates the linear map.** -/
theorem doubling_eq_map {f : BitVec w → BitVec v} (hf : XorLinear f) {n : ℕ}
    (hvalue : ∀ k < n, value (2 ^ k) = f (BitVec.ofNat w (2 ^ k))) :
    doubling value n = (range (2 ^ n)).map fun i ↦ f (BitVec.ofNat w i) := by
  induction n with
  | zero => exact congrArg (· :: []) hf.zero.symm
  | succ n ih =>
    have hlower := ih fun k hk ↦ hvalue k (hk.trans (Nat.lt_succ_self n))
    have hupper : ∀ i ∈ range (2 ^ n), value (2 ^ n) ^^^ f (BitVec.ofNat w i) =
        f (BitVec.ofNat w (2 ^ n + i)) := by
      intro i hi
      rw [hvalue n (Nat.lt_succ_self n), ← hf, ← ofNat_add_two_pow (mem_range.mp hi), Nat.add_comm]
    rw [doubling, range_succ, foldl_append, foldl_cons, foldl_nil]
    change doubling value n ++ (doubling value n).map (value (2 ^ n) ^^^ ·) = _
    rw [hlower, pow_succ, Nat.mul_two, range_add, map_append, map_map, map_map]
    exact congrArg _ (map_congr_left hupper)

theorem entry_doubling {f : BitVec w → BitVec v} (hf : XorLinear f)
    (hvalue : ∀ k < w, value (2 ^ k) = f (BitVec.ofNat w (2 ^ k))) (x : BitVec w) :
    entry (doubling value w) x = f x := by
  rw [entry, doubling_eq_map hf hvalue, getD_eq_getElem?_getD, getElem?_map,
    getElem?_range x.isLt, Option.map_some, Option.getD_some, BitVec.ofNat_toNat,
    BitVec.setWidth_eq]

/-! ## Feedback registers -/

section Feedback

variable {z : BitVec w → BitVec w} {f : BitVec v → BitVec w}

/-- Take in one symbol. -/
def feedback (z : BitVec w → BitVec w) (f : BitVec v → BitVec w) (c : BitVec w) (b : BitVec v) :
    BitVec w :=
  z c ^^^ f b

theorem feedback_zero (hz : XorLinear z) (b : BitVec v) : feedback z f 0 b = f b := by
  rw [feedback, hz.zero]
  exact BitVec.zero_xor

/-- **The initial value and the symbols contribute separately.** -/
theorem foldl_feedback (hz : XorLinear z) (c : BitVec w) (bs : List (BitVec v)) :
    bs.foldl (feedback z f) c = z^[bs.length] c ^^^ bs.foldl (feedback z f) 0 := by
  induction bs generalizing c with
  | nil => exact (BitVec.xor_zero).symm
  | cons b bs ih =>
    rw [foldl_cons, foldl_cons, ih, ih (feedback z f 0 b), feedback_zero hz, feedback,
      (hz.iterate _) (z c), length_cons, Function.iterate_succ_apply, BitVec.xor_assoc]

/-- **The oldest symbol is taken out** with what it contributes, and a new one is taken in. -/
theorem feedback_roll (hz : XorLinear z) (a b : BitVec v) (bs : List (BitVec v)) :
    feedback z f ((a :: bs).foldl (feedback z f) 0 ^^^ z^[bs.length] (f a)) b =
      (bs ++ [b]).foldl (feedback z f) 0 := by
  have hout : (a :: bs).foldl (feedback z f) 0 ^^^ z^[bs.length] (f a) =
      bs.foldl (feedback z f) 0 := by
    rw [foldl_cons, foldl_feedback hz, feedback_zero hz, BitVec.xor_comm, ← BitVec.xor_assoc,
      BitVec.xor_self, BitVec.zero_xor]
  rw [hout, foldl_append]
  rfl

end Feedback

end Vanadium.Foundations
