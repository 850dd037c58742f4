import Mathlib

/-!
# Byte strings as bit strings

A byte string is read as the string of its bits, the most significant bit of each byte first. The
reading is injective and respects the lexicographic orders (`bits_lt_iff`), so that a structure that
branches on bits enumerates byte strings in their own order.

The length of the longest common prefix of two lists (`lcp`) is what such a structure compares
strings by.
-/

namespace Vanadium.Foundations

open List

/-! ## Longest common prefixes -/

variable (n : ℕ)

section Lcp

variable {α : Type} [DecidableEq α]

/-- The length of the longest common prefix. -/
def lcp : List α → List α → ℕ
  | a :: l, b :: r => if a = b then lcp l r + 1 else 0
  | _, _ => 0

@[simp] theorem lcp_nil_left (r : List α) : lcp [] r = 0 := by rw [lcp]; simp

@[simp] theorem lcp_nil_right (l : List α) : lcp l [] = 0 := by
  cases l <;> rfl

theorem lcp_cons (a b : α) (l r : List α) :
    lcp (a :: l) (b :: r) = if a = b then lcp l r + 1 else 0 := rfl

theorem lcp_le_left (l r : List α) : lcp l r ≤ l.length := by
  induction l generalizing r with
  | nil => simp
  | cons a l ih =>
    obtain _ | ⟨b, r⟩ := r
    · simp
    · rw [lcp_cons]
      split
      · exact Nat.succ_le_succ (ih r)
      · exact Nat.zero_le _

theorem take_lcp (l r : List α) : l.take (lcp l r) = r.take (lcp l r) := by
  induction l generalizing r with
  | nil => simp
  | cons a l ih =>
    obtain _ | ⟨b, r⟩ := r
    · simp
    · rw [lcp_cons]
      split
      · next hab => rw [take_succ_cons, take_succ_cons, ih r, hab]
      · rfl

/-- After the longest common prefix the lists differ. -/
theorem head_drop_lcp {l r l' r' : List α} {a b : α} (hl : l.drop (lcp l r) = a :: l')
    (hr : r.drop (lcp l r) = b :: r') : a ≠ b := by
  induction l generalizing r with
  | nil => simp at hl
  | cons c l ih =>
    obtain _ | ⟨d, r⟩ := r
    · simp at hr
    · rw [lcp_cons] at hl hr
      split at hl
      · next hcd =>
        rw [if_pos hcd] at hr
        exact ih hl hr
      · next hcd =>
        rw [if_neg hcd] at hr
        cases hl
        cases hr
        exact hcd

theorem lcp_append (p l r : List α) : lcp (p ++ l) (p ++ r) = p.length + lcp l r := by
  induction p with
  | nil => simp
  | cons a p ih =>
    rw [cons_append, cons_append, lcp_cons, if_pos rfl, ih, length_cons]
    omega

/-- A difference among the first elements decides. -/
theorem lcp_append_of_ne {p q : List α} (hlen : p.length = q.length) (hne : p ≠ q)
    (l r : List α) : lcp (p ++ l) (q ++ r) = lcp p q := by
  induction p generalizing q with
  | nil =>
    rw [length_nil, eq_comm, length_eq_zero_iff] at hlen
    exact absurd hlen.symm hne
  | cons a p ih =>
    obtain _ | ⟨b, q⟩ := q
    · simp at hlen
    · rw [cons_append, cons_append, lcp_cons, lcp_cons]
      split
      · next hab =>
        rw [ih (Nat.succ.inj hlen) fun h ↦ hne (by rw [hab, h])]
      · rfl

theorem lcp_eq_length_iff {l r : List α} : lcp l r = l.length ↔ l <+: r := by
  rw [prefix_iff_eq_take]
  constructor
  · intro h
    have htake := take_lcp l r
    rwa [h, take_length] at htake
  · intro h
    rw [h, ← take_append_drop l.length r]
    generalize hq : r.take l.length = q
    have hl := lcp_append q [] (r.drop l.length)
    rw [append_nil] at hl
    rw [take_left' (by rw [h, hq])]
    simpa using hl

/-- A list that is not a prefix of another is left by it at some place. -/
theorem exists_split_of_not_prefix {l r : List α} (h : ¬l <+: r) :
    ∃ (upper lower rest : List α) (a : α), l = upper ++ a :: lower ∧ r = upper ++ rest ∧
      rest.head? ≠ some a ∧ upper.length = lcp l r := by
  have hlt : lcp l r < l.length :=
    lt_of_le_of_ne (lcp_le_left _ _) fun heq ↦ h (lcp_eq_length_iff.mp heq)
  obtain ⟨a, lower, hlower⟩ : ∃ a lower, l.drop (lcp l r) = a :: lower :=
    exists_cons_of_ne_nil (by rw [Ne, drop_eq_nil_iff]; omega)
  refine ⟨l.take (lcp l r), lower, r.drop (lcp l r), a, ?_, ?_, ?_, ?_⟩
  · rw [← hlower, take_append_drop]
  · rw [take_lcp, take_append_drop]
  · intro hhead
    obtain ⟨r', hr⟩ := head?_eq_some_iff.mp hhead
    exact head_drop_lcp hlower hr rfl
  · rw [length_take, min_eq_left hlt.le]

theorem lcp_take (l r : List α) : lcp (l.take n) r = min n (lcp l r) := by
  induction l generalizing n r with
  | nil => simp
  | cons a l ih =>
    obtain _ | ⟨b, r⟩ := r
    · simp
    · obtain _ | n := n
      · simp
      · rw [take_succ_cons, lcp_cons, lcp_cons]
        split
        · rw [ih]
          omega
        · simp

end Lcp

/-! ## The bits of a number -/

/-- The `w` low bits of a number, the most significant first. -/
def natBits : ℕ → ℕ → List Bool
  | 0, _ => []
  | w + 1, n => n.testBit w :: natBits w n

@[simp] theorem length_natBits (w n : ℕ) : (natBits w n).length = w := by
  induction w with
  | zero => rfl
  | succ w ih => rw [natBits, length_cons, ih]

theorem drop_natBits (w n k : ℕ) : (natBits w n).drop k = natBits (w - k) n := by
  induction w generalizing k with
  | zero => simp [natBits]
  | succ w ih =>
    obtain _ | k := k
    · rfl
    · rw [natBits, drop_succ_cons, ih, Nat.add_sub_add_right]

theorem getElem?_natBits {w i : ℕ} (hi : i < w) (n : ℕ) :
    (natBits w n)[i]? = some (n.testBit (w - 1 - i)) := by
  have hdrop := drop_natBits w n i
  obtain ⟨k, hk⟩ : ∃ k, w - i = k + 1 := ⟨w - i - 1, by omega⟩
  rw [hk, natBits] at hdrop
  rw [← head?_drop, hdrop, head?_cons]
  congr 2
  omega

theorem natBits_congr {w m n : ℕ} (h : ∀ i < w, m.testBit i = n.testBit i) :
    natBits w m = natBits w n := by
  induction w with
  | zero => rfl
  | succ w ih =>
    rw [natBits, natBits, h w (Nat.lt_succ_self w), ih fun i hi ↦ h i (Nat.lt_succ_of_lt hi)]

/-- Only the differing bits matter to a comparison. -/
theorem lcp_natBits (w m n : ℕ) :
    lcp (natBits w m) (natBits w n) = lcp (natBits w (m ^^^ n)) (natBits w 0) := by
  induction w with
  | zero => rfl
  | succ w ih =>
    simp only [natBits, lcp_cons, ih, Nat.testBit_xor, Nat.zero_testBit, bne_eq_false_iff_eq]

theorem natBits_eq_iff (w m n : ℕ) :
    natBits w m = natBits w n ↔ natBits w (m ^^^ n) = natBits w 0 := by
  induction w with
  | zero => exact Iff.rfl
  | succ w ih =>
    simp only [natBits, cons.injEq, ih, Nat.testBit_xor, Nat.zero_testBit, bne_eq_false_iff_eq]

/-- The bits of numbers are ordered as the numbers are. -/
theorem natBits_lt {w m n : ℕ} (hn : n < 2 ^ w) (hmn : m < n) : natBits w m < natBits w n := by
  induction w generalizing m n with
  | zero => omega
  | succ w ih =>
    -- the low bits are those of the remainder by the weight of the first bit
    have hlow : ∀ a, natBits w a = natBits w (a % 2 ^ w) := fun a ↦
      natBits_congr fun i hi ↦ by rw [Nat.testBit_mod_two_pow, decide_eq_true hi, Bool.true_and]
    have hbit : ∀ a < 2 ^ (w + 1), a.testBit w = decide (2 ^ w ≤ a) := by
      intro a ha
      rw [Nat.testBit_eq_decide_div_mod_eq]
      have hpow : 0 < 2 ^ w := Nat.two_pow_pos w
      by_cases hle : 2 ^ w ≤ a
      · have hdiv : a / 2 ^ w = 1 := Nat.div_eq_of_lt_le (by omega) (by rw [pow_succ] at ha; omega)
        simp [hdiv, hle]
      · rw [Nat.div_eq_of_lt (not_le.mp hle)]
        simp [hle]
    rw [natBits, natBits, hbit m (hmn.trans hn), hbit n hn, cons_lt_cons_iff]
    rw [pow_succ] at hn
    have hpow : 0 < 2 ^ w := Nat.two_pow_pos w
    by_cases hm : 2 ^ w ≤ m
    · right
      have hle : 2 ^ w ≤ n := by omega
      refine ⟨by rw [decide_eq_true hm, decide_eq_true hle], ?_⟩
      rw [hlow m, hlow n]
      refine ih (Nat.mod_lt _ hpow) ?_
      rw [Nat.mod_eq_sub_mod hm, Nat.mod_eq_sub_mod hle, Nat.mod_eq_of_lt (by omega),
        Nat.mod_eq_of_lt (by omega)]
      omega
    · by_cases hle : 2 ^ w ≤ n
      · left
        rw [decide_eq_false hm, decide_eq_true hle]
        decide
      · right
        exact ⟨by rw [decide_eq_false hm, decide_eq_false hle], ih (not_le.mp hle) hmn⟩

/-! ## The bits of a byte string -/

/-- There are bytes: every module writes them as the same numerals. -/
instance neZero_byte : NeZero 256 := ⟨by decide⟩

instance lawfulBEq_bytes : LawfulBEq (List (Fin 256)) := inferInstance

/-- The bits of a byte string. -/
def bits (s : List (Fin 256)) : List Bool := s.flatMap fun b : Fin 256 ↦ natBits 8 b.val

@[simp] theorem bits_nil : bits [] = [] := rfl

@[simp] theorem bits_cons (b : Fin 256) (s : List (Fin 256)) :
    bits (b :: s) = natBits 8 b ++ bits s := flatMap_cons

theorem bits_append (s t : List (Fin 256)) : bits (s ++ t) = bits s ++ bits t := by
  rw [bits, flatMap_append, bits, bits]

variable (s : List (Fin 256))

@[simp] theorem length_bits : (bits s).length = 8 * s.length := by
  induction s with
  | nil => rfl
  | cons b s ih =>
    rw [bits_cons, length_append, length_natBits, ih, length_cons]
    omega

theorem bits_drop : bits (s.drop n) = (bits s).drop (8 * n) := by
  by_cases hn : n ≤ s.length
  · conv_rhs => rw [← take_append_drop n s, bits_append]
    rw [drop_left' (by rw [length_bits, length_take, min_eq_left hn])]
  · rw [drop_of_length_le (by omega), drop_of_length_le (by rw [length_bits]; omega)]
    rfl

theorem bits_take : bits (s.take n) = (bits s).take (8 * n) := by
  by_cases hn : n ≤ s.length
  · conv_rhs => rw [← take_append_drop n s, bits_append]
    rw [take_left' (by rw [length_bits, length_take, min_eq_left hn])]
  · rw [take_of_length_le (by omega), take_of_length_le (by rw [length_bits]; omega)]

/-- Where a bit stands. -/
theorem getElem?_bits (i : ℕ) :
    (bits s)[i]? = s[i / 8]?.map fun b ↦ Nat.testBit b (7 - i % 8) := by
  induction s generalizing i with
  | nil => simp
  | cons b s ih =>
    rw [bits_cons]
    by_cases hi : i < 8
    · rw [getElem?_append_left (by rwa [length_natBits]), getElem?_natBits hi,
        Nat.div_eq_of_lt hi, Nat.mod_eq_of_lt hi]
      rfl
    · obtain ⟨j, rfl⟩ : ∃ j, i = j + 8 := ⟨i - 8, by omega⟩
      rw [getElem?_append_right (by rw [length_natBits]; omega), length_natBits,
        Nat.add_sub_cancel, ih, Nat.add_div_right _ (by decide), getElem?_cons_succ,
        Nat.add_mod_right]

/-- A difference among the first elements decides. -/
theorem append_lt_append {α : Type} [LinearOrder α] {p q : List α} (hlen : p.length = q.length)
    (h : p < q) (l r : List α) : p ++ l < q ++ r := by
  induction p generalizing q with
  | nil =>
    rw [length_nil, eq_comm, length_eq_zero_iff] at hlen
    exact absurd (hlen ▸ h) (lt_irrefl _)
  | cons a p ih =>
    obtain _ | ⟨b, q⟩ := q
    · simp at hlen
    · rw [cons_append, cons_append]
      rcases cons_lt_cons_iff.mp h with hab | ⟨rfl, hpq⟩
      · exact cons_lt_cons_iff.mpr (Or.inl hab)
      · exact cons_lt_cons_iff.mpr (Or.inr ⟨rfl, ih (Nat.succ.inj hlen) hpq⟩)

theorem bits_strictMono {s t : List (Fin 256)} (h : s < t) : bits s < bits t := by
  induction s generalizing t with
  | nil =>
    obtain _ | ⟨b, t⟩ := t
    · exact absurd h (lt_irrefl _)
    · rw [bits_nil, bits_cons, natBits]
      exact nil_lt_cons _ _
  | cons a s ih =>
    obtain _ | ⟨b, t⟩ := t
    · exact absurd h (not_lt_nil _)
    · rw [bits_cons, bits_cons]
      rcases cons_lt_cons_iff.mp h with hab | ⟨rfl, hst⟩
      · have hlt : natBits 8 a < natBits 8 b := natBits_lt b.isLt hab
        exact append_lt_append (by simp) hlt _ _
      · exact append_left_lt (ih hst)

theorem bits_lt_iff {s t : List (Fin 256)} : bits s < bits t ↔ s < t := by
  refine ⟨fun h ↦ ?_, bits_strictMono⟩
  rcases lt_trichotomy s t with hlt | rfl | hgt
  · exact hlt
  · exact absurd h (lt_irrefl _)
  · exact absurd (bits_strictMono hgt) h.not_gt

theorem bits_inj {s t : List (Fin 256)} : bits s = bits t ↔ s = t := by
  refine ⟨fun h ↦ ?_, congrArg bits⟩
  rcases lt_trichotomy s t with hlt | rfl | hgt
  · exact absurd h (bits_strictMono hlt).ne
  · rfl
  · exact absurd h (bits_strictMono hgt).ne'

end Vanadium.Foundations
