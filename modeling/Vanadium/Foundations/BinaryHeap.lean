import Mathlib

/-!
# Binary heaps in a slice

The operations of Go's `container/heap` on a list, where the children of index `i` are `2 * i + 1`
and `2 * i + 2`, for the order that a key function induces. Each loop takes as fuel a bound on the
number of its iterations, so that the operations evaluate.

Every operation permutes the elements; on a heap, `pop` takes out a least one.
-/

namespace Vanadium.Foundations.BinaryHeap

open List

variable {α β : Type}

/-- The key at an index; an index past the end counts as infinitely large. -/
def key (f : α → β) (l : List α) (i : ℕ) : WithTop β := (l[i]?).elim ⊤ fun a ↦ f a

def swap (l : List α) (i j : ℕ) : List α :=
  match l[i]?, l[j]? with
  | some a, some b => (l.set i b).set j a
  | _, _ => l

section Operations

variable [LinearOrder β] (f : α → β)

/-- The smaller of the children of `i` below `n`, where the left one is. -/
def smallerChild (l : List α) (n i : ℕ) : ℕ :=
  if 2 * i + 2 < n ∧ key f l (2 * i + 2) < key f l (2 * i + 1) then 2 * i + 2 else 2 * i + 1

/-- `down`, on the elements below `n`. -/
def down (n : ℕ) : ℕ → List α → ℕ → List α
  | 0, l, _ => l
  | fuel + 1, l, i =>
    if n ≤ 2 * i + 1 then l
    else if key f l (smallerChild f l n i) < key f l i then
      down n fuel (swap l i (smallerChild f l n i)) (smallerChild f l n i)
    else l

def up : ℕ → List α → ℕ → List α
  | 0, l, _ => l
  | fuel + 1, l, j =>
    if (j - 1) / 2 ≠ j ∧ key f l j < key f l ((j - 1) / 2) then
      up fuel (swap l ((j - 1) / 2) j) ((j - 1) / 2)
    else l

/-- The loop of `Init` over the indices below `k`, from the last to the first. -/
def initFrom : ℕ → List α → List α
  | 0, l => l
  | k + 1, l => initFrom k (down f l.length l.length l k)

/-- `heap.Init`. -/
def init (l : List α) : List α := initFrom f (l.length / 2) l

/-- `heap.Push`. -/
def push (l : List α) (a : α) : List α := up f l.length (l ++ [a]) l.length

/-- `heap.Pop`; popping an empty heap is `none`. -/
def pop (l : List α) : Option (α × List α) :=
  let n := l.length - 1
  let l' := down f n n (swap l 0 n) 0
  (l'[n]?).map fun a ↦ (a, l'.take n)

end Operations

/-! ## Swapping -/

variable {f : α → β} {l : List α} {i j k m n : ℕ}

@[simp] theorem length_swap : (swap l i j).length = l.length := by
  rw [swap]
  split <;> simp

theorem swap_perm (l : List α) (i j : ℕ) : (swap l i j).Perm l := by
  rw [swap]
  split
  · rename_i a b ha hb
    obtain ⟨hi, rfl⟩ := List.getElem?_eq_some_iff.mp ha
    obtain ⟨hj, rfl⟩ := List.getElem?_eq_some_iff.mp hb
    exact set_set_perm hi hj
  · exact List.Perm.refl l

theorem getElem?_swap (hi : i < l.length) (hj : j < l.length) :
    (swap l i j)[k]? = if k = j then l[i]? else if k = i then l[j]? else l[k]? := by
  rw [swap, getElem?_eq_getElem hi, getElem?_eq_getElem hj]
  by_cases hkj : k = j
  · simp [hkj, hj]
  · by_cases hki : k = i
    · subst hki
      simp [hi, hkj, Ne.symm hkj]
    · simp [hkj, hki, Ne.symm hkj, Ne.symm hki]

theorem key_swap (hi : i < l.length) (hj : j < l.length) :
    key f (swap l i j) k = if k = j then key f l i else if k = i then key f l j else key f l k := by
  rw [key, getElem?_swap hi hj]
  split_ifs <;> rfl

/-! ## Order -/

variable [LinearOrder β]

/-- `j` is a child of `p`. -/
def IsChild (p j : ℕ) : Prop := j = 2 * p + 1 ∨ j = 2 * p + 2

/-- Below `n`, every parent from `m` on is at most its children. -/
def OrderedFrom (f : α → β) (l : List α) (m n : ℕ) : Prop :=
  ∀ p j, m ≤ p → IsChild p j → j < n → key f l p ≤ key f l j

/-- The whole list is a heap. -/
def IsHeap (f : α → β) (l : List α) : Prop := OrderedFrom f l 0 l.length

theorem IsHeap.key_root_le (h : IsHeap f l) : ∀ j < l.length, key f l 0 ≤ key f l j := by
  intro j
  induction j using Nat.strong_induction_on with
  | _ j ih =>
    intro hj
    rcases Nat.eq_zero_or_pos j with rfl | hpos
    · exact le_rfl
    · have hchild : IsChild ((j - 1) / 2) j := by unfold IsChild; omega
      exact (ih ((j - 1) / 2) (by omega) (by omega)).trans (h _ j (Nat.zero_le _) hchild hj)

/-! ## Sifting down -/

/-- The order is right except between `i` and its children, which are above the parent of `i`. -/
structure DownReady (f : α → β) (l : List α) (m n i : ℕ) : Prop where
  except : ∀ p j, m ≤ p → p ≠ i → IsChild p j → j < n → key f l p ≤ key f l j
  grand : ∀ p j, m ≤ p → IsChild p i → IsChild i j → j < n → key f l p ≤ key f l j

theorem smallerChild_spec (hn : 2 * i + 1 < n) :
    IsChild i (smallerChild f l n i) ∧ smallerChild f l n i < n ∧
      ∀ j, IsChild i j → j < n → key f l (smallerChild f l n i) ≤ key f l j := by
  rw [smallerChild]
  split_ifs with h
  · refine ⟨Or.inr rfl, h.1, ?_⟩
    rintro j (rfl | rfl) _
    exacts [h.2.le, le_rfl]
  · refine ⟨Or.inl rfl, hn, ?_⟩
    rintro j (rfl | rfl) hj
    · exact le_rfl
    · exact not_lt.mp fun hlt ↦ h ⟨hj, hlt⟩

theorem DownReady.swap {c : ℕ} (h : DownReady f l m n i) (hn : n ≤ l.length) (hm : m ≤ i)
    (hc : IsChild i c) (hcn : c < n) (hmin : ∀ j, IsChild i j → j < n → key f l c ≤ key f l j)
    (hlt : key f l c < key f l i) : DownReady f (swap l i c) m n c := by
  have hic : i < c := by unfold IsChild at hc; omega
  have hkey : ∀ k, key f (BinaryHeap.swap l i c) k
      = if k = c then key f l i else if k = i then key f l c else key f l k :=
    fun k ↦ key_swap (by omega) (by omega)
  constructor
  · intro p j hmp hpc hchild hj
    rw [hkey p, hkey j, if_neg hpc]
    by_cases hpi : p = i
    · subst hpi
      rw [if_pos rfl]
      by_cases hjc : j = c
      · rw [if_pos hjc]
        exact hlt.le
      · have hji : j ≠ p := by unfold IsChild at hchild; omega
        rw [if_neg hjc, if_neg hji]
        exact hmin j hchild hj
    · have hjc : j ≠ c := by unfold IsChild at hchild hc; omega
      rw [if_neg hpi, if_neg hjc]
      split
      · next hji => exact h.grand p c hmp (hji ▸ hchild) hc hcn
      · exact h.except p j hmp hpi hchild hj
  · intro p j _ hpc hcj hj
    obtain rfl : p = i := by unfold IsChild at hpc hc; omega
    have hjne : j ≠ c ∧ j ≠ p := by unfold IsChild at hcj; omega
    rw [hkey p, hkey j, if_neg hic.ne, if_pos rfl, if_neg hjne.1, if_neg hjne.2]
    exact h.except c j (by omega) (by omega) hcj hj

@[simp] theorem length_down (n fuel : ℕ) (l : List α) (i : ℕ) :
    (down f n fuel l i).length = l.length := by
  induction fuel generalizing l i with
  | zero => rfl
  | succ fuel ih =>
    rw [down]
    split_ifs
    · rfl
    · simp [ih]
    · rfl

theorem down_perm (n fuel : ℕ) (l : List α) (i : ℕ) : (down f n fuel l i).Perm l := by
  induction fuel generalizing l i with
  | zero => exact List.Perm.refl l
  | succ fuel ih =>
    rw [down]
    split_ifs
    · exact List.Perm.refl l
    · exact (ih _ _).trans (swap_perm _ _ _)
    · exact List.Perm.refl l

/-- **`down` restores the order**, and leaves the elements from `n` on alone. -/
theorem down_spec (hn : n ≤ l.length) (hm : m ≤ i) {fuel : ℕ} (hfuel : n ≤ i + fuel)
    (h : DownReady f l m n i) :
    OrderedFrom f (down f n fuel l i) m n ∧ ∀ k, n ≤ k → (down f n fuel l i)[k]? = l[k]? := by
  induction fuel generalizing l i with
  | zero =>
    refine ⟨fun p j hmp hchild hj ↦ h.except p j hmp ?_ hchild hj, fun _ _ ↦ rfl⟩
    unfold IsChild at hchild
    omega
  | succ fuel ih =>
    rw [down]
    split_ifs with hleaf hlt
    · refine ⟨fun p j hmp hchild hj ↦ h.except p j hmp ?_ hchild hj, fun _ _ ↦ rfl⟩
      unfold IsChild at hchild
      omega
    · obtain ⟨hc, hcn, hmin⟩ := smallerChild_spec (f := f) (l := l) (not_le.mp hleaf)
      have hic : i < smallerChild f l n i := by unfold IsChild at hc; omega
      obtain ⟨hord, hrest⟩ := ih (by simpa using hn) (hm.trans hic.le) (by omega)
        (h.swap hn hm hc hcn hmin hlt)
      refine ⟨hord, fun k hk ↦ ?_⟩
      rw [hrest k hk, getElem?_swap (by omega) (by omega), if_neg (by omega), if_neg (by omega)]
    · obtain ⟨-, -, hmin⟩ := smallerChild_spec (f := f) (l := l) (not_le.mp hleaf)
      refine ⟨fun p j hmp hchild hj ↦ ?_, fun _ _ ↦ rfl⟩
      by_cases hpi : p = i
      · subst hpi
        exact (not_lt.mp hlt).trans (hmin j hchild hj)
      · exact h.except p j hmp hpi hchild hj

/-! ## Sifting up -/

theorem up_perm (fuel : ℕ) (l : List α) (j : ℕ) : (up f fuel l j).Perm l := by
  induction fuel generalizing l j with
  | zero => exact List.Perm.refl l
  | succ fuel ih =>
    rw [up]
    split_ifs
    · exact (ih _ _).trans (swap_perm _ _ _)
    · exact List.Perm.refl l

/-! ## The operations -/

theorem initFrom_spec {k : ℕ} {l : List α} (h : OrderedFrom f l k l.length) :
    IsHeap f (initFrom f k l) ∧ (initFrom f k l).Perm l := by
  induction k generalizing l with
  | zero => exact ⟨h, List.Perm.refl l⟩
  | succ k ih =>
    have hready : DownReady f l k l.length k :=
      ⟨fun p j hkp hpk hchild hj ↦ h p j (by omega) hchild hj,
        fun p j hkp hchild _ _ ↦ by unfold IsChild at hchild; omega⟩
    have hdown := (down_spec le_rfl le_rfl (Nat.le_add_left _ _) hready).1
    obtain ⟨hheap, hperm⟩ := ih (l := down f l.length l.length l k) (by rwa [length_down])
    exact ⟨hheap, hperm.trans (down_perm _ _ _ _)⟩

/-- **`Init`** makes a heap of the same elements. -/
theorem init_spec (f : α → β) (l : List α) : IsHeap f (init f l) ∧ (init f l).Perm l :=
  initFrom_spec fun p j hp hchild hj ↦ by unfold IsChild at hchild; omega

/-- **`Push`** adds the element. -/
theorem push_perm (f : α → β) (l : List α) (a : α) : (push f l a).Perm (a :: l) :=
  (up_perm _ _ _).trans perm_append_comm

theorem pop_nil : pop f ([] : List α) = none := rfl

/-- **`Pop`** takes one element out; from a heap it takes a least one and leaves a heap. -/
theorem pop_spec (hne : l ≠ []) : ∃ a rest, pop f l = some (a, rest) ∧ (a :: rest).Perm l ∧
    (IsHeap f l → IsHeap f rest ∧ ∀ b ∈ l, f a ≤ f b) := by
  have hlen : 0 < l.length := length_pos_iff.mpr hne
  set n := l.length - 1 with hn
  set l' := down f n n (swap l 0 n) 0 with hl'
  have hlen' : l'.length = n + 1 := by rw [hl', length_down, length_swap]; omega
  have hget : l'[n]? = some (l'[n]) := getElem?_eq_getElem (by omega)
  refine ⟨l'[n], l'.take n, ?_, ?_, fun hheap ↦ ?_⟩
  · rw [pop, ← hn, ← hl', hget]
    rfl
  · have hsplit : l' = l'.take n ++ [l'[n]] := by
      rw [take_append_getElem, take_of_length_le (by omega)]
    have hperm : (l'.take n ++ [l'[n]]).Perm l := by
      rw [← hsplit]
      exact (down_perm _ _ _ _).trans (swap_perm _ _ _)
    exact perm_append_comm.trans hperm
  · -- the root is swapped out, so the disorder is at the new root only
    have hkey : ∀ k, key f (swap l 0 n) k
        = if k = n then key f l 0 else if k = 0 then key f l n else key f l k :=
      fun k ↦ key_swap hlen (by omega)
    have hready : DownReady f (swap l 0 n) 0 n 0 := by
      refine ⟨fun p j _ hp hchild hj ↦ ?_,
        fun p j _ hchild _ _ ↦ by unfold IsChild at hchild; omega⟩
      have hj0 : j ≠ 0 ∧ p ≠ n := by unfold IsChild at hchild; omega
      rw [hkey p, hkey j, if_neg hj0.2, if_neg hp, if_neg (by omega : j ≠ n), if_neg hj0.1]
      exact hheap p j (Nat.zero_le _) hchild (by omega)
    obtain ⟨hord, hrest⟩ := down_spec (by rw [length_swap]; omega) le_rfl
      (Nat.le_add_left n 0) hready
    have hroot : l'[n]? = l[0]? := by
      rw [hl', hrest n le_rfl, getElem?_swap hlen (by omega), if_pos rfl]
    constructor
    · intro p j _ hchild hj
      have hjn : j < n := by rw [length_take] at hj; omega
      have hpn : p < n := by unfold IsChild at hchild; omega
      rw [key, key, getElem?_take_of_lt hpn, getElem?_take_of_lt hjn]
      exact hord p j (Nat.zero_le _) hchild hjn
    · intro b hb
      obtain ⟨k, hk, rfl⟩ := mem_iff_getElem.mp hb
      have hle := hheap.key_root_le k hk
      rw [key, key, ← hroot, hget, getElem?_eq_getElem hk] at hle
      exact WithTop.coe_le_coe.mp hle

end Vanadium.Foundations.BinaryHeap
