import Mathlib

/-!
# Circular arrays

A queue kept in an array: its elements are the `n` elements from position `b` on, where the first
element of the array follows the last one. An element is added at position `b + n` and taken from
position `b`, both modulo the length of the array; the other elements of the array do not matter.
-/

namespace Vanadium.Foundations.CircularArray

open List

variable {α : Type} {l : List α} {b n : ℕ} {x : α}

/-- The `n` elements from position `b` on, around the end of the array. -/
def contents (l : List α) (b n : ℕ) : List α := (l.rotate b).take n

theorem contents_set_of_le {k : ℕ} (hn : n ≤ k) (hk : k < l.length) :
    contents (l.set ((b + k) % l.length) x) b n = contents l b n := by
  apply ext_getElem?
  intro i
  rw [contents, contents, getElem?_take, getElem?_take]
  split
  · next hi =>
    have hlen : (l.set ((b + k) % l.length) x).length = l.length := length_set
    rw [getElem?_rotate (by omega), getElem?_rotate (by omega), hlen, getElem?_set_ne]
    intro heq
    -- two places less than a whole turn apart
    have hmod : Nat.ModEq l.length k i := Nat.ModEq.add_left_cancel' b (by
      rw [Nat.add_comm b i]
      exact heq)
    have := hmod.eq_of_lt_of_lt hk (by omega)
    omega
  · rfl

theorem contents_set_end (h : n < l.length) :
    contents (l.set ((b + n) % l.length) x) b (n + 1) = contents l b n ++ [x] := by
  have hlt : (b + n) % l.length < l.length := Nat.mod_lt _ (by omega)
  rw [← contents_set_of_le (x := x) le_rfl h, contents, contents, take_add_one,
    getElem?_rotate (by rw [length_set]; exact h), length_set, Nat.add_comm n b,
    getElem?_set_self hlt]
  rfl

theorem contents_eq_cons (hx : l[b]? = some x) (h : n < l.length) :
    contents l b (n + 1) = x :: contents l ((b + 1) % l.length) n := by
  obtain ⟨hb, -⟩ := List.getElem?_eq_some_iff.mp hx
  have hhead : (l.rotate b)[0]? = some x := by
    rw [List.getElem?_rotate (by omega), Nat.zero_add, Nat.mod_eq_of_lt hb, hx]
  rw [contents, contents, rotate_mod, ← rotate_rotate]
  have hlen : (l.rotate b).length = l.length := length_rotate l b
  generalize l.rotate b = r at hhead hlen
  obtain _ | ⟨y, r⟩ := r
  · cases hhead
  · obtain rfl : y = x := Option.some.inj hhead
    rw [length_cons] at hlen
    rw [take_succ_cons, rotate_cons_succ, rotate_zero, take_append_of_le_length (by omega)]

/-- Replace the first element. -/
theorem contents_set_front (hb : b < l.length) (h : n < l.length) :
    contents (l.set b x) b (n + 1) = x :: contents l ((b + 1) % l.length) n := by
  have hlen : (l.set b x).length = l.length := length_set
  rw [contents_eq_cons (getElem?_set_self hb) (by rw [hlen]; exact h), hlen]
  -- `b` is the last position of a turn that starts after it
  have hlast : ((b + 1) % l.length + (l.length - 1)) % l.length = b := by
    rw [Nat.mod_add_mod, show b + 1 + (l.length - 1) = b + l.length by omega, Nat.add_mod_right,
      Nat.mod_eq_of_lt hb]
  have htail : contents (l.set (((b + 1) % l.length + (l.length - 1)) % l.length) x)
      ((b + 1) % l.length) n = contents l ((b + 1) % l.length) n :=
    contents_set_of_le (by omega) (by omega)
  rw [hlast] at htail
  rw [htail]

/-- The elements in two pieces, or one if they do not go around the end. -/
def pieces (l : List α) (b e : ℕ) : List α :=
  if b ≤ e then (l.drop b).take (e - b) else l.drop b ++ l.take e

theorem pieces_eq_contents (hb : b < l.length) (hn : n < l.length) :
    pieces l b ((b + n) % l.length) = contents l b n := by
  rw [pieces, contents, rotate_eq_drop_append_take hb.le]
  have hdrop : (l.drop b).length = l.length - b := length_drop
  by_cases hwrap : b + n < l.length
  · rw [Nat.mod_eq_of_lt hwrap, if_pos (by omega), Nat.add_sub_cancel_left,
      take_append_of_le_length (by omega)]
  · have hmod : (b + n) % l.length = b + n - l.length := by
      rw [Nat.mod_eq_sub_mod (by omega), Nat.mod_eq_of_lt (by omega)]
    have hn' : n - (l.length - b) = b + n - l.length := by omega
    rw [hmod, if_neg (by omega), take_append, hdrop, hn', take_take,
      take_of_length_le (l := l.drop b) (by omega), Nat.min_eq_left (by omega)]

end Vanadium.Foundations.CircularArray
