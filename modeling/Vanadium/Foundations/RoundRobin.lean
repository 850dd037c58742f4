import Mathlib

/-!
# Queues served in turn

A queue whose first element is moved to its end when it is served, kept as a ring: every element
knows its neighbours, and a pointer to the first element moves on. New elements are inserted before
the first one, that is, at the end. `IsRing` says which queue a ring represents; inserting and
removing an element and moving on are an append, an `erase` and a `rotate 1` of the queue.

An element `v` that stays in the queue is served between any two times that `w` is served: after the
first time it is ahead of `w` (`Ahead`), and it stays so until it is served itself.
-/

namespace Vanadium.Foundations.RoundRobin

open Function List

variable {ι : Type} {l : List ι} {v w x : ι}

/-! ## Rings -/

/-- The neighbours of each element. -/
structure Links (ι : Type) where
  next : ι → ι
  prev : ι → ι

namespace Links

/-- Going around the ring from the first element of `l` meets the elements of `l` in order. -/
structure IsRing (k : Links ι) (l : List ι) : Prop where
  nodup : l.Nodup
  next : l.map k.next = l.rotate 1
  prev : (l.rotate 1).map k.prev = l

variable {k k' : Links ι}

theorem isRing_nil : k.IsRing [] := ⟨nodup_nil, rfl, rfl⟩

theorem IsRing.rotate (h : k.IsRing l) (n : ℕ) : k.IsRing (l.rotate n) := by
  refine ⟨nodup_rotate.mpr h.nodup, ?_, ?_⟩
  · rw [map_rotate, h.next, rotate_rotate, rotate_rotate, Nat.add_comm]
  · rw [rotate_rotate, Nat.add_comm, ← rotate_rotate, map_rotate, h.prev]

theorem IsRing.congr (h : k.IsRing l) (hnext : ∀ x ∈ l, k'.next x = k.next x)
    (hprev : ∀ x ∈ l, k'.prev x = k.prev x) : k'.IsRing l := by
  refine ⟨h.nodup, ?_, ?_⟩
  · rw [← h.next]
    exact map_congr_left hnext
  · conv_rhs => rw [← h.prev]
    exact map_congr_left fun x hx ↦ hprev x (mem_rotate.mp hx)

theorem IsRing.next_mem (h : k.IsRing l) (hx : x ∈ l) : k.next x ∈ l := by
  have hmem := mem_map_of_mem (f := k.next) hx
  rwa [h.next, mem_rotate] at hmem

theorem IsRing.prev_mem (h : k.IsRing l) (hx : x ∈ l) : k.prev x ∈ l := by
  have hmem := mem_map_of_mem (f := k.prev) ((mem_rotate (n := 1)).mpr hx)
  rwa [h.prev] at hmem

theorem IsRing.head_rotate (h : k.IsRing (w :: l)) :
    ((w :: l).rotate 1).head? = some (k.next w) := by
  rw [← h.next]
  rfl

/-- The links of a ring, cut open at its first element. -/
theorem IsRing.cons (h : k.IsRing (w :: l)) {init : List ι} {z : ι} (hl : w :: l = init ++ [z]) :
    init.map k.next = l ∧ k.next z = w ∧ l.map k.prev = init ∧ k.prev w = z := by
  have hrot : (w :: l).rotate 1 = l ++ [w] := by rw [rotate_cons_succ, rotate_zero]
  have hnext := h.next
  have hprev := h.prev
  rw [hrot] at hnext hprev
  rw [hl, map_append] at hnext
  rw [hl, map_append] at hprev
  obtain ⟨h₁, h₂⟩ := append_inj' hnext rfl
  obtain ⟨h₃, h₄⟩ := append_inj' hprev rfl
  exact ⟨h₁, singleton_inj.mp h₂, h₃, singleton_inj.mp h₄⟩

/-- An element of a ring that follows itself is alone. -/
theorem IsRing.eq_singleton (h : k.IsRing l) (hw : w ∈ l) (hn : k.next w = w) : l = [w] := by
  obtain ⟨pre, post, rfl⟩ := append_of_mem hw
  have hring := h.rotate pre.length
  rw [rotate_append_length_eq, cons_append] at hring
  rcases hr : post ++ pre with _ | ⟨b, r⟩
  · obtain ⟨rfl, rfl⟩ := append_eq_nil_iff.mp hr
    rfl
  · have hhead := hring.head_rotate
    rw [hr, rotate_cons_succ, rotate_zero, hn] at hhead
    obtain rfl : b = w := Option.some.inj hhead
    rw [hr] at hring
    exact absurd mem_cons_self (nodup_cons.mp hring.nodup).1

variable [DecidableEq ι]

/-- Set the neighbours that are given. -/
def setNeighbors (k : Links ι) (w : ι) (prev next : Option ι) : Links ι where
  next := next.elim k.next (Function.update k.next w)
  prev := prev.elim k.prev (Function.update k.prev w)

/-- Insert `w` before `head`. -/
def insertBefore (k : Links ι) (head w : ι) : Links ι :=
  let hp := k.prev head
  ((k.setNeighbors w (some hp) (some head)).setNeighbors hp none (some w)).setNeighbors head
    (some w) none

/-- Take `w` out; it becomes its own neighbour. -/
def remove (k : Links ι) (w : ι) : Links ι :=
  let p := k.prev w
  let n := k.next w
  ((k.setNeighbors n (some p) none).setNeighbors p none (some n)).setNeighbors w (some w) (some w)

theorem map_update_of_not_mem {f : ι → ι} (h : w ∉ l) : l.map (update f w x) = l.map f :=
  map_congr_left fun a ha ↦ update_of_ne (fun heq : a = w ↦ h (heq ▸ ha)) _ _

/-- **Inserting before the first element is appending.** -/
theorem IsRing.insertBefore (h : k.IsRing (x :: l)) (hw : w ∉ x :: l) :
    (k.insertBefore x w).IsRing (x :: l ++ [w]) := by
  obtain ⟨init, z, hl⟩ : ∃ init z, x :: l = init ++ [z] :=
    ⟨_, _, (dropLast_append_getLast (cons_ne_nil x l)).symm⟩
  obtain ⟨hinit, hz, hprev, hx⟩ := h.cons hl
  have hxl : x ∉ l := (nodup_cons.mp h.nodup).1
  have hwx : w ≠ x := fun heq ↦ hw (heq ▸ mem_cons_self)
  have hwl : w ∉ l := fun hmem ↦ hw (mem_cons_of_mem x hmem)
  have hnodup := h.nodup
  rw [hl] at hnodup hw
  have hzi : z ∉ init := fun hmem ↦ (nodup_append.mp hnodup).2.2 z hmem z (mem_singleton_self z) rfl
  have hwz : w ≠ z := fun heq ↦ hw (mem_append_right init (mem_singleton.mpr heq))
  have hwi : w ∉ init := fun hmem ↦ hw (mem_append_left _ hmem)
  have hnext' : (k.insertBefore x w).next = update (update k.next w x) z w := by
    rw [← hx]
    rfl
  have hprev' : (k.insertBefore x w).prev = update (update k.prev w z) x w := by
    rw [← hx]
    rfl
  have hrot : (x :: l ++ [w]).rotate 1 = l ++ [w] ++ [x] := by
    rw [cons_append, rotate_cons_succ, rotate_zero]
  refine ⟨?_, ?_, ?_⟩
  · rw [hl]
    exact nodup_append.mpr ⟨hnodup, nodup_singleton w,
      fun a ha b hb heq ↦ hw (mem_singleton.mp hb ▸ heq ▸ ha)⟩
  · rw [hrot, hl, hnext', map_append, map_append, map_singleton, map_singleton,
      update_self, update_of_ne hwz, update_self]
    congr 2
    rw [map_update_of_not_mem hzi, map_update_of_not_mem hwi, hinit]
  · rw [hrot, hl, hprev', map_append, map_append, map_singleton, map_singleton,
      update_self, update_of_ne hwx, update_self]
    congr 2
    rw [map_update_of_not_mem hxl, map_update_of_not_mem hwl, hprev]

/-- Remove the first element. -/
theorem IsRing.remove_head (h : k.IsRing (w :: l)) : (k.remove w).IsRing l := by
  obtain _ | ⟨b, r⟩ := l
  · exact isRing_nil
  obtain ⟨init, z, hl⟩ : ∃ init z, b :: r = init ++ [z] :=
    ⟨_, _, (dropLast_append_getLast (cons_ne_nil b r)).symm⟩
  obtain ⟨hinit, hz, hprev, hx⟩ := h.cons (show w :: b :: r = (w :: init) ++ [z] by rw [hl]; rfl)
  obtain ⟨hwb, hinit⟩ := cons_eq_cons.mp hinit
  obtain ⟨-, hprev⟩ := cons_eq_cons.mp hprev
  obtain ⟨hw, hnodup⟩ := nodup_cons.mp h.nodup
  have hbr : b ∉ r := (nodup_cons.mp hnodup).1
  have hnodup' := hnodup
  rw [hl] at hnodup' hw
  have hzi : z ∉ init := fun hmem ↦
    (nodup_append.mp hnodup').2.2 z hmem z (mem_singleton_self z) rfl
  have hzw : z ≠ w := fun heq ↦ hw (mem_append_right init (mem_singleton.mpr heq.symm))
  have hwi : w ∉ init := fun hmem ↦ hw (mem_append_left _ hmem)
  rw [← hl] at hw
  have hbw : b ≠ w := fun heq ↦ hw (heq ▸ mem_cons_self)
  have hwr : w ∉ r := fun hmem ↦ hw (mem_cons_of_mem b hmem)
  have hnext' : (k.remove w).next = update (update k.next z b) w w := by
    rw [← hx, ← hwb]
    rfl
  have hprev' : (k.remove w).prev = update (update k.prev b z) w w := by
    rw [← hx, ← hwb]
    rfl
  have hrot : (b :: r).rotate 1 = r ++ [b] := by rw [rotate_cons_succ, rotate_zero]
  refine ⟨hnodup, ?_, ?_⟩
  · rw [hrot, hl, hnext', map_append, map_singleton, update_of_ne hzw, update_self]
    congr 1
    rw [map_update_of_not_mem hwi, map_update_of_not_mem hzi, hinit]
  · rw [hrot, hl, hprev', map_append, map_singleton, update_of_ne hbw, update_self]
    congr 1
    rw [map_update_of_not_mem hwr, map_update_of_not_mem hbr, hprev]

/-- **Removing an element erases it.** -/
theorem IsRing.remove (h : k.IsRing l) (hw : w ∈ l) : (k.remove w).IsRing (l.erase w) := by
  obtain ⟨pre, post, rfl⟩ := append_of_mem hw
  have hpre : w ∉ pre := fun hmem ↦ (nodup_append.mp h.nodup).2.2 w hmem w mem_cons_self rfl
  have hring := h.rotate pre.length
  rw [rotate_append_length_eq, cons_append] at hring
  have hrest := hring.remove_head.rotate post.length
  rw [rotate_append_length_eq] at hrest
  rwa [erase_append_right _ hpre, erase_cons_head]

theorem insertBefore_of_ne (hw : v ≠ w) (hx : v ≠ x) (hp : v ≠ k.prev x) :
    (k.insertBefore x w).next v = k.next v ∧ (k.insertBefore x w).prev v = k.prev v := by
  refine ⟨?_, ?_⟩
  · change update (update k.next w x) (k.prev x) w v = k.next v
    rw [update_of_ne hp, update_of_ne hw]
  · change update (update k.prev w (k.prev x)) x w v = k.prev v
    rw [update_of_ne hx, update_of_ne hw]

theorem remove_of_ne (hw : v ≠ w) (hn : v ≠ k.next w) (hp : v ≠ k.prev w) :
    (k.remove w).next v = k.next v ∧ (k.remove w).prev v = k.prev v := by
  refine ⟨?_, ?_⟩
  · change update (update k.next (k.prev w) (k.next w)) w w v = k.next v
    rw [update_of_ne hw, update_of_ne hp]
  · change update (update k.prev (k.next w) (k.prev w)) w w v = k.prev v
    rw [update_of_ne hw, update_of_ne hn]

theorem remove_self : (k.remove w).next w = w ∧ (k.remove w).prev w = w :=
  ⟨update_self .., update_self ..⟩

theorem remove_eq_self (hn : k.next w = w) (hp : k.prev w = w) : k.remove w = k := by
  have hself {f : ι → ι} (hf : f w = w) : update f w w = f := by
    conv_lhs => rw [← hf]
    rw [hf]
    exact update_eq_self_iff.mpr hf.symm
  change Links.mk (update (update k.next (k.prev w) (k.next w)) w w)
    (update (update k.prev (k.next w) (k.prev w)) w w) = k
  rw [hn, hp, hself hn, hself hn, hself hp, hself hp]

end Links

/-! ## Fairness -/

/-- `v` waits and is served before `w`. -/
def Ahead (v w : ι) (l : List ι) : Prop := v ∈ l ∧ (w ∈ l → [v, w].Sublist l)

theorem Ahead.head_ne (h : Ahead v w (x :: l)) (hvw : v ≠ w) (hl : (x :: l).Nodup) : x ≠ w := by
  rintro rfl
  obtain ⟨hx, -⟩ := nodup_cons.mp hl
  have hsub := h.2 mem_cons_self
  rcases sublist_cons_iff.mp hsub with hsub | ⟨r, hr, hsub⟩
  · exact hx (hsub.subset (mem_cons_of_mem v mem_cons_self))
  · exact hvw (cons_eq_cons.mp hr).1

theorem Ahead.rotate (h : Ahead v w (x :: l)) (hxv : x ≠ v) (hxw : x ≠ w) :
    Ahead v w ((x :: l).rotate 1) := by
  rw [rotate_cons_succ, rotate_zero]
  refine ⟨mem_append_left _ ((mem_cons.mp h.1).resolve_left hxv.symm), fun hw ↦ ?_⟩
  have hwl : w ∈ l := (mem_append.mp hw).resolve_right fun hmem ↦ hxw (mem_singleton.mp hmem).symm
  rcases sublist_cons_iff.mp (h.2 (mem_cons_of_mem x hwl)) with hsub | ⟨r, hr, -⟩
  · exact hsub.trans (sublist_append_left _ _)
  · exact absurd (cons_eq_cons.mp hr).1.symm hxv

theorem ahead_rotate_self (hv : v ∈ l) : Ahead v w ((w :: l).rotate 1) := by
  rw [rotate_cons_succ, rotate_zero]
  refine ⟨mem_append_left _ hv, fun _ ↦ ?_⟩
  exact List.Sublist.append (singleton_sublist.mpr hv) (List.Sublist.refl [w])

theorem Ahead.append (h : Ahead v w l) (x : ι) : Ahead v w (l ++ [x]) := by
  refine ⟨mem_append_left _ h.1, fun hw ↦ ?_⟩
  by_cases hwl : w ∈ l
  · exact (h.2 hwl).trans (sublist_append_left _ _)
  · obtain rfl : w = x := mem_singleton.mp ((mem_append.mp hw).resolve_left hwl)
    exact List.Sublist.append (singleton_sublist.mpr h.1) (List.Sublist.refl [w])

theorem Ahead.erase [DecidableEq ι] (h : Ahead v w l) (hl : l.Nodup) (hx : x ≠ v) :
    Ahead v w (l.erase x) := by
  refine ⟨(mem_erase_of_ne hx.symm).mpr h.1, fun hw ↦ ?_⟩
  have hxw : x ≠ w := by
    rintro rfl
    exact (List.Nodup.mem_erase_iff hl).mp hw |>.1 rfl
  have hsub := (h.2 (mem_of_mem_erase hw)).erase x
  rwa [erase_of_not_mem] at hsub
  rw [mem_cons, mem_singleton, not_or]
  exact ⟨hx, hxw⟩

/-- Between any two times that `w` was served, `v` was served, and `v` is ahead of `w` if it has not
been served since the last time. -/
structure Fair (v w : ι) (turns l : List ι) : Prop where
  ahead : ∀ a b, turns = a ++ w :: b → v ∉ b → Ahead v w l
  between : ∀ a b c, turns = a ++ w :: b ++ w :: c → v ∈ b

theorem fair_nil : Fair v w [] l := by
  refine ⟨fun a b h ↦ ?_, fun a b c h ↦ ?_⟩
  · exact absurd h.symm (append_ne_nil_of_right_ne_nil a (cons_ne_nil w b))
  · exact absurd h.symm (append_ne_nil_of_right_ne_nil _ (cons_ne_nil w c))

theorem Fair.mono {turns l' : List ι} (h : Fair v w turns l) (hl : Ahead v w l → Ahead v w l') :
    Fair v w turns l' :=
  ⟨fun a b heq hv ↦ hl (h.ahead a b heq hv), h.between⟩

/-- `x` is served, from this queue or from another one. -/
theorem Fair.serve {turns l' : List ι} (h : Fair v w turns l) (hself : x = w → Ahead v w l')
    (hnot : Ahead v w l → x ≠ w) (hother : x ≠ v → Ahead v w l → Ahead v w l') :
    Fair v w (turns ++ [x]) l' := by
  refine ⟨fun a b heq hv ↦ ?_, fun a b c heq ↦ ?_⟩
  · obtain rfl | ⟨b, y, rfl⟩ := eq_nil_or_concat' b
    · exact hself (singleton_inj.mp (append_inj' heq rfl).2)
    · rw [← cons_append, ← append_assoc] at heq
      obtain ⟨hturns, hx⟩ := append_inj' heq rfl
      obtain rfl := singleton_inj.mp hx
      rw [mem_append, not_or, mem_singleton] at hv
      exact hother (fun hxv ↦ hv.2 hxv.symm) (h.ahead a b hturns hv.1)
  · obtain rfl | ⟨c, y, rfl⟩ := eq_nil_or_concat' c
    · obtain ⟨hturns, hx⟩ := append_inj' heq rfl
      by_contra hv
      exact hnot (h.ahead a b hturns hv) (singleton_inj.mp hx)
    · rw [← cons_append, ← append_assoc] at heq
      exact h.between a b c (append_inj' heq rfl).1

end Vanadium.Foundations.RoundRobin
