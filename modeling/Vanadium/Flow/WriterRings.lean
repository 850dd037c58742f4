import Vanadium.Flow.Scheduler

/-!
# The rings of active writers

The `next` and `prev` pointers and the heads in `activeWriters` represent the queues of active
writers (`Rings`), and `activateWriterLocked` and `deactivateWriterLocked` add a writer to its queue
and remove it.
-/

namespace Vanadium.Flow

open Foundations Foundations.RoundRobin List Function

/-! ## The rings -/

/-- The links and the heads represent the queues. -/
structure Rings (k : Links Writer) (heads : Priority → Option Writer)
    (q : Priority → List Writer) : Prop where
  ring : ∀ p, k.IsRing (q p)
  head : ∀ p, heads p = (q p).head?
  priority : ∀ p, ∀ w ∈ q p, w.priority = p
  alone : ∀ w, w ∉ q w.priority → k.next w = w ∧ k.prev w = w

namespace Rings

variable {k k' : Links Writer} {heads : Priority → Option Writer} {q : Priority → List Writer}
  {w : Writer} {l : List Writer} {p : Priority}

theorem mem_iff (h : Rings k heads q) :
    heads w.priority = some w ∨ k.next w ≠ w ↔ w ∈ q w.priority := by
  constructor
  · rintro (hhead | hnext)
    · rw [h.head] at hhead
      exact mem_of_head? hhead
    · by_contra hmem
      exact hnext (h.alone w hmem).1
  · intro hmem
    by_cases hnext : k.next w = w
    · left
      rw [h.head, (h.ring _).eq_singleton hmem hnext]
      rfl
    · exact .inr hnext

theorem update (h : Rings k heads q) {head : Option Writer}
    (hring : k'.IsRing l) (hhead : head = l.head?) (hprio : ∀ v ∈ l, v.priority = p)
    (hsame : ∀ v, v.priority ≠ p → k'.next v = k.next v ∧ k'.prev v = k.prev v)
    (halone : ∀ v, v.priority = p → v ∉ l → k'.next v = v ∧ k'.prev v = v) :
    Rings k' (update heads p head) (update q p l) := by
  refine ⟨fun p' ↦ ?_, fun p' ↦ ?_, fun p' ↦ ?_, fun v ↦ ?_⟩
  · by_cases hp : p' = p
    · subst hp
      rwa [update_self]
    · rw [update_of_ne hp]
      have hne (v : Writer) (hv : v ∈ q p') : v.priority ≠ p := (h.priority p' v hv).symm ▸ hp
      exact (h.ring p').congr (fun v hv ↦ (hsame v (hne v hv)).1) fun v hv ↦ (hsame v (hne v hv)).2
  · by_cases hp : p' = p
    · subst hp
      rwa [update_self, update_self]
    · rw [update_of_ne hp, update_of_ne hp]
      exact h.head p'
  · by_cases hp : p' = p
    · subst hp
      rwa [update_self]
    · rw [update_of_ne hp]
      exact h.priority p'
  · by_cases hp : v.priority = p
    · subst hp
      rw [update_self]
      exact halone v rfl
    · rw [update_of_ne hp, (hsame v hp).1, (hsame v hp).2]
      exact h.alone v

theorem update_links (h : Rings k heads q)
    (hring : k'.IsRing l) (hhead : heads p = l.head?) (hprio : ∀ v ∈ l, v.priority = p)
    (hsame : ∀ v, v.priority ≠ p → k'.next v = k.next v ∧ k'.prev v = k.prev v)
    (halone : ∀ v, v.priority = p → v ∉ l → k'.next v = v ∧ k'.prev v = v) :
    Rings k' heads (Function.update q p l) := by
  have hupdate := h.update hring hhead hprio hsame halone
  rwa [Function.update_eq_self] at hupdate

theorem serve (h : Rings k heads q) {v : Writer} (hq : q v.priority = v :: l) :
    Rings k (Function.update heads v.priority (some (k.next v))) (serve v.priority q) := by
  have hring := h.ring v.priority
  rw [hq] at hring
  refine h.update ((h.ring _).rotate 1) ?_ (fun u hu ↦ ?_) (fun _ _ ↦ ⟨rfl, rfl⟩) fun u hu hmem ↦ ?_
  · rw [hq, hring.head_rotate]
  · exact h.priority _ u (mem_rotate.mp hu)
  · refine h.alone u fun hin ↦ hmem ?_
    rw [hu] at hin
    exact mem_rotate.mpr hin

end Rings

theorem mem_of_mem_serve {q : Priority → List Writer} {p p' : Priority} {u : Writer}
    (hu : u ∈ serve p q p') : u ∈ q p' := by
  rw [serve] at hu
  by_cases hp : p' = p
  · subst hp
    rw [update_self] at hu
    exact mem_rotate.mp hu
  · rwa [update_of_ne hp] at hu

namespace Sched

variable {s t : Sched} {w : Writer}

/-- **`activateWriterLocked` adds the writer to its queue.** -/
theorem activateWriterLocked_spec (h : Rings s.links s.activeWriters s.queue) (w : Writer) :
    ∃ k heads, s.activateWriterLocked w =
        { s with links := k, activeWriters := heads, queue := enqueue w s.queue } ∧
      Rings k heads (enqueue w s.queue) := by
  rw [activateWriterLocked, enqueue]
  by_cases hmem : w ∈ s.queue w.priority
  · rw [if_pos (h.mem_iff.mpr hmem), if_pos hmem]
    exact ⟨_, _, rfl, h⟩
  rw [if_neg (fun hor ↦ hmem (h.mem_iff.mp hor)), if_neg hmem]
  have hprio : ∀ v ∈ s.queue w.priority ++ [w], v.priority = w.priority :=
    forall_mem_append.mpr ⟨h.priority _, forall_mem_singleton.mpr rfl⟩
  rcases hq : s.queue w.priority with _ | ⟨x, l⟩
  · -- the first writer
    have hhead : s.activeWriters w.priority = none := by rw [h.head, hq]; rfl
    rw [hhead]
    refine ⟨_, _, rfl, h.update ?_ rfl (hq ▸ hprio) (fun _ _ ↦ ⟨rfl, rfl⟩) ?_⟩
    · obtain ⟨hn, hp⟩ := h.alone w hmem
      rw [nil_append]
      refine ⟨nodup_singleton w, ?_, ?_⟩
      · rw [map_singleton, hn, rotate_singleton]
      · rw [rotate_singleton, map_singleton, hp]
    · rintro v hv -
      refine h.alone v ?_
      rw [hv, hq]
      exact not_mem_nil
  · have hhead : s.activeWriters w.priority = some x := by rw [h.head, hq]; rfl
    rw [hhead]
    rw [hq] at hmem hprio
    have hring := h.ring w.priority
    rw [hq] at hring
    have hx : x.priority = w.priority := hprio x mem_cons_self
    have hp : s.links.prev x ∈ x :: l := hring.prev_mem mem_cons_self
    refine ⟨_, _, rfl, h.update_links (hring.insertBefore hmem) hhead hprio ?_ ?_⟩
    · intro v hv
      refine Links.insertBefore_of_ne ?_ ?_ ?_ <;> rintro rfl
      · exact hv rfl
      · exact hv hx
      · exact hv (hprio _ (mem_append_left _ hp))
    · intro v hv hvl
      have hvx : v ∉ x :: l := fun hmem ↦ hvl (mem_append_left _ hmem)
      obtain ⟨hn, hp'⟩ := Links.insertBefore_of_ne
        (fun heq ↦ hvl (mem_append_right _ (mem_singleton.mpr heq)))
        (fun heq ↦ hvx (heq ▸ mem_cons_self)) (fun heq ↦ hvx (heq ▸ hp))
      rw [hn, hp']
      exact h.alone v (by rw [hv, hq]; exact hvx)

theorem head_erase {k : Links Writer} {l : List Writer} (h : k.IsRing l) (w : Writer) :
    (l.erase w).head? =
      if l.head? = some w then if w = k.next w then none else some (k.next w) else l.head? := by
  obtain _ | ⟨x, l⟩ := l
  · rfl
  by_cases hx : x = w
  · subst hx
    rw [if_pos head?_cons, erase_cons_head]
    have hhead := h.head_rotate
    rw [rotate_cons_succ, rotate_zero] at hhead
    obtain _ | ⟨b, r⟩ := l
    · rw [if_pos (Option.some.inj hhead)]
      rfl
    · obtain rfl : b = k.next x := Option.some.inj hhead
      have hne : x ≠ k.next x := fun heq ↦ (nodup_cons.mp h.nodup).1 (mem_cons.mpr (.inl heq))
      rw [if_neg hne]
      rfl
  · have hhead : (x :: l).head? ≠ some w := fun heq ↦ hx (Option.some.inj heq)
    rw [if_neg hhead, erase_cons_tail (by simpa using hx)]
    rfl

/-- **`deactivateWriterLocked` removes the writer from its queue**, if it is there. -/
theorem deactivateWriterLocked_spec (h : Rings s.links s.activeWriters s.queue) (w : Writer) :
    ∃ k heads, s.deactivateWriterLocked w =
        { s with links := k, activeWriters := heads, queue := dequeue w s.queue } ∧
      Rings k heads (dequeue w s.queue) := by
  have hring := h.ring w.priority
  have hhead := head_erase hring w
  rw [← h.head] at hhead
  have hprio : ∀ v ∈ (s.queue w.priority).erase w, v.priority = w.priority :=
    fun v hv ↦ h.priority _ v (mem_of_mem_erase hv)
  have hother : ∀ v, v.priority ≠ w.priority →
      (s.links.remove w).next v = s.links.next v ∧ (s.links.remove w).prev v = s.links.prev v := by
    intro v hv
    by_cases hmem : w ∈ s.queue w.priority
    · refine Links.remove_of_ne ?_ ?_ ?_ <;> rintro rfl
      · exact hv rfl
      · exact hv (h.priority _ _ (hring.next_mem hmem))
      · exact hv (h.priority _ _ (hring.prev_mem hmem))
    · obtain ⟨hn, hp⟩ := h.alone w hmem
      rw [Links.remove_eq_self hn hp]
      exact ⟨rfl, rfl⟩
  have hrings : (s.links.remove w).IsRing ((s.queue w.priority).erase w) := by
    by_cases hmem : w ∈ s.queue w.priority
    · exact hring.remove hmem
    · obtain ⟨hn, hp⟩ := h.alone w hmem
      rwa [Links.remove_eq_self hn hp, erase_of_not_mem hmem]
  have halone : ∀ v, v.priority = w.priority → v ∉ (s.queue w.priority).erase w →
      (s.links.remove w).next v = v ∧ (s.links.remove w).prev v = v := by
    intro v hv hvl
    by_cases hvw : v = w
    · subst hvw
      exact Links.remove_self
    have hvq : v ∉ s.queue w.priority := fun hmem ↦ hvl ((mem_erase_of_ne hvw).mpr hmem)
    have hself := h.alone v (hv ▸ hvq)
    by_cases hmem : w ∈ s.queue w.priority
    · obtain ⟨hn, hp⟩ := Links.remove_of_ne (k := s.links) hvw
        (fun heq ↦ hvq (heq ▸ hring.next_mem hmem)) (fun heq ↦ hvq (heq ▸ hring.prev_mem hmem))
      rw [hn, hp]
      exact hself
    · obtain ⟨hn, hp⟩ := h.alone w hmem
      rwa [Links.remove_eq_self hn hp]
  rw [deactivateWriterLocked]
  split
  · next hw =>
    rw [if_pos hw] at hhead
    exact ⟨_, _, rfl, h.update hrings hhead.symm hprio hother halone⟩
  · next hw =>
    rw [if_neg hw] at hhead
    exact ⟨_, _, rfl, h.update_links hrings hhead.symm hprio hother halone⟩

end Sched

end Vanadium.Flow
