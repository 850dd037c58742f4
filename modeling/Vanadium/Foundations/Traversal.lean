import Mathlib

/-!
# Breadth-first traversal

The queue loop that walks a graph given by a partial adjacency function: `next v = none` means that
`v` is not stored, and then it is skipped. A vertex is marked visited when it is pushed, so each
vertex is popped at most once after the start list.

The loop is written with fuel so that it computes; `mem_bfs_iff` says that enough fuel makes it
return exactly the stored vertices reachable from the start. "Enough" is a count of queue slots:
popping frees one, and every push takes one vertex out of the finite set of vertices not yet seen.
-/

namespace Vanadium.Foundations

open Relation List

variable {V : Type*} {U : Finset V} {ps : List V}

/-- `p` is listed by the stored vertex `v`. -/
def Edge (next : V → Option (List V)) (v p : V) : Prop := ∃ ps, next v = some ps ∧ p ∈ ps

variable {next : V → Option (List V)}

theorem edge_iff {v p : V} : Edge next v p ↔ p ∈ (next v).getD [] := by
  rw [Edge]
  cases next v <;> simp

variable [DecidableEq V] {fuel : ℕ} {visited queue : List V} {w : V}

/-- Append the vertices of a list that have not been visited, marking them on the way. -/
def pushUnvisited : List V → List V → List V → List V × List V
  | visited, queue, [] => (visited, queue)
  | visited, queue, p :: ps =>
    if p ∈ visited then pushUnvisited visited queue ps
    else pushUnvisited (p :: visited) (queue ++ [p]) ps

/-- The stored vertices met by the queue loop, in the order in which they are popped. -/
def bfs (next : V → Option (List V)) : ℕ → List V → List V → List V
  | 0, _, _ => []
  | _ + 1, _, [] => []
  | fuel + 1, visited, v :: queue =>
    match next v with
    | none => bfs next fuel visited queue
    | some ps => v :: bfs next fuel (pushUnvisited visited queue ps).1
        (pushUnvisited visited queue ps).2

theorem mem_pushUnvisited_visited :
    w ∈ (pushUnvisited visited queue ps).1 ↔ w ∈ visited ∨ w ∈ ps := by
  fun_induction pushUnvisited visited queue ps with
  | case1 => simp
  | case2 visited queue p ps hp ih => grind
  | case3 visited queue p ps hp ih => grind

theorem mem_queue_pushUnvisited :
    w ∈ (pushUnvisited visited queue ps).2 ↔ w ∈ queue ∨ (w ∈ ps ∧ w ∉ visited) := by
  fun_induction pushUnvisited visited queue ps with
  | case1 => simp
  | case2 visited queue p ps hp ih => grind
  | case3 visited queue p ps hp ih => grind

theorem length_queue_pushUnvisited (hU : ∀ p ∈ ps, p ∈ U) :
    (pushUnvisited visited queue ps).2.length
        + (U \ (pushUnvisited visited queue ps).1.toFinset).card
      = queue.length + (U \ visited.toFinset).card := by
  fun_induction pushUnvisited visited queue ps with
  | case1 => rfl
  | case2 visited queue p ps hp ih => exact ih (forall_mem_cons.mp hU).2
  | case3 visited queue p ps hp ih =>
    obtain ⟨hpU, hps⟩ := forall_mem_cons.mp hU
    have hmem : p ∈ U \ visited.toFinset := by
      rw [Finset.mem_sdiff, mem_toFinset]
      exact ⟨hpU, hp⟩
    have herase : U \ (p :: visited).toFinset = (U \ visited.toFinset).erase p := by
      rw [toFinset_cons, Finset.sdiff_insert]
    have hcard := Finset.card_erase_add_one hmem
    rw [ih hps, herase, length_append, length_singleton]
    omega

/-! ## Soundness and completeness -/

/-- A vertex that is not stored is popped like a stored one that lists no others. -/
theorem mem_bfs_succ {v : V} :
    w ∈ bfs next (fuel + 1) visited (v :: queue) ↔ (w = v ∧ (next v).isSome) ∨
      w ∈ bfs next fuel (pushUnvisited visited queue ((next v).getD [])).1
        (pushUnvisited visited queue ((next v).getD [])).2 := by
  rw [bfs]
  cases next v <;> simp [pushUnvisited]

theorem bfs_sound (hw : w ∈ bfs next fuel visited queue) :
    (next w).isSome ∧ ∃ s ∈ queue, ReflTransGen (Edge next) s w := by
  induction fuel generalizing visited queue with
  | zero => simp [bfs] at hw
  | succ fuel ih =>
    cases queue with
    | nil => simp [bfs] at hw
    | cons v queue =>
      rcases mem_bfs_succ.mp hw with ⟨rfl, hsome⟩ | hw
      · exact ⟨hsome, w, mem_cons_self, ReflTransGen.refl⟩
      · obtain ⟨hsome, s, hs, hsw⟩ := ih hw
        rcases mem_queue_pushUnvisited.mp hs with hs | ⟨hs, _⟩
        · exact ⟨hsome, s, mem_cons_of_mem _ hs, hsw⟩
        · exact ⟨hsome, v, mem_cons_self, ReflTransGen.head (edge_iff.mpr hs) hsw⟩

theorem bfs_closed (hU : ∀ v p, Edge next v p → p ∈ U)
    (done : V → Prop) (hfuel : queue.length + (U \ visited.toFinset).card ≤ fuel)
    (hvis : ∀ v ∈ visited, done v ∨ v ∈ queue)
    (hdone : ∀ v p, done v → Edge next v p → p ∈ visited) :
    (∀ w ∈ queue, done w ∨ w ∈ bfs next fuel visited queue ∨ next w = none) ∧
      ∀ v p, v ∈ bfs next fuel visited queue → Edge next v p →
        done p ∨ p ∈ bfs next fuel visited queue ∨ next p = none := by
  induction fuel generalizing visited queue done with
  | zero =>
    have hq : queue = [] := length_eq_zero_iff.mp (by omega)
    subst hq
    simp [bfs]
  | succ fuel ih =>
    cases queue with
    | nil => simp [bfs]
    | cons v queue =>
      set push := pushUnvisited visited queue ((next v).getD []) with hpush
      have hfuel' : push.2.length + (U \ push.1.toFinset).card ≤ fuel := by
        rw [hpush, length_queue_pushUnvisited fun p hp ↦ hU v p (edge_iff.mpr hp)]
        rw [length_cons] at hfuel
        omega
      have hvis' : ∀ w ∈ push.1, (done w ∨ w = v) ∨ w ∈ push.2 := by
        intro w hw
        rw [hpush, mem_queue_pushUnvisited]
        by_cases hwv : w ∈ visited
        · rcases hvis w hwv with h | h
          · exact .inl (.inl h)
          · rcases mem_cons.mp h with rfl | h
            · exact .inl (.inr rfl)
            · exact .inr (.inl h)
        · exact .inr (.inr ⟨(mem_pushUnvisited_visited.mp hw).resolve_left hwv, hwv⟩)
      have hdone' : ∀ w p, (done w ∨ w = v) → Edge next w p → p ∈ push.1 := by
        rintro w p (hw | rfl) hwp
        · exact mem_pushUnvisited_visited.mpr (.inl (hdone w p hw hwp))
        · exact mem_pushUnvisited_visited.mpr (.inr (edge_iff.mp hwp))
      obtain ⟨ih₁, ih₂⟩ := ih (fun w ↦ done w ∨ w = v) hfuel' hvis' hdone'
      simp only [mem_bfs_succ]
      -- `v` itself heads the result, or is not stored
      have hlift : ∀ {w : V} {rest : Prop}, ((done w ∨ w = v) ∨ rest ∨ next w = none) →
          done w ∨ ((w = v ∧ (next v).isSome) ∨ rest) ∨ next w = none := by
        rintro w rest ((h | rfl) | h | h)
        · exact .inl h
        · cases hw : next w <;> simp
        · exact .inr (.inl (.inr h))
        · exact .inr (.inr h)
      refine ⟨fun w hw ↦ ?_, fun w p hw hwp ↦ ?_⟩
      · rcases mem_cons.mp hw with rfl | hw
        · exact hlift (.inl (.inr rfl))
        · exact hlift (ih₁ w (mem_queue_pushUnvisited.mpr (.inl hw)))
      · rcases hw with ⟨rfl, -⟩ | hw
        · rcases hvis' p (hdone' w p (.inr rfl) hwp) with h | h
          · exact hlift (.inl h)
          · exact hlift (ih₁ p h)
        · exact hlift (ih₂ w p hw hwp)

/-- **The traversal is exact.** With one unit of fuel for each start vertex and each vertex that
can be listed, the loop returns the stored vertices reachable from the start. -/
theorem mem_bfs_iff (hU : ∀ v p, Edge next v p → p ∈ U) {start : List V}
    (hfuel : start.length + U.card ≤ fuel) :
    w ∈ bfs next fuel start start ↔
      (next w).isSome ∧ ∃ s ∈ start, ReflTransGen (Edge next) s w := by
  refine ⟨bfs_sound, ?_⟩
  rintro ⟨hw, s, hs, hsw⟩
  have hcard : (U \ start.toFinset).card ≤ U.card := Finset.card_le_card Finset.sdiff_subset
  have hslots : start.length + (U \ start.toFinset).card ≤ fuel := by omega
  obtain ⟨h₁, h₂⟩ := bfs_closed hU (fun _ ↦ False) hslots (fun v hv ↦ .inr hv) (fun _ _ h ↦ h.elim)
  have key : w ∈ bfs next fuel start start ∨ next w = none := by
    induction hsw with
    | refl =>
      rcases h₁ s hs with h | h
      · exact h.elim
      · exact h
    | @tail b c _ hbc ih =>
      have hb : (next b).isSome := by obtain ⟨ps, hps, _⟩ := hbc; rw [hps]; rfl
      rcases ih hb with h | h
      · rcases h₂ b c h hbc with h | h
        · exact h.elim
        · exact h
      · rw [h] at hb; exact absurd hb (by simp)
  rcases key with h | h
  · exact h
  · rw [h] at hw; exact absurd hw (by simp)

end Vanadium.Foundations
