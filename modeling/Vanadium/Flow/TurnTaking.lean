import Vanadium.Flow.WriterRings

/-!
# Turns are given soundly and fairly

The invariant of the writers of a connection has three parts: the rings represent the queues
(`Rings`), the channels and the goroutines agree (`Threads`), and the writer with the turn is
`c.writing`. Each critical section ends with `notifyNextWriterLocked`, so that one lemma
(`notify_spec`) restores the invariant for all of them.
-/

namespace Vanadium.Flow

open Foundations Foundations.RoundRobin Foundations.Transition Function List Option

namespace Sched

variable {s t : Sched} {w : Writer} {heads : Priority → Option Writer} {k : Links Writer}
  {p : Priority}

/-! ## Channels and goroutines -/

/-- The writer has been given a turn and has not given it up. -/
def Holds (s : Sched) (w : Writer) : Prop :=
  s.pc w = .notified ∨ s.pc w = .sending ∨
    ((s.pc w = .waiting ∨ s.pc w = .cancelled) ∧ s.writeCh w)

/-- Where a flow can be when its channel is full. A flow that was notified and cancelled at the same
time leaves its channel full, but then it never writes again. -/
def MayBeFull (pc : Pc) (ctxDone closed : Bool) : Prop :=
  pc = .waiting ∨ pc = .cancelled ∨ ctxDone ∧ (pc = .closing ∨ pc = .idle ∧ closed)

/-- The channel of a writer and its goroutine agree. -/
def Fits (s : Sched) : Writer → Prop
  | .flow id =>
    (s.writeCh (.flow id) →
      MayBeFull (s.pc (.flow id)) (s.ctxDone (.flow id)) (s.closed (.flow id))) ∧
    (s.pc (.flow id) = .cancelled → s.ctxDone (.flow id))
  | .single id p => s.pc (.single id p) = .idle → s.writeCh (.single id p) = false

/-- The channels and the goroutines agree. -/
structure Threads (s : Sched) : Prop where
  active : ∀ p, ∀ w ∈ s.queue p, (s.pc w).writing
  fits : ∀ w, s.Fits w

/-- What holds whenever the lock is free. -/
structure Inv (s : Sched) : Prop where
  rings : Rings s.links s.activeWriters s.queue
  threads : s.Threads
  turn : ∀ w, s.Holds w ↔ s.writing = some w
  busy : ∀ p, s.queue p ≠ [] → s.writing ≠ none

/-- What holds before `notifyNextWriterLocked` is called for `w`, which has given up its turn. -/
structure Ready (s : Sched) (w : Option Writer) : Prop where
  rings : Rings s.links s.activeWriters s.queue
  threads : s.Threads
  turn : ∀ v, s.Holds v ↔ s.writing = some v ∧ some v ≠ w

/-- Either nobody is given a turn, or the first writer of the highest priority that has one. -/
def Served (q : Priority → List Writer) (turns : List Writer) (t : Sched) : Prop :=
  t.queue = q ∧ t.turns = turns ∨
    ∃ v l, q v.priority = v :: l ∧ (∀ p : Priority, p.index < v.priority.index → q p = []) ∧
      t.queue = serve v.priority q ∧ t.turns = turns ++ [v] ∧ t.writing = some v

/-- What a critical section comes to when the queues are `q` before a turn is given. -/
def Serves (q : Priority → List Writer) (turns : List Writer) (r : Option Sched) : Prop :=
  ∃ t, r = some t ∧ t.Inv ∧ Served q turns t

theorem inv_new : new.Inv := by
  refine ⟨⟨fun _ ↦ Links.isRing_nil, fun _ ↦ rfl, ?_, fun _ _ ↦ ⟨rfl, rfl⟩⟩, ⟨?_, ?_⟩, ?_,
    fun _ h ↦ absurd rfl h⟩
  · exact fun _ _ h ↦ nomatch h
  · exact fun _ _ h ↦ nomatch h
  · rintro (id | ⟨id, p⟩)
    · exact ⟨fun h ↦ (nomatch h), fun h ↦ (nomatch h)⟩
    · exact fun _ ↦ rfl
  · intro w
    constructor
    · rintro (h | h | ⟨h | h, -⟩) <;> cases h
    · exact fun h ↦ nomatch h

/-- The loop of `notifyNextWriterLocked`, where nobody has the turn: the priorities before `ps` have
no active writer. -/
theorem notifyFirst_spec (h : Rings s.links s.activeWriters s.queue) (ht : s.Threads)
    (hidle : ∀ v, ¬s.Holds v) (ps : List Priority)
    (hsorted : ps.Pairwise (fun p p' ↦ p.index < p'.index))
    (hempty : ∀ p, p ∉ ps → s.queue p = []) :
    (∀ p, s.queue p = []) ∧ s.notifyFirst ps = some s ∨
      ∃ v l, s.queue v.priority = v :: l ∧
        (∀ p : Priority, p.index < v.priority.index → s.queue p = []) ∧
        (s.pc v = .waiting ∨ s.pc v = .cancelled) ∧
        s.notifyFirst ps = some { s with
          activeWriters := update s.activeWriters v.priority (some (s.links.next v))
          writing := some v
          queue := serve v.priority s.queue
          turns := s.turns ++ [v]
          writeCh := update s.writeCh v true } := by
  induction ps with
  | nil => exact .inl ⟨fun p ↦ hempty p not_mem_nil, rfl⟩
  | cons p ps ih =>
    obtain ⟨hlt, hsorted⟩ := pairwise_cons.mp hsorted
    rw [notifyFirst, h.head]
    rcases hq : s.queue p with _ | ⟨v, l⟩
    · refine ih hsorted fun p' hp' ↦ ?_
      by_cases heq : p' = p
      · rw [heq, hq]
      · exact hempty p' fun hmem ↦ (mem_cons.mp hmem).elim heq hp'
    · have hv : v ∈ s.queue p := by rw [hq]; exact mem_cons_self
      obtain rfl := h.priority p v hv
      -- it is active and does not have the turn, so it waits and its channel is empty
      have hpc : s.pc v = .waiting ∨ s.pc v = .cancelled := by
        have hactive := ht.active _ v hv
        have hnot := hidle v
        rw [Holds, not_or, not_or] at hnot
        rcases hpcv : s.pc v <;> rw [hpcv] at hactive hnot <;> simp [Pc.writing] at hactive hnot ⊢
      have hch : s.writeCh v = false :=
        Bool.eq_false_iff.mpr fun hfull ↦ hidle v (.inr (.inr ⟨hpc, hfull⟩))
      refine .inr ⟨v, l, hq, fun p' hp' ↦ hempty p' fun hmem ↦ ?_, hpc, ?_⟩
      · rcases mem_cons.mp hmem with rfl | hmem
        · exact lt_irrefl _ hp'
        · exact lt_asymm hp' (hlt p' hmem)
      · dsimp only [head?_cons]
        rw [notify]
        rw [hch]
        rfl

variable {q : Priority → List Writer} {v u : Writer} {id : ℕ} {a : Action}

/-- The writer that gets the turn is waiting, so that its channel may be full. -/
theorem Threads.notify (h : s.Threads) (hpc : s.pc v = .waiting ∨ s.pc v = .cancelled)
    (hq : ∀ p, ∀ u ∈ q p, u ∈ s.queue p) :
    { s with queue := q, writeCh := update s.writeCh v true }.Threads := by
  refine ⟨fun p u hu ↦ h.active p u (hq p u hu), fun u ↦ ?_⟩
  have hfits := h.fits u
  obtain id | ⟨id, p⟩ := u
  · refine ⟨fun hfull ↦ ?_, hfits.2⟩
    by_cases huv : Writer.flow id = v
    · subst huv
      exact hpc.imp_right .inl
    · exact hfits.1 ((update_of_ne huv _ _).symm.trans hfull)
  · intro hidle
    by_cases huv : Writer.single id p = v
    · subst huv
      rcases hpc with hpc | hpc <;> rw [hidle] at hpc <;> cases hpc
    · exact (update_of_ne huv _ _).trans (hfits hidle)

/-- **`notifyNextWriterLocked` restores the invariant** and gives a turn, if it does, to the first
writer of the highest priority that has one. -/
theorem notify_spec {w : Option Writer} (h : s.Ready w) :
    Serves s.queue s.turns (s.notifyNextWriterLocked w) := by
  rw [notifyNextWriterLocked]
  have hcases : (∃ v, s.writing = some v ∧ s.writing ≠ w) ∨ ∀ v, ¬s.Holds v := by
    by_cases hw : s.writing = w
    · refine .inr fun v hv ↦ ?_
      obtain ⟨heq, hne⟩ := (h.turn v).mp hv
      exact hne (heq.symm.trans hw)
    · rcases hnone : s.writing with _ | v
      · refine .inr fun v hv ↦ ?_
        have heq := ((h.turn v).mp hv).1
        rw [hnone] at heq
        cases heq
      · exact .inl ⟨v, rfl, hnone ▸ hw⟩
  rcases hcases with ⟨v, hv, hne⟩ | hidle
  · -- another writer has the turn
    have hnone : s.writing ≠ none := by rw [hv]; exact some_ne_none v
    rw [if_neg hne, if_neg hnone]
    refine ⟨s, rfl, ⟨h.rings, h.threads, fun u ↦ ?_, fun _ _ ↦ hnone⟩, .inl ⟨rfl, rfl⟩⟩
    rw [h.turn u, and_iff_left_iff_imp]
    intro heq
    exact heq ▸ hne
  · -- nobody has it
    have hfree : (if s.writing = w then { s with writing := none } else s) =
        { s with writing := none } := by
      split
      · rfl
      · next hw =>
        rcases hnone : s.writing with _ | v
        · rw [← hnone]
        · exact absurd ((h.turn v).mpr ⟨hnone, hnone ▸ hw⟩) (hidle v)
    rw [hfree, if_pos rfl]
    have hsorted : [Priority.express, .flow, .tearDown].Pairwise
        (fun p p' ↦ p.index < p'.index) := by decide
    have hall : ∀ p : Priority, p ∉ [Priority.express, .flow, .tearDown] → s.queue p = [] := by
      rintro (_ | _ | _) hp <;> exact absurd (by decide) hp
    rcases notifyFirst_spec (s := { s with writing := none }) h.rings
      ⟨h.threads.active, h.threads.fits⟩ hidle _ hsorted hall with
      ⟨hempty, heq⟩ | ⟨v, l, hq, hhigher, hpc, heq⟩
    · refine ⟨_, heq, ⟨h.rings, ⟨h.threads.active, h.threads.fits⟩, fun u ↦ ?_, fun p hp ↦ ?_⟩,
        .inl ⟨rfl, rfl⟩⟩
      · exact ⟨fun hu ↦ absurd hu (hidle u), fun hu ↦ nomatch hu⟩
      · exact absurd (hempty p) hp
    · refine ⟨_, heq, ⟨?_, ?_, fun u ↦ ?_, fun _ _ ↦ some_ne_none v⟩,
        .inr ⟨v, l, hq, hhigher, rfl, rfl, rfl⟩⟩
      · exact h.rings.serve hq
      · exact { h.threads.notify hpc fun p u hu ↦ mem_of_mem_serve hu with }
      · -- the writer that is notified holds the turn, and nobody else
        change (s.pc u = .notified ∨ s.pc u = .sending ∨
          ((s.pc u = .waiting ∨ s.pc u = .cancelled) ∧ update s.writeCh v true u)) ↔ some v = some u
        by_cases huv : u = v
        · subst huv
          rw [update_self]
          exact ⟨fun _ ↦ rfl, fun _ ↦ .inr (.inr ⟨hpc, rfl⟩)⟩
        · rw [update_of_ne huv]
          exact ⟨fun hu ↦ absurd hu (hidle u), fun heq ↦ absurd (some.inj heq).symm huv⟩

/-! ## One step -/

/-- Nothing but what concerns `w` differs. -/
structure Local (w : Writer) (s t : Sched) : Prop where
  pc : ∀ v, v ≠ w → t.pc v = s.pc v
  writeCh : ∀ v, v ≠ w → t.writeCh v = s.writeCh v
  ctxDone : ∀ v, v ≠ w → t.ctxDone v = s.ctxDone v
  closed : ∀ v, v ≠ w → t.closed v = s.closed v
  writing : t.writing = s.writing
  queue : ∀ p, ∀ v ∈ t.queue p, v ≠ w → v ∈ s.queue p

namespace Local

theorem holds (h : Local w s t) {v : Writer} (hv : v ≠ w) : t.Holds v ↔ s.Holds v := by
  rw [Holds, Holds, h.pc v hv, h.writeCh v hv]

theorem threads (h : Local w s t) (hs : s.Threads) (hactive : ∀ p, w ∈ t.queue p → (t.pc w).writing)
    (hfits : t.Fits w) : t.Threads := by
  refine ⟨fun p v hv ↦ ?_, fun v ↦ ?_⟩
  · by_cases hvw : v = w
    · subst hvw
      exact hactive p hv
    · rw [h.pc v hvw]
      exact hs.active p v (h.queue p v hv hvw)
  · by_cases hvw : v = w
    · rwa [hvw]
    · have hold := hs.fits v
      obtain id | ⟨id, p⟩ := v
      · rw [Fits] at hold ⊢
        rwa [h.pc _ hvw, h.writeCh _ hvw, h.ctxDone _ hvw, h.closed _ hvw]
      · rw [Fits] at hold ⊢
        rwa [h.pc _ hvw, h.writeCh _ hvw]

theorem ready (h : Local w s t) (hs : s.Inv) (hrings : Rings t.links t.activeWriters t.queue)
    (hactive : ∀ p, w ∈ t.queue p → (t.pc w).writing) (hfits : t.Fits w) (hnot : ¬t.Holds w) :
    t.Ready (some w) := by
  refine ⟨hrings, h.threads hs.threads hactive hfits, fun v ↦ ?_⟩
  by_cases hvw : v = w
  · subst hvw
    exact ⟨fun hv ↦ absurd hv hnot, fun hv ↦ absurd rfl hv.2⟩
  · rw [h.holds hvw, hs.turn, h.writing, and_iff_left fun heq ↦ hvw (some.inj heq)]

theorem inv (h : Local w s t) (hs : s.Inv) (hlinks : t.links = s.links)
    (hheads : t.activeWriters = s.activeWriters) (hqueue : t.queue = s.queue)
    (hactive : ∀ p, w ∈ s.queue p → (t.pc w).writing) (hfits : t.Fits w)
    (hturn : t.Holds w ↔ s.Holds w) : t.Inv := by
  refine ⟨?_, h.threads hs.threads (hqueue ▸ hactive) hfits, fun v ↦ ?_, fun p hp ↦ ?_⟩
  · rw [hlinks, hheads, hqueue]
    exact hs.rings
  · rw [h.writing, ← hs.turn]
    by_cases hvw : v = w
    · rwa [hvw]
    · exact h.holds hvw
  · rw [h.writing]
    exact hs.busy p (hqueue ▸ hp)

end Local

/-- The queues before a turn is given. -/
inductive Edit (q : Priority → List Writer) : (Priority → List Writer) → Prop
  | same : Edit q q
  | add (w : Writer) : Edit q (enqueue w q)
  | drop (w : Writer) : Edit q (dequeue w q)
  | both (w : Writer) : Edit q (dequeue w (enqueue w q))

theorem mem_of_mem_enqueue (hv : v ∈ enqueue w q p) (hvw : v ≠ w) : v ∈ q p := by
  rw [enqueue] at hv
  split at hv
  · exact hv
  by_cases hp : p = w.priority
  · subst hp
    rw [update_self] at hv
    exact (mem_append.mp hv).resolve_right fun hmem ↦ hvw (mem_singleton.mp hmem)
  · rwa [update_of_ne hp] at hv

theorem mem_of_mem_dequeue (hv : v ∈ dequeue w q p) : v ∈ q p := by
  rw [dequeue] at hv
  by_cases hp : p = w.priority
  · subst hp
    rw [update_self] at hv
    exact mem_of_mem_erase hv
  · rwa [update_of_ne hp] at hv

theorem not_mem_dequeue (h : Rings k heads q) (p : Priority) : w ∉ dequeue w q p := by
  intro hmem
  obtain rfl := h.priority p w (mem_of_mem_dequeue hmem)
  rw [dequeue, update_self] at hmem
  exact ((h.ring _).nodup.mem_erase_iff.mp hmem).1 rfl

theorem Inv.writeCh_eq_false (h : s.Inv)
    (hnot : ¬MayBeFull (s.pc (.flow id)) (s.ctxDone (.flow id)) (s.closed (.flow id))) :
    s.writeCh (.flow id) = false :=
  Bool.eq_false_iff.mpr fun hfull ↦ hnot ((h.threads.fits (.flow id)).1 hfull)

theorem local_setPc (s : Sched) (w : Writer) (pc : Pc) : Local w s (s.setPc w pc) :=
  ⟨fun _ hv ↦ update_of_ne hv _ _, fun _ _ ↦ rfl, fun _ _ ↦ rfl, fun _ _ ↦ rfl, rfl,
    fun _ _ hv _ ↦ hv⟩

theorem setPc_pc (s : Sched) (w : Writer) (pc : Pc) : (s.setPc w pc).pc w = pc :=
  update_self ..

theorem not_holds_of_waiting (hpc : s.pc w = .waiting) (hch : s.writeCh w = false) :
    ¬s.Holds w := by
  rw [Holds, hpc, hch]
  rintro (h | h | ⟨-, h⟩) <;> cases h

theorem fits_of_waiting (hpc : s.pc w = .waiting) : s.Fits w := by
  obtain id | ⟨id, p⟩ := w
  · rw [Fits, hpc]
    exact ⟨fun _ ↦ .inl rfl, fun h ↦ (nomatch h)⟩
  · rw [Fits, hpc]
    exact fun h ↦ nomatch h

/-- A writer waits, with its place in the queues taken or given up. -/
theorem Inv.wait (h : s.Inv) (hch : s.writeCh w = false) (hrings : Rings k heads q)
    (hq : ∀ p, ∀ v ∈ q p, v ≠ w → v ∈ s.queue p) :
    Serves q s.turns ({ s.setPc w .waiting with
      links := k, activeWriters := heads, queue := q }.notifyNextWriterLocked (some w)) := by
  obtain ⟨hpc, hwc, hctx, hclosed, hwriting, -⟩ := local_setPc s w .waiting
  refine notify_spec (Local.ready ⟨hpc, hwc, hctx, hclosed, hwriting, hq⟩ h hrings ?_ ?_ ?_)
  · intro p _
    exact (congrArg Pc.writing (setPc_pc s w .waiting)).trans rfl
  · exact fits_of_waiting (setPc_pc s w .waiting)
  · exact not_holds_of_waiting (setPc_pc s w .waiting) hch

/-- A writer activates itself and waits. -/
theorem Inv.beginWrite (h : s.Inv) (hch : s.writeCh w = false) :
    Serves (enqueue w s.queue) s.turns
      (((s.setPc w .waiting).activateWriterLocked w).notifyNextWriterLocked (some w)) := by
  obtain ⟨k, heads, heq, hrings⟩ := activateWriterLocked_spec (s := s.setPc w .waiting) h.rings w
  rw [heq]
  exact h.wait hch hrings fun _ _ hv hvw ↦ mem_of_mem_enqueue hv hvw

theorem Inv.deactivate (h : s.Inv) (hch : s.writeCh w = false) :
    Serves (dequeue w s.queue) s.turns
      (((s.setPc w .waiting).deactivateWriterLocked w).notifyNextWriterLocked (some w)) := by
  obtain ⟨k, heads, heq, hrings⟩ := deactivateWriterLocked_spec (s := s.setPc w .waiting) h.rings w
  rw [heq]
  exact h.wait hch hrings fun _ _ hv _ ↦ mem_of_mem_dequeue hv

/-- The last critical section of a write. If the channel of a flow is full, the flow was cancelled
and is about to be closed. -/
theorem finishWrite_spec {u : Sched} (closes : Bool) (h : s.Inv) (hlocal : Local w s u)
    (hrings : Rings u.links u.activeWriters u.queue)
    (hfull : u.writeCh w → (∃ id, w = .flow id) → closes ∧ u.ctxDone w) :
    Serves (dequeue w u.queue) u.turns (u.finishWrite w closes) := by
  obtain ⟨k, heads, heq, hrings'⟩ :=
    deactivateWriterLocked_spec (s := u.setPc w (afterWrite w closes)) hrings w
  rw [finishWrite, heq]
  obtain ⟨hpc, -, -, -, -, -⟩ := local_setPc u w (afterWrite w closes)
  refine notify_spec (Local.ready ⟨fun v hv ↦ (hpc v hv).trans (hlocal.pc v hv),
    hlocal.writeCh, hlocal.ctxDone, hlocal.closed, hlocal.writing, ?_⟩ h hrings' ?_ ?_ ?_)
  · exact fun p v hv hvw ↦ hlocal.queue p v (mem_of_mem_dequeue hv) hvw
  · exact fun p hmem ↦ absurd hmem (not_mem_dequeue hrings p)
  · obtain id | ⟨id, p⟩ := w
    · refine ⟨fun hch ↦ ?_, fun hcancelled ↦ ?_⟩
      · obtain ⟨hcloses, hctx⟩ := hfull hch ⟨id, rfl⟩
        refine .inr (.inr ⟨hctx, .inl ?_⟩)
        rw [setPc_pc, afterWrite, if_pos hcloses]
      · rw [setPc_pc, afterWrite] at hcancelled
        split at hcancelled <;> cases hcancelled
    · intro hidle
      rw [setPc_pc] at hidle
      cases hidle
  · rw [Holds, setPc_pc]
    obtain id | ⟨id, p⟩ := w
    · obtain _ | _ := closes <;> rintro (h | h | ⟨h | h, -⟩) <;> cases h
    · rintro (h | h | ⟨h | h, -⟩) <;> cases h

theorem Inv.release (h : s.Inv) (hw : (s.pc w).writing) :
    Serves (enqueue w s.queue) s.turns ((s.activateWriterLocked w).notifyNextWriterLocked
      none) := by
  obtain ⟨k, heads, heq, hrings⟩ := activateWriterLocked_spec h.rings w
  rw [heq]
  refine notify_spec ⟨hrings, ⟨fun p v hv ↦ ?_, h.threads.fits⟩, fun v ↦ ?_⟩
  · by_cases hvw : v = w
    · subst hvw
      exact hw
    · exact h.threads.active p v (mem_of_mem_enqueue hv hvw)
  · exact (h.turn v).trans (and_iff_left (some_ne_none v)).symm

theorem Inv.writeCh_of_turn (h : s.Inv)
    (hpc : s.pc (.flow id) = .notified ∨ s.pc (.flow id) = .sending) :
    s.writeCh (.flow id) = false := by
  apply h.writeCh_eq_false
  rcases hpc with hpc | hpc <;> simp [MayBeFull, hpc]

theorem fits_of_writeCh (hch : s.writeCh (.flow id) = false)
    (hpc : s.pc (.flow id) ≠ .cancelled) : s.Fits (.flow id) :=
  ⟨fun hfull ↦ absurd (hch.symm.trans hfull) (by decide), fun hc ↦ absurd hc hpc⟩

theorem Inv.setPc (h : s.Inv) {pc : Pc} (hactive : (s.pc w).writing → pc.writing)
    (hfits : (s.setPc w pc).Fits w) (hturn : (s.setPc w pc).Holds w ↔ s.Holds w) :
    (s.setPc w pc).Inv := by
  refine (local_setPc s w pc).inv h rfl rfl rfl (fun p hmem ↦ ?_) hfits hturn
  rw [setPc_pc]
  exact hactive (h.threads.active p w hmem)

theorem Inv.check (h : s.Inv) (hpc : s.pc (.flow id) = .idle)
    (hctx : s.ctxDone (.flow id) = false) : (s.setPc (.flow id) .checked).Inv := by
  have hch : s.writeCh (.flow id) = false := h.writeCh_eq_false (by simp [MayBeFull, hpc, hctx])
  apply h.setPc
  · rw [hpc]
    exact fun hw ↦ nomatch hw
  · exact fits_of_writeCh hch (by rw [setPc_pc]; decide)
  · rw [Holds, Holds, setPc_pc, hpc]
    constructor <;> rintro (h | h | ⟨h | h, -⟩) <;> cases h

/-- A waiting writer receives from its channel. -/
theorem Inv.receive (h : s.Inv) (hpc : s.pc w = .waiting) (hch : s.writeCh w) :
    Serves s.queue s.turns (s.exec (.receive w)) := by
  have hold : s.Holds w := .inr (.inr ⟨.inl hpc, hch⟩)
  have hnew {t : Sched} (ht : t.pc w = .notified) : t.Holds w ↔ s.Holds w :=
    ⟨fun _ ↦ hold, fun _ ↦ .inl ht⟩
  obtain ⟨hl₁, hl₂, hl₃, hl₄, hl₅, hl₆⟩ := local_setPc s w .notified
  obtain id | ⟨id, p⟩ := w
  · refine ⟨_, rfl, Local.inv (w := .flow id) ⟨hl₁, fun v hv ↦ update_of_ne hv _ _, hl₃, hl₄,
      hl₅, hl₆⟩ h rfl rfl rfl ?_ ?_ (hnew (setPc_pc ..)), .inl ⟨rfl, rfl⟩⟩
    · intro _ _
      exact (congrArg Pc.writing (setPc_pc ..)).trans rfl
    · exact fits_of_writeCh (update_self ..) (by rw [setPc_pc]; decide)
  · refine ⟨_, rfl, h.setPc (fun _ ↦ rfl) (fun hidle ↦ ?_) (hnew (setPc_pc ..)), .inl ⟨rfl, rfl⟩⟩
    rw [setPc_pc] at hidle
    cases hidle

theorem Inv.cancel (h : s.Inv) (hpc : s.pc w = .waiting)
    (hctx : (∃ id, w = .flow id) → s.ctxDone w) : (s.setPc w .cancelled).Inv := by
  apply h.setPc
  · exact fun _ ↦ rfl
  · obtain id | ⟨id, p⟩ := w
    · exact ⟨fun _ ↦ .inr (.inl (setPc_pc ..)), fun _ ↦ hctx ⟨id, rfl⟩⟩
    · intro hidle
      rw [setPc_pc] at hidle
      cases hidle
  · have hch : (s.setPc w .cancelled).writeCh w = s.writeCh w := rfl
    rw [Holds, Holds, setPc_pc, hpc, hch]
    simp

theorem Inv.send (h : s.Inv) (hpc : s.pc (.flow id) = .notified)
    (hch : s.writeCh (.flow id) = false) : (s.setPc (.flow id) .sending).Inv := by
  apply h.setPc
  · exact fun _ ↦ rfl
  · exact fits_of_writeCh hch (by rw [setPc_pc]; decide)
  · exact ⟨fun _ ↦ .inl hpc, fun _ ↦ .inr (.inl (setPc_pc ..))⟩

theorem Inv.setFlags (h : s.Inv) (id : ℕ) {ctxDone closed : Writer → Bool}
    (hctx : ∀ v, v ≠ .flow id → ctxDone v = s.ctxDone v)
    (hclosed : ∀ v, v ≠ .flow id → closed v = s.closed v)
    (hfits : { s with ctxDone := ctxDone, closed := closed }.Fits (.flow id)) :
    { s with ctxDone := ctxDone, closed := closed }.Inv :=
  Local.inv (s := s) ⟨fun _ _ ↦ rfl, fun _ _ ↦ rfl, hctx, hclosed, rfl,
    fun _ _ hv _ ↦ hv⟩ h rfl rfl rfl (fun p hmem ↦ h.threads.active p _ hmem) hfits Iff.rfl

theorem Inv.close (h : s.Inv) (id : ℕ) : Serves s.queue s.turns (s.exec (.close id)) := by
  have hfits := h.threads.fits (.flow id)
  have hset : { s with closed := update s.closed (.flow id) true }.Inv := by
    refine h.setFlags id (fun _ _ ↦ rfl) (fun v hv ↦ update_of_ne hv _ _) ⟨fun hfull ↦ ?_, hfits.2⟩
    refine (hfits.1 hfull).imp_right (Or.imp_right fun hor ↦ ⟨hor.1, hor.2.imp_right fun hand ↦ ?_⟩)
    exact ⟨hand.1, update_self ..⟩
  rw [exec]
  split
  · next hpc =>
    refine ⟨_, rfl, ?_, .inl ⟨rfl, rfl⟩⟩
    apply hset.setPc
    · exact fun hw ↦ by rw [hpc] at hw; exact hw
    · refine ⟨fun hfull ↦ ?_, fun hc ↦ ?_⟩
      · rcases hfits.1 hfull with hor | hor | ⟨hctx, -⟩
        · rw [hpc] at hor
          cases hor
        · rw [hpc] at hor
          cases hor
        · exact .inr (.inr ⟨hctx, .inr ⟨setPc_pc .., update_self ..⟩⟩)
      · rw [setPc_pc] at hc
        cases hc
    · rw [Holds, Holds, setPc_pc]
      rw [hpc]
      constructor <;> rintro (h | h | ⟨h | h, -⟩) <;> cases h
  · exact ⟨_, rfl, hset, .inl ⟨rfl, rfl⟩⟩

/-- **One step** never blocks on a channel or closes one twice; it keeps the invariant and gives at
most one turn. -/
theorem Inv.exec (h : s.Inv) (ha : s.enabled a) :
    ∃ q, Edit s.queue q ∧ Serves q s.turns (s.exec a) := by
  cases a with
  | check id =>
    obtain ⟨hpc, hctx⟩ := of_decide_eq_true ha
    exact ⟨_, .same, _, rfl, h.check hpc hctx, .inl ⟨rfl, rfl⟩⟩
  | start id noParts alsoClose =>
    have hpc : s.pc (.flow id) = .checked := of_decide_eq_true ha
    have hch : s.writeCh (.flow id) = false := h.writeCh_eq_false (by simp [MayBeFull, hpc])
    obtain _ | _ := noParts
    · exact ⟨_, .add _, h.beginWrite hch⟩
    · -- there is nothing to write
      obtain ⟨k, heads, heq, hrings⟩ :=
        activateWriterLocked_spec (s := s.setPc (.flow id) .waiting) h.rings (.flow id)
      obtain ⟨hl₁, hl₂, hl₃, hl₄, hl₅, -⟩ := local_setPc s (.flow id) .waiting
      refine ⟨_, .both (.flow id), ?_⟩
      simp only [exec, if_true, heq]
      exact finishWrite_spec alsoClose h
        ⟨hl₁, hl₂, hl₃, hl₄, hl₅, fun _ _ hv hvw ↦ mem_of_mem_enqueue hv hvw⟩ hrings
        fun hfull ↦ absurd (hch.symm.trans hfull) (by decide)
  | sendMessage id p =>
    have hpc : s.pc (.single id p) = .idle := of_decide_eq_true ha
    exact ⟨_, .add _, h.beginWrite (h.threads.fits (.single id p) hpc)⟩
  | receive w =>
    obtain ⟨hpc, hch⟩ := of_decide_eq_true ha
    exact ⟨_, .same, h.receive hpc hch⟩
  | cancel w =>
    obtain id | ⟨id, p⟩ := w
    · obtain ⟨hpc, hctx⟩ := of_decide_eq_true ha
      exact ⟨_, .same, _, rfl, h.cancel hpc fun _ ↦ hctx, .inl ⟨rfl, rfl⟩⟩
    · exact ⟨_, .same, _, rfl, h.cancel (of_decide_eq_true ha) fun ⟨_, hw⟩ ↦ (nomatch hw),
        .inl ⟨rfl, rfl⟩⟩
  | noTokens id =>
    have hpc : s.pc (.flow id) = .notified := of_decide_eq_true ha
    exact ⟨_, .drop _, h.deactivate (h.writeCh_of_turn (.inl hpc))⟩
  | send id =>
    have hpc : s.pc (.flow id) = .notified := of_decide_eq_true ha
    exact ⟨_, .same, _, rfl, h.send hpc (h.writeCh_of_turn (.inl hpc)), .inl ⟨rfl, rfl⟩⟩
  | sendMore id =>
    have hpc : s.pc (.flow id) = .sending := of_decide_eq_true ha
    exact ⟨_, .same, h.wait (h.writeCh_of_turn (.inr hpc)) h.rings fun _ _ hv _ ↦ hv⟩
  | finish w closes =>
    have hself : Local w s s := ⟨fun _ _ ↦ rfl, fun _ _ ↦ rfl, fun _ _ ↦ rfl, fun _ _ ↦ rfl, rfl,
      fun _ _ hv _ ↦ hv⟩
    refine ⟨_, .drop _, finishWrite_spec closes h hself h.rings ?_⟩
    rintro hfull ⟨id, rfl⟩
    rcases of_decide_eq_true ha with hpc | ⟨hpc, hcloses⟩
    · exact absurd ((h.writeCh_of_turn (.inr hpc)).symm.trans hfull) (by decide)
    · exact ⟨hcloses, (h.threads.fits (.flow id)).2 hpc⟩
  | release id =>
    by_cases hw : (s.pc (.flow id)).writing
    · obtain ⟨t, ht, hserved⟩ := h.release hw
      exact ⟨_, .add _, t, (if_pos hw).trans ht, hserved⟩
    · exact ⟨_, .same, s, if_neg hw, h, .inl ⟨rfl, rfl⟩⟩
  | cancelContext id =>
    have hfits := h.threads.fits (.flow id)
    refine ⟨_, .same, _, rfl, h.setFlags id (fun v hv ↦ update_of_ne hv _ _) (fun _ _ ↦ rfl)
      ⟨fun hfull ↦ ?_, fun _ ↦ update_self ..⟩, .inl ⟨rfl, rfl⟩⟩
    exact (hfits.1 hfull).imp_right (Or.imp_right fun hor ↦ ⟨update_self .., hor.2⟩)
  | close id => exact ⟨_, .same, h.close id⟩
  | setDeadlineContext id =>
    obtain ⟨hpc, hclosed⟩ := of_decide_eq_true ha
    have hch : s.writeCh (.flow id) = false :=
      h.writeCh_eq_false (by simp [MayBeFull, hpc, hclosed])
    refine ⟨_, .same, _, rfl, h.setFlags id (fun v hv ↦ update_of_ne hv _ _) (fun _ _ ↦ rfl)
      (fits_of_writeCh hch ?_), .inl ⟨rfl, rfl⟩⟩
    rw [hpc]
    decide

/-! ## Turns -/

theorem turns_notify {w : Option Writer} (h : s.notifyNextWriterLocked w = some t)
    (hturns : t.turns ≠ s.turns) (hu : s.writing = some u) : w = some u := by
  by_contra hne
  have hw : s.writing ≠ w := fun heq ↦ hne (heq.symm.trans hu)
  have hnone : s.writing ≠ none := by rw [hu]; exact some_ne_none u
  rw [notifyNextWriterLocked, if_neg hw, if_neg hnone] at h
  cases h
  exact hturns rfl

theorem activateWriterLocked_turns (s : Sched) (w : Writer) :
    (s.activateWriterLocked w).turns = s.turns ∧
      (s.activateWriterLocked w).writing = s.writing := by
  rw [activateWriterLocked]
  split
  · exact ⟨rfl, rfl⟩
  · split <;> exact ⟨rfl, rfl⟩

theorem deactivateWriterLocked_turns (s : Sched) (w : Writer) :
    (s.deactivateWriterLocked w).turns = s.turns ∧
      (s.deactivateWriterLocked w).writing = s.writing := by
  rw [deactivateWriterLocked]
  split <;> exact ⟨rfl, rfl⟩

/-- **A turn is given only after the one before it has been given up.** -/
theorem givesUp_of_turns (h : s.exec a = some t) (hturns : t.turns ≠ s.turns)
    (hu : s.writing = some u) : a.givesUp = some u := by
  have hactivate (w : Writer) := activateWriterLocked_turns (s.setPc w .waiting) w
  have hfinish {s₀ : Sched} {w : Writer} {closes : Bool} (hs₀ : s₀.turns = s.turns)
      (hw : s₀.writing = s.writing) (ht : s₀.finishWrite w closes = some t) : some w = some u := by
    obtain ⟨h₁, h₂⟩ := deactivateWriterLocked_turns (s₀.setPc w (afterWrite w closes)) w
    exact turns_notify ht (by rw [h₁]; exact hs₀ ▸ hturns) (h₂.trans (hw.trans hu))
  cases a with
  | start id noParts alsoClose =>
    obtain ⟨h₁, h₂⟩ := hactivate (.flow id)
    obtain _ | _ := noParts
    · exact turns_notify h (by rw [h₁]; exact hturns) (h₂.trans hu)
    · exact hfinish h₁ h₂ h
  | sendMessage id p =>
    obtain ⟨h₁, h₂⟩ := hactivate (.single id p)
    exact turns_notify h (by rw [h₁]; exact hturns) (h₂.trans hu)
  | noTokens id =>
    obtain ⟨h₁, h₂⟩ := deactivateWriterLocked_turns (s.setPc (.flow id) .waiting) (.flow id)
    exact turns_notify h (by rw [h₁]; exact hturns) (h₂.trans hu)
  | sendMore id => exact turns_notify h hturns hu
  | finish w closes => exact hfinish rfl rfl h
  | release id =>
    rw [exec] at h
    split at h
    · obtain ⟨h₁, h₂⟩ := activateWriterLocked_turns s (.flow id)
      exact turns_notify h (by rw [h₁]; exact hturns) (h₂.trans hu)
    · cases h
      exact absurd rfl hturns
  | receive w => obtain id | ⟨id, p⟩ := w <;> cases h <;> exact absurd rfl hturns
  | close id =>
    cases h
    refine absurd ?_ hturns
    split <;> rfl
  | check | cancel | send | cancelContext | setDeadlineContext => cases h; exact absurd rfl hturns

/-- A writer that stays active keeps its place before the queue is served. -/
theorem Edit.ahead {q' : Priority → List Writer} (h : Edit q q') {w : Writer}
    (hq : ∀ p, (q p).Nodup) (hv : v ∈ q' v.priority)
    (hahead : Ahead v w (q v.priority)) : Ahead v w (q' v.priority) := by
  have hadd (x : Writer) : Ahead v w (enqueue x q v.priority) ∧ (enqueue x q v.priority).Nodup := by
    rw [enqueue]
    split
    · exact ⟨hahead, hq _⟩
    · next hx =>
      by_cases hp : v.priority = x.priority
      · rw [hp, update_self]
        rw [hp] at hahead
        refine ⟨hahead.append x, nodup_append.mpr ⟨hq _, nodup_singleton x, ?_⟩⟩
        rintro a ha b hb rfl
        exact hx (mem_singleton.mp hb ▸ ha)
      · rw [update_of_ne hp]
        exact ⟨hahead, hq _⟩
  have hdrop {r : Priority → List Writer} (x : Writer) (hr : Ahead v w (r v.priority))
      (hnodup : (r v.priority).Nodup) (hv : v ∈ dequeue x r v.priority) :
      Ahead v w (dequeue x r v.priority) := by
    rw [dequeue] at hv ⊢
    by_cases hp : v.priority = x.priority
    · rw [← hp, update_self] at hv ⊢
      refine hr.erase hnodup ?_
      rintro rfl
      exact (hnodup.mem_erase_iff.mp hv).1 rfl
    · rw [update_of_ne hp]
      exact hr
  cases h with
  | same => exact hahead
  | add x => exact (hadd x).1
  | drop x => exact hdrop x hahead (hq _) hv
  | both x => exact hdrop x (hadd x).1 (hadd x).2 hv

/-- A step in which `v` stays active. -/
def stepStaying (v : Writer) (s : Sched) (a : Action) : Option Sched :=
  (s.step a).filter fun t ↦ decide (v ∈ t.queue v.priority)

/-- What a run in which `v` stays active keeps: of the turns since it began, those of `v` come
between those of `w`. -/
structure Waits (v w : Writer) (base : List Writer) (s : Sched) : Prop where
  inv : s.Inv
  mem : v ∈ s.queue v.priority
  fair : ∃ turns, s.turns = base ++ turns ∧ Fair v w turns (s.queue v.priority)

theorem Waits.step {w : Writer} {base : List Writer} (hvw : v ≠ w) (hprio : v.priority = w.priority)
    (h : s.Waits v w base) (ht : s.stepStaying v a = some t) : t.Waits v w base := by
  obtain ⟨hstep, hstay⟩ := filter_eq_some_iff.mp ht
  have hmem : v ∈ t.queue v.priority := of_decide_eq_true hstay
  obtain ⟨ha, hstep⟩ := ite_none_right_eq_some.mp hstep
  obtain ⟨q, hedit, t', hexec, hinv, hserved⟩ := h.inv.exec ha
  obtain rfl := some.inj (hexec.symm.trans hstep)
  obtain ⟨turns, hturns, hfair⟩ := h.fair
  have hnodup (p : Priority) := (h.inv.rings.ring p).nodup
  have hahead (hv : v ∈ q v.priority) (hold : Ahead v w (s.queue v.priority)) :
      Ahead v w (q v.priority) := hedit.ahead hnodup hv hold
  rcases hserved with ⟨hqueue, hsame⟩ | ⟨x, l, hx, -, hqueue, hnew, -⟩
  · refine ⟨hinv, hmem, turns, hsame.trans hturns, hfair.mono fun hold ↦ ?_⟩
    rw [hqueue] at hmem ⊢
    exact hahead hmem hold
  · have hv : v ∈ q v.priority := mem_of_mem_serve (hqueue ▸ hmem)
    have hne (hold : Ahead v w (q v.priority)) : x ≠ w := by
      rintro rfl
      rw [hprio, hx] at hold
      refine hold.head_ne hvw ?_ rfl
      have hrot := (hinv.rings.ring x.priority).nodup
      rwa [hqueue, serve, update_self, hx, nodup_rotate] at hrot
    refine ⟨hinv, hmem, turns ++ [x], by rw [hnew, hturns, append_assoc],
      (hfair.mono (hahead hv)).serve ?_ (fun hold ↦ hne hold) ?_⟩
    · rintro rfl
      rw [hqueue, hprio, serve, update_self, hx]
      rw [hprio, hx] at hv
      exact ahead_rotate_self ((mem_cons.mp hv).resolve_left hvw)
    · intro hxv hold
      rw [hqueue, serve]
      by_cases hp : v.priority = x.priority
      · rw [hp, update_self, hx]
        have hxw := hne hold
        rw [hp, hx] at hold
        exact hold.rotate hxv hxw
      · rwa [update_of_ne hp]

/-- What a step does to the turns: it gives none, or one, to a writer of the highest priority that
has active writers, after whoever had the turn gave it up. -/
def Granted (s : Sched) (a : Action) (t : Sched) : Prop :=
  t.turns = s.turns ∨
    ∃ v, t.turns = s.turns ++ [v] ∧ t.writing = some v ∧ v ∈ t.queue v.priority ∧
      (∀ p : Priority, p.index < v.priority.index → t.queue p = []) ∧
      ∀ u, s.Holds u → a.givesUp = some u

theorem Inv.granted (h : s.Inv) (ha : s.enabled a) :
    ∃ t, s.exec a = some t ∧ t.Inv ∧ Granted s a t := by
  obtain ⟨q, -, t, hexec, hinv, hserved⟩ := h.exec ha
  refine ⟨t, hexec, hinv, ?_⟩
  rcases hserved with ⟨-, hsame⟩ | ⟨v, l, hv, hhigher, hqueue, hnew, hwriting⟩
  · exact .inl hsame
  have hturns : t.turns ≠ s.turns := by
    rw [hnew]
    exact fun heq ↦ cons_ne_nil v [] (append_right_eq_self.mp heq)
  refine .inr ⟨v, hnew, hwriting, ?_, fun p hp ↦ ?_,
    fun u hu ↦ givesUp_of_turns hexec hturns ((h.turn u).mp hu)⟩
  · rw [hqueue, serve, update_self, hv]
    exact mem_rotate.mpr mem_cons_self
  · have hne : p ≠ v.priority := fun heq ↦ lt_irrefl _ (heq ▸ hp)
    rw [hqueue, serve, update_of_ne hne]
    exact hhigher p hp

theorem inv_of_run {as : List Action} (h : run step new as = some s) : s.Inv := by
  refine run_invariant (fun s a t hs ht ↦ ?_) inv_new h
  obtain ⟨ha, ht⟩ := ite_none_right_eq_some.mp ht
  obtain ⟨t', hexec, hinv, -⟩ := hs.granted ha
  obtain rfl := some.inj (hexec.symm.trans ht)
  exact hinv

/-- **Turns are given soundly and fairly.** In every reachable state the rings are those of the
active writers, the one writer that holds the turn is `c.writing`, and some writer holds it if some
writer is active. No action blocks on a full channel or closes one twice; a turn goes to a writer of
the highest priority, after the last one was given up. While `v` stays active, it gets a turn
between any two turns of another writer of its priority. -/
theorem turns_sound_and_fair {as : List Action} {s : Sched} (h : run step new as = some s) :
    Rings s.links s.activeWriters s.queue ∧ (∀ w, s.Holds w ↔ s.writing = some w) ∧
      (∀ p, s.queue p ≠ [] → ∃ w, s.Holds w) ∧
      (∀ a, s.enabled a → ∃ t, s.exec a = some t ∧ Granted s a t) ∧
      ∀ v w bs t, v ≠ w → v.priority = w.priority → v ∈ s.queue v.priority →
        run (stepStaying v) s bs = some t → ∃ turns, t.turns = s.turns ++ turns ∧
          ∀ a b c, turns = a ++ w :: b ++ w :: c → v ∈ b := by
  have hinv := inv_of_run h
  refine ⟨hinv.rings, hinv.turn, fun p hp ↦ ?_, fun a ha ↦ ?_, fun v w bs t hvw hprio hv hrun ↦ ?_⟩
  · obtain ⟨w, hw⟩ := Option.ne_none_iff_exists'.mp (hinv.busy p hp)
    exact ⟨w, (hinv.turn w).mpr hw⟩
  · obtain ⟨t, hexec, -, hgranted⟩ := hinv.granted ha
    exact ⟨t, hexec, hgranted⟩
  · have hwaits : s.Waits v w s.turns := ⟨hinv, hv, [], (List.append_nil _).symm, fair_nil⟩
    obtain ⟨turns, hturns, hfair⟩ :=
      (run_invariant (fun _ _ _ hs ht ↦ Waits.step hvw hprio hs ht) hwaits hrun).fair
    exact ⟨turns, hturns, hfair.between⟩

/-- Two flows that have more and more to write. -/
theorem turns_sound_and_fair_two_flows :
    ∃ s t, run step new
        [.check 1, .start 1 false false, .check 2, .start 2 false false] = some s ∧
      run (stepStaying (.flow 2)) s
        [.receive (.flow 1), .send 1, .sendMore 1, .receive (.flow 1), .send 1, .sendMore 1,
          .receive (.flow 2), .send 2, .sendMore 2] = some t ∧
      t.turns = [.flow 1, .flow 1, .flow 2, .flow 1] ∧ (∃ w, s.Holds w) ∧
      ∃ turns, t.turns = s.turns ++ turns ∧
        ∀ a b c, turns = a ++ Writer.flow 1 :: b ++ Writer.flow 1 :: c → Writer.flow 2 ∈ b := by
  have hany : (run step new
      [.check 1, .start 1 false false, .check 2, .start 2 false false]).any (fun s ↦
        decide (Writer.flow 2 ∈ s.queue .flow) &&
        (run (stepStaying (.flow 2)) s
          [.receive (.flow 1), .send 1, .sendMore 1, .receive (.flow 1), .send 1, .sendMore 1,
            .receive (.flow 2), .send 2, .sendMore 2]).any (fun t ↦
          decide (t.turns = [.flow 1, .flow 1, .flow 2, .flow 1]))) = true := by
    decide +kernel
  obtain ⟨s, hs, hP⟩ := exists_run_of_any hany
  obtain ⟨hmem, hrest⟩ := Bool.and_eq_true_iff.mp hP
  have hmem := of_decide_eq_true hmem
  obtain ⟨t, ht, hturns⟩ := exists_run_of_any hrest
  obtain ⟨-, -, hbusy, -, hfair⟩ := turns_sound_and_fair hs
  exact ⟨s, t, hs, ht, of_decide_eq_true hturns, hbusy .flow (List.ne_nil_of_mem hmem),
    hfair (.flow 2) (.flow 1) _ t (by decide) rfl hmem ht⟩

end Sched

end Vanadium.Flow
