import Vanadium.Agent.IpcCalls

/-!
# No goroutine is left behind

The goroutines of a connection have work left (`work`), and every step of theirs makes it less. A
goroutine that has not returned can take a step, or it waits for `c.mu`, which the goroutine of
`negotiateVersion` holds, and that can take a step. So when a connection is closed its goroutines
return, and then each of its calls has one result.
-/

namespace Vanadium.Agent

open Foundations Transition List Option Transition

/-! ## Work -/

def ReadLoop.work : ReadLoop → ℕ
  | .negotiating => 5
  | .reading => 4
  | .responding _ _ _ => 6
  | .delivering _ _ _ => 5
  | .stuck => 0
  | .returned => 0

def Closing.work : Closing → ℕ
  | .unlist _ => 3
  | .closeConn _ => 2
  | .failCalls => 1

/-- The step is one of a goroutine of the connection: not a new call, a new message or a new call of
`Close`. -/
def ConnAction.internal : ConnAction → Bool
  | .call _ _ => false
  | .close => false
  | .receive _ => false
  | _ => true

namespace IpcConn

/-- A bound on the steps that the goroutines of a connection can take. -/
def work (c : IpcConn) : ℕ :=
  (if c.locked then 4 else 0) + 4 * c.starting.length + 4 * c.handling.length + 5 * c.inbox.length +
    c.readLoop.work + (c.closing.map Closing.work).sum

variable {c c' : IpcConn} {r : ReadLoop} {i : ℕ}

theorem work_beginClose (c : IpcConn) (fails : Bool) : (c.beginClose fails).work = c.work + 3 := by
  unfold work beginClose
  rw [map_append, sum_append]
  rfl

theorem sum_eraseIdx {x : Closing} (hi : c.closing[i]? = some x) :
    (c.closing.map Closing.work).sum = x.work + ((c.closing.eraseIdx i).map Closing.work).sum := by
  obtain ⟨hlt, rfl⟩ := List.getElem?_eq_some_iff.mp hi
  rw [← ((List.getElem_cons_eraseIdx_perm hlt).map Closing.work).sum_eq, List.map_cons,
    List.sum_cons]

theorem sum_set {x y : Closing} (hi : c.closing[i]? = some x) :
    ((c.closing.set i y).map Closing.work).sum =
      y.work + ((c.closing.eraseIdx i).map Closing.work).sum := by
  obtain ⟨hlt, -⟩ := List.getElem?_eq_some_iff.mp hi
  rw [((List.set_perm_cons_eraseIdx hlt y).map Closing.work).sum_eq, List.map_cons, List.sum_cons]

theorem work_setClosing {closing : List Closing}
    (h : (closing.map Closing.work).sum < (c.closing.map Closing.work).sum) :
    work { c with closing := closing } < c.work :=
  Nat.add_lt_add_left h _

theorem work_advance (h : c.advance i = some c') : c'.work < c.work := by
  unfold advance at h
  split at h
  · exact nomatch h
  · next fails hi =>
    obtain rfl := some.inj h
    refine work_setClosing ?_
    rw [sum_set hi, sum_eraseIdx hi]
    exact Nat.add_lt_add_right (by decide : 2 < 3) _
  · next fails hi =>
    obtain rfl := some.inj h
    refine work_setClosing ?_
    rw [sum_eraseIdx hi]
    rcases fails with _ | _
    · exact Nat.lt_add_of_pos_left (by decide : 0 < 2)
    · rw [if_pos rfl, sum_set hi]
      exact Nat.add_lt_add_right (by decide : 1 < 2) _
  · next hi =>
    obtain ⟨-, ⟨⟩⟩ := ite_none_left_eq_some.mp h
    have hfail : work { c.failCalls with closing := c.closing.eraseIdx i } =
        work { c with closing := c.closing.eraseIdx i } := by
      unfold failCalls
      split <;> rfl
    rw [hfail]
    refine work_setClosing ?_
    rw [sum_eraseIdx hi]
    exact Nat.lt_add_of_pos_left (by decide : 0 < 1)

theorem work_startCall (c : IpcConn) (r : Starting) (write : Write) :
    (c.startCall r write).work ≤ c.work + 3 := by
  unfold startCall
  match write with
  | .headerFails => exact Nat.le_add_right _ 3
  | .argFails => exact (work_beginClose _ true).le
  | .done =>
    dsimp only
    split
    · exact Nat.le_add_right _ 3
    · exact Nat.le_add_right _ 3

theorem lt_of_add_eq_add {m n j k : ℕ} (h : m + j = n + k) (hlt : k < j) : m < n := by
  omega

theorem work_setReadLoop (r' : ReadLoop) (hloop : c.readLoop = r) :
    work { c with readLoop := r' } + r.work = c.work + r'.work := by
  unfold work
  rw [hloop]
  dsimp only
  omega

theorem work_return (fails : Bool) (hloop : c.readLoop = r) :
    work { c.beginClose fails with readLoop := .returned } + r.work = c.work + 3 :=
  (work_setReadLoop (c := c.beginClose fails) .returned hloop).trans (work_beginClose c fails)

/-! What is taken out by a step, before anything is added. -/

theorem work_unlock (h : c.locked = true) : work { c with locked := false } + 4 = c.work := by
  unfold work
  rw [h]
  simp only [Bool.false_eq_true, if_false, if_true]
  omega

theorem work_takeStarting (hi : i < c.starting.length) :
    work { c with starting := c.starting.eraseIdx i } + 4 = c.work := by
  unfold work
  dsimp only
  rw [length_eraseIdx_of_lt hi]
  omega

theorem work_takeHandling (hi : i < c.handling.length) :
    work { c with handling := c.handling.eraseIdx i } + 4 = c.work := by
  unfold work
  dsimp only
  rw [length_eraseIdx_of_lt hi]
  omega

theorem work_takeInbox {m : Message} {inbox : List Message} (h : c.inbox = m :: inbox) :
    work { c with inbox := inbox } + 5 = c.work := by
  unfold work
  dsimp only
  rw [h, length_cons]
  omega

/-! The steps of the read loop. -/

theorem work_readMessage (m : Message) (hloop : c.readLoop = .reading) :
    (c.readMessage m).work ≤ c.work + 4 := by
  match m with
  | .request id =>
    have hhandle : (c.readMessage (.request id)).work = c.work + 4 := by
      unfold work readMessage
      dsimp only
      rw [length_append, length_singleton]
      omega
    exact hhandle.le
  | .response id numArgs err =>
    have hset : _ + 4 = c.work + 6 := work_setReadLoop (.responding id numArgs err) hloop
    exact Nat.le_of_add_le_add_right (hset.trans_le (by omega : _ ≤ c.work + 4 + 4))
  | .unsupported =>
    have hset : _ + 4 = c.work + 3 := work_return true hloop
    exact Nat.le_of_add_le_add_right (hset.trans_le (by omega : _ ≤ c.work + 4 + 4))

theorem work_lookupResp {id numArgs : ℕ} {err : Option String}
    (hloop : c.readLoop = .responding id numArgs err) :
    (c.lookupResp id numArgs err).work < c.work := by
  unfold lookupResp
  split
  · exact lt_of_add_eq_add (work_setReadLoop .stuck hloop) (by decide : 0 < 6)
  · next info _ =>
    exact lt_of_add_eq_add
      (work_setReadLoop (.delivering info.call (numArgs == info.numResults) err) hloop)
      (by decide : 5 < 6)

theorem work_deliver {call : ℕ} {expected : Bool} {err : Option String}
    (hloop : c.readLoop = .delivering call expected err) (ok : Bool) :
    (c.deliver call expected err ok).work < c.work := by
  have hread : work { c with readLoop := .reading } < c.work :=
    lt_of_add_eq_add (work_setReadLoop .reading hloop) (by decide : 4 < 5)
  unfold deliver
  split
  · split
    · exact hread
    · exact lt_of_add_eq_add (work_return true hloop) (by decide : 3 < 5)
  · exact hread

/-- Every step of a goroutine makes the work less. -/
theorem work_step {a : ConnAction} (ha : a.internal = true) (h : c.step a = some c') :
    c'.work < c.work := by
  match a with
  | .sendVersion ok =>
    obtain ⟨hnot, ⟨⟩⟩ := ite_none_left_eq_some.mp h
    have hunlock := work_unlock (Bool.not_eq_false _ ▸ (not_or.mp hnot).1)
    split
    · omega
    · rw [work_beginClose]
      omega
  | .startCall i write =>
    dsimp only [step] at h
    split at h
    · exact nomatch h
    · next r hi =>
      obtain ⟨-, h⟩ := ite_none_left_eq_some.mp h
      obtain ⟨-, h⟩ := ite_none_left_eq_some.mp h
      obtain ⟨-, ⟨⟩⟩ := ite_none_left_eq_some.mp h
      have htake := work_takeStarting (List.getElem?_eq_some_iff.mp hi).1
      have hstart := work_startCall { c with starting := c.starting.eraseIdx i } r write
      omega
  | .handleReq i ok =>
    obtain ⟨hnot, ⟨⟩⟩ := ite_none_left_eq_some.mp h
    have htake := work_takeHandling (not_le.mp (not_or.mp hnot).1)
    split
    · omega
    · rw [work_beginClose]
      omega
  | .advance i => exact work_advance h
  | .readVersion minVersion maxVersion =>
    obtain ⟨hloop, ⟨⟩⟩ := ite_none_right_eq_some.mp h
    unfold readVersion
    split
    · exact lt_of_add_eq_add (work_setReadLoop .reading hloop) (by decide)
    · exact lt_of_add_eq_add (work_return false hloop) (by decide)
  | .readMessage =>
    dsimp only [step] at h
    split at h
    · next m inbox hloop hinbox =>
      obtain rfl := some.inj h
      have htake := work_takeInbox hinbox
      have hread := work_readMessage (c := { c with inbox := inbox }) m hloop
      omega
    · exact nomatch h
  | .readFails =>
    obtain ⟨hloop, ⟨⟩⟩ := ite_none_right_eq_some.mp h
    exact lt_of_add_eq_add (work_return true hloop) (by decide)
  | .lookupResp =>
    dsimp only [step] at h
    split at h
    · next hloop =>
      obtain ⟨-, ⟨⟩⟩ := ite_none_left_eq_some.mp h
      exact work_lookupResp hloop
    · exact nomatch h
  | .deliver ok =>
    dsimp only [step] at h
    split at h
    · next hloop =>
      obtain rfl := some.inj h
      exact work_deliver hloop ok
    · exact nomatch h

/-- The goroutines of a connection have returned. -/
structure Finished (c : IpcConn) : Prop where
  locked : c.locked = false
  readLoop : c.readLoop = .returned
  starting : c.starting = []
  handling : c.handling = []
  closing : c.closing = []

theorem Good.count_results_le (h : c.Good []) (k : ℕ) : (c.results.map Prod.fst).count k ≤ 1 := by
  have hk := h.accounts k
  split at hk <;> omega

/-- When the goroutines have returned, every call has one result. -/
theorem Good.count_results (h : c.Good []) (hfinished : c.Finished) {k : ℕ} (hk : k < c.calls) :
    (c.results.map Prod.fst).count k = 1 := by
  have hawaited : c.awaited = [] := by
    rcases h.returned hfinished.readLoop with hm | hnone | ⟨x, hx, -⟩
    · exact h.mismatch hm
    · unfold awaited
      rw [hnone]
    · rw [hfinished.closing] at hx
      exact nomatch hx
  have haccounts := h.accounts k
  rw [hfinished.starting, hfinished.readLoop, registered_eq_zero hawaited, if_pos hk] at haccounts
  change 0 + 0 + 0 + 0 + _ = 1 at haccounts
  omega

end IpcConn

/-! ## Goroutines -/

/-- The goroutines of all connections, and the listen loops. -/
inductive Goroutine where
  | version (i : ℕ)
  | startCall (i j : ℕ)
  | handleReq (i j : ℕ)
  | closing (i j : ℕ)
  | readLoop (i : ℕ)
  | listenLoop (j : ℕ)

namespace Goroutine

/-- The connection whose `c.mu` the goroutine may take. -/
def conn : Goroutine → Option ℕ
  | version i => some i
  | startCall i _ => some i
  | handleReq i _ => some i
  | closing i _ => some i
  | readLoop i => some i
  | listenLoop _ => none

/-- The goroutine has not returned. -/
def Running (s : Ipc) : Goroutine → Prop
  | version i => ∃ c, s.all[i]? = some c ∧ c.locked = true
  | startCall i j => ∃ c, s.all[i]? = some c ∧ j < c.starting.length
  | handleReq i j => ∃ c, s.all[i]? = some c ∧ j < c.handling.length
  | closing i j => ∃ c, s.all[i]? = some c ∧ j < c.closing.length
  | readLoop i => ∃ c, s.all[i]? = some c ∧ c.readLoop ≠ .returned
  | listenLoop j => ∃ l, s.loops[j]? = some l ∧ l ≠ .returned

/-- The steps of a goroutine. -/
def Takes : Goroutine → Action → Prop
  | version i, a => ∃ ok, a = .conn i (.sendVersion ok)
  | startCall i j, a => ∃ write, a = .conn i (.startCall j write)
  | handleReq i j, a => ∃ ok, a = .conn i (.handleReq j ok)
  | closing i j, a => a = .conn i (.advance j)
  | readLoop i, a => (∃ low high, a = .conn i (.readVersion low high)) ∨ a = .conn i .readMessage ∨
      a = .conn i .readFails ∨ a = .conn i .lookupResp ∨ ∃ ok, a = .conn i (.deliver ok)
  | listenLoop j, a => a = .startLoop j ∨ (∃ ok, a = .accept j ok) ∨ a = .adopt j

def CanStep (s : Ipc) (g : Goroutine) : Prop := ∃ a s', g.Takes a ∧ s.step a = some s'

end Goroutine

namespace Ipc

variable {s s' : Ipc} {i : ℕ} {c c' : IpcConn} {a : ConnAction} {j : ℕ} {g : Goroutine}

theorem canStep_of_conn (hmu : s.muLost = false) (hi : s.all[i]? = some c)
    (hg : g.Takes (.conn i a)) (h : c.step a = some c') : g.CanStep s := by
  have hstep : ∃ s', s.stepConn i a = some s' := by
    unfold stepConn
    rw [hi]
    dsimp only
    rw [h, hmu]
    split
    · exact ⟨_, rfl⟩
    · exact ⟨_, rfl⟩
  obtain ⟨s', hs'⟩ := hstep
  exact ⟨_, s', hg, hs'⟩

theorem canStep_version (hmu : s.muLost = false) (hi : s.all[i]? = some c)
    (hlocked : c.locked = true) : Goroutine.CanStep s (.version i) := by
  have hstep : c.step (.sendVersion false) =
    some ({ c with locked := false }.beginClose false) := by
    dsimp only [IpcConn.step]
    rw [if_neg (by simp [hlocked])]
    rfl
  exact canStep_of_conn hmu hi ⟨false, rfl⟩ hstep

theorem exists_step_startCall (hj : j < c.starting.length) (hlocked : c.locked = false) :
    ∃ c', c.step (.startCall j .headerFails) = some c' := by
  dsimp only [IpcConn.step]
  rw [getElem?_eq_getElem hj]
  dsimp only
  rw [hlocked, if_neg (by simp), if_neg (by simp), if_neg (by simp)]
  exact ⟨_, rfl⟩

theorem exists_step_handleReq (hj : j < c.handling.length) (hlocked : c.locked = false) :
    ∃ c', c.step (.handleReq j false) = some c' := by
  dsimp only [IpcConn.step]
  rw [if_neg (by simp [hlocked, hj])]
  exact ⟨_, rfl⟩

theorem exists_step_advance (hj : j < c.closing.length) (hlocked : c.locked = false) :
    ∃ c', c.step (.advance j) = some c' := by
  dsimp only [IpcConn.step, IpcConn.advance]
  rw [getElem?_eq_getElem hj]
  match c.closing[j] with
  | .unlist _ => exact ⟨_, rfl⟩
  | .closeConn _ => exact ⟨_, rfl⟩
  | .failCalls =>
    rw [hlocked, if_neg (by simp)]
    exact ⟨_, rfl⟩

/-- The read loop has a step unless it is stuck or has to wait for `c.mu`. -/
theorem exists_step_readLoop (hreturned : c.readLoop ≠ .returned) (hstuck : c.readLoop ≠ .stuck)
    (hlocked : c.locked = false) (i : ℕ) :
    ∃ a c', Goroutine.Takes (.readLoop i) (.conn i a) ∧ c.step a = some c' := by
  match hloop : c.readLoop with
  | .negotiating => exact ⟨.readVersion 1 1, c.readVersion 1 1, .inl ⟨1, 1, rfl⟩, if_pos hloop⟩
  | .reading =>
    exact ⟨.readFails, { c.beginClose true with readLoop := .returned },
      .inr (.inr (.inl rfl)), if_pos hloop⟩
  | .responding id numArgs err =>
    refine ⟨.lookupResp, c.lookupResp id numArgs err, .inr (.inr (.inr (.inl rfl))), ?_⟩
    dsimp only [IpcConn.step]
    rw [hloop]
    dsimp only
    rw [hlocked, if_neg (by simp)]
  | .delivering call expected err =>
    refine ⟨.deliver true, c.deliver call expected err true,
      .inr (.inr (.inr (.inr ⟨true, rfl⟩))), ?_⟩
    dsimp only [IpcConn.step]
    rw [hloop]
  | .stuck => exact absurd hloop hstuck
  | .returned => exact absurd hloop hreturned

/-- No goroutine has lost `ipc.mu`, and the connections are in order. -/
structure Good (s : Ipc) : Prop where
  mu : s.muLost = false
  conns : ∀ c ∈ s.all, c.Good []

/-- A goroutine that has not returned can take a step, or waits for one that can. -/
theorem Good.canStep (h : s.Good) (hg : g.Running s) :
    g.CanStep s ∨ ∃ i, g.conn = some i ∧ Goroutine.CanStep s (.version i) := by
  -- a goroutine of a connection waits only while its lock is held
  have hwait : ∀ {i : ℕ} {c : IpcConn}, s.all[i]? = some c → g.conn = some i →
      (c.locked = false → g.CanStep s) → g.CanStep s ∨ ∃ i, g.conn = some i ∧
        Goroutine.CanStep s (.version i) := by
    intro i c hi hconn hfree
    by_cases hlocked : c.locked = true
    · exact .inr ⟨i, hconn, canStep_version h.mu hi hlocked⟩
    · exact .inl (hfree (Bool.eq_false_iff.mpr hlocked))
  match g with
  | .version i =>
    obtain ⟨c, hi, hlocked⟩ := hg
    exact .inl (canStep_version h.mu hi hlocked)
  | .startCall i j =>
    obtain ⟨c, hi, hj⟩ := hg
    refine hwait hi rfl fun hlocked ↦ ?_
    obtain ⟨c', hstep⟩ := exists_step_startCall hj hlocked
    exact canStep_of_conn h.mu hi ⟨_, rfl⟩ hstep
  | .handleReq i j =>
    obtain ⟨c, hi, hj⟩ := hg
    refine hwait hi rfl fun hlocked ↦ ?_
    obtain ⟨c', hstep⟩ := exists_step_handleReq hj hlocked
    exact canStep_of_conn h.mu hi ⟨_, rfl⟩ hstep
  | .closing i j =>
    obtain ⟨c, hi, hj⟩ := hg
    refine hwait hi rfl fun hlocked ↦ ?_
    obtain ⟨c', hstep⟩ := exists_step_advance hj hlocked
    exact canStep_of_conn h.mu hi rfl hstep
  | .readLoop i =>
    obtain ⟨c, hi, hreturned⟩ := hg
    refine hwait hi rfl fun hlocked ↦ ?_
    have hstuck := (h.conns c (mem_of_getElem? hi)).unstuck
    obtain ⟨a, c', ha, hstep⟩ := exists_step_readLoop hreturned hstuck hlocked i
    exact canStep_of_conn h.mu hi ha hstep
  | .listenLoop j =>
    obtain ⟨l, hj, hreturned⟩ := hg
    left
    match l with
    | .starting => exact ⟨.startLoop j, _, .inl rfl, if_neg (by simp [h.mu, hj])⟩
    | .accepting => exact ⟨.accept j false, _, .inr (.inl ⟨false, rfl⟩), if_neg (by simp [hj])⟩
    | .accepted =>
      have hadopt : ∃ s', s.step (.adopt j) = some s' := by
        dsimp only [step]
        rw [if_neg (by simp [h.mu, hj])]
        split
        · exact ⟨_, rfl⟩
        · exact ⟨_, rfl⟩
      obtain ⟨s', hs'⟩ := hadopt
      exact ⟨.adopt j, s', .inr (.inr rfl), hs'⟩
    | .returned => exact absurd rfl hreturned

/-! ## Runs -/

/-- The condition for all connections. And a connection is not accepted after `Close` has been
called. -/
def Checked (s : Ipc) : Action → Prop
  | .conn i a => ∀ c ∈ s.all[i]?, c.Checked a
  | .adopt _ => s.listening = true
  | _ => True

instance (s : Ipc) (a : Action) : Decidable (Checked s a) := by
  unfold Checked
  split <;> infer_instance

theorem good_new : Ipc.new.Good := ⟨rfl, fun _ h ↦ nomatch h⟩

theorem Good.newConn (h : s.Good) : s.newConn.Good := by
  refine ⟨h.mu, fun c hc ↦ ?_⟩
  rcases mem_append.mp hc with hc | hc
  · exact h.conns c hc
  · rw [mem_singleton.mp hc]
    exact IpcConn.good_new

theorem Good.stepConn (h : s.Good) (hchecked : ∀ c ∈ s.all[i]?, c.Checked a)
    (hstep : s.stepConn i a = some s') : s'.Good := by
  unfold Ipc.stepConn at hstep
  split at hstep
  · exact nomatch hstep
  · next c hi =>
    have hset : ∀ c', c.step a = some c' → ∀ x ∈ s.all.set i c', x.Good [] := by
      intro c' hc' x hx
      rcases mem_or_eq_of_mem_set hx with hx | rfl
      · exact h.conns x hx
      · exact (h.conns c (mem_of_getElem? hi)).step (hchecked c hi) hc'
    split at hstep
    · obtain ⟨-, hstep⟩ := ite_none_left_eq_some.mp hstep
      obtain ⟨c', hc', rfl⟩ := map_eq_some_iff.mp hstep
      exact ⟨h.mu, hset c' hc'⟩
    · obtain ⟨c', hc', rfl⟩ := map_eq_some_iff.mp hstep
      exact ⟨h.mu, hset c' hc'⟩

theorem Good.step {a : Action} (h : s.Good)
    (hstep : guarded Checked Ipc.step s a = some s') : s'.Good := by
  obtain ⟨hchecked, hstep⟩ := guarded_eq_some_iff.mp hstep
  match a with
  | .conn i a => exact h.stepConn hchecked hstep
  | .listen ok | .startLoop j | .accept j ok =>
    obtain ⟨-, ⟨⟩⟩ := ite_none_left_eq_some.mp hstep
    exact ⟨h.mu, h.conns⟩
  | .connect =>
    obtain ⟨-, ⟨⟩⟩ := ite_none_left_eq_some.mp hstep
    exact h.newConn
  | .close =>
    obtain ⟨-, ⟨⟩⟩ := ite_none_left_eq_some.mp hstep
    refine ⟨h.mu, fun c hc ↦ ?_⟩
    obtain ⟨i, hi, rfl⟩ := mem_mapIdx.mp hc
    have hgood := h.conns _ (getElem_mem hi)
    split
    · exact hgood.shut
    · exact hgood
  | .adopt j =>
    obtain ⟨-, hstep⟩ := ite_none_left_eq_some.mp hstep
    have hlistening : s.listening = true := hchecked
    rw [if_pos hlistening] at hstep
    obtain rfl := some.inj hstep
    exact ⟨h.mu, h.newConn.conns⟩

/-- A call is made, it gets its response, and the connection is closed. -/
def sampleRun : List Action :=
  [.connect, .conn 0 (.sendVersion true), .conn 0 (.readVersion 1 1), .conn 0 (.call 1 0),
    .conn 0 (.startCall 0 .done), .conn 0 (.receive (.response 0 0 none)), .conn 0 .readMessage,
    .conn 0 .lookupResp, .conn 0 (.deliver true), .close, .conn 0 .readFails, .conn 0 (.advance 0),
    .conn 0 (.advance 0), .conn 0 (.advance 0)]

/-- The read loop is stuck for ever, and not because of `c.mu`. -/
theorem not_canStep_of_stuck (hi : s.all[i]? = some c) (hloop : c.readLoop = .stuck)
    (hlocked : c.locked = false) :
    Goroutine.Running s (.readLoop i) ∧ ¬Goroutine.CanStep s (.readLoop i) ∧
      ¬Goroutine.CanStep s (.version i) := by
  have hnone : ∀ a s', c.step a = none → s.step (.conn i a) ≠ some s' := by
    intro a s' ha
    change s.stepConn i a ≠ some s'
    unfold stepConn
    rw [hi]
    simp [ha]
  refine ⟨⟨c, hi, ?_⟩, ?_, ?_⟩
  · rw [hloop]
    exact nofun
  · rintro ⟨a, s', htakes, hstep⟩
    rcases htakes with ⟨low, high, rfl⟩ | rfl | rfl | rfl | ⟨ok, rfl⟩ <;>
      exact hnone _ s' (by simp [IpcConn.step, hloop]) hstep
  · rintro ⟨a, s', ⟨ok, rfl⟩, hstep⟩
    exact hnone _ s' (by simp [IpcConn.step, hlocked]) hstep

/-- A response to no call. -/
def strayResponse : List Action :=
  [.connect, .conn 0 (.sendVersion true), .conn 0 (.readVersion 1 1),
    .conn 0 (.receive (.response 7 0 none)), .conn 0 .readMessage, .conn 0 .lookupResp]

/-- A call is made before the other process sends a version that does not fit. -/
def wrongVersion : List Action :=
  [.connect, .conn 0 (.sendVersion true), .conn 0 (.call 0 0), .conn 0 (.startCall 0 .done),
    .conn 0 (.readVersion 2 2), .conn 0 (.advance 0), .conn 0 (.advance 0)]

/-- A connection is accepted while `Close` is called. -/
def lateAccept : List Action := [.listen true, .startLoop 0, .accept 0 true, .close, .adopt 0]

end Ipc

end Vanadium.Agent
