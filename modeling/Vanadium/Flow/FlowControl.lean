import Vanadium.Flow.Link

/-!
# Flow control never overruns the receiver

Two connections that exchange messages in order. As long as a writer that borrows takes its turns
only while its flow is in `c.flows`, no `put` reports `ErrCounterOverflow` and no counter becomes
negative.

The ledgers of all flows in both directions are safe in every reachable state. For this a flow must
be opened at most once, by a peer that has it, with the whole window; `Link` keeps count.
-/

namespace Vanadium.Tokens

open Foundations Foundations.Transition Foundations.Credit Conn List
open Vanadium.Flow (defaultBytesBufferedPerFlow)

/-! ## Opening a flow -/

theorem opensFor_eq_zero {w : List Message} {k : ℕ}
    (h : ∀ init size closeFlag, Message.openFlow k init size closeFlag ∉ w) : opensFor w k = 0 := by
  refine sum_eq_zero fun n hn ↦ ?_
  obtain ⟨m, hm, rfl⟩ := mem_map.mp hn
  rcases m with ⟨id, init, size, closeFlag⟩ | _ | _
  · refine if_neg fun hid ↦ ?_
    subst hid
    exact h _ _ _ hm
  · rfl
  · rfl

theorem opensFor_pos {w : List Message} {k init size : ℕ} {closeFlag : Bool}
    (h : Message.openFlow k init size closeFlag ∈ w) : 0 < opensFor w k := by
  have hone : (Message.openFlow k init size closeFlag).opens k = 1 := if_pos rfl
  have := le_sum_of_mem (mem_map_of_mem (f := (·.opens k)) h)
  rw [hone] at this
  exact this

namespace Conn

variable {c c' s r : Conn} {w v out : List Message} {k T : ℕ} {a : Action} {e : Stop}
  {closeFlag : Bool} {id init size : ℕ}

/-- The flows that there are, and those that can be opened. -/
inductive FlowsEffect (c : Conn) (a : Action) (c' : Conn) (out : List Message) (k : ℕ) : Prop
  | same (hknown : (c'.inbox k).known = (c.inbox k).known)
      (hopens : (c'.outbox k).opens + opensFor out k ≤ (c.outbox k).opens)
  | dial (ha : a = .dial) (hk : k = c.nextFid) (hopens : (c'.outbox k).opens ≤ 1)
      (hknown : (c'.inbox k).known) (hout : out = [])
  | accept {init size : ℕ} {closeFlag : Bool} (ha : a = .handle (.openFlow k init size closeFlag))
      (hunknown : (c.inbox k).known = false) (hknown : (c'.inbox k).known)
      (hopens : (c'.outbox k).opens = 0) (hout : out = [])

theorem FlowsEffect.of_frame (hd : Frame c c') : FlowsEffect c a c' [] k :=
  .same (by rw [hd.inbox]) (hd.opens k).le

/-- A flow changes that there was. -/
theorem FlowsEffect.of_set {d : Conn} {id : ℕ} {f f' : Flw} (hd : d.flows = c.flows)
    (hf : c.flows.lookup id = some f) (hopens : f'.opens + opensFor out id ≤ f.opens)
    (hout : k ≠ id → opensFor out k = 0) : FlowsEffect c a (d.set id f') out k := by
  refine .same ?_ ?_
  · rw [inbox_set]
    split
    · next hk =>
      rw [hk, inbox_of_lookup hf]
      rfl
    · rw [inbox_congr hd]
  · rw [outbox_set]
    split
    · next hk =>
      rw [hk, outbox_of_lookup hf]
      exact hopens
    · next hk =>
      rw [outbox_congr hd, hout hk]
      exact le_rfl

theorem flowsEffect_of_effect (heff : Effect c a c' out) (k : ℕ) : FlowsEffect c a c' out k := by
  have hquiet {d : Conn} (hd : d.flows = c.flows) (hout : opensFor out k = 0) :
      FlowsEffect c a d out k := by
    refine .same (by rw [inbox_congr hd]) ?_
    rw [outbox_congr hd, hout]
    exact le_rfl
  cases heff with
  | status | noop | handleData => exact hquiet rfl rfl
  | quiet hf same hr hout =>
    have hzero (k : ℕ) : opensFor out k = 0 := by rcases hout with rfl | rfl <;> rfl
    refine .of_set rfl hf ?_ fun _ ↦ hzero k
    rw [hzero]
    exact same.opens
  | dial =>
    by_cases hk : k = c.nextFid
    · refine .dial rfl hk ?_ ?_ rfl
      · rw [outbox_set, if_pos hk]
        exact le_rfl
      · rw [inbox_set, if_pos hk]
        rfl
    · refine .same ?_ ?_
      · rw [inbox_set, if_neg hk]
        rfl
      · rw [outbox_set, if_neg hk]
        exact le_rfl
  | borrow hf hb hle hold hnew hopens | spend hf hb hle hold hnew hopens =>
    exact .of_set rfl hf hopens.le fun _ ↦ rfl
  | @wire _ id f w' _ hf hnew hopens hout =>
    have hle (k : ℕ) : opensFor out k ≤ if id = k then f.opens else 0 := by
      rcases hout with rfl | ⟨closeFlag, rfl | ⟨rfl, hone⟩⟩
      · exact Nat.zero_le _
      · exact Nat.zero_le _
      · rw [hone]
        exact le_rfl
    refine .of_set rfl hf ?_ fun hk ↦ ?_
    · have := hle id
      rw [if_pos rfl] at this
      change w'.opens f.opened + _ ≤ _
      omega
    · have := hle k
      rw [if_neg (Ne.symm hk)] at this
      exact Nat.le_zero.mp this
  | @remove _ id f f' remotely hf same hclosing =>
    obtain ⟨d, g, heq, hflows, -, -, -, hg, -⟩ := finishClose_eq c id f' remotely
    rw [heq]
    refine .of_set hflows hf ?_ fun _ ↦ rfl
    have hopens : g.opens = f'.opens := congrArg Outbox.opens hg
    rw [hopens]
    exact same.opens
  | read hf | count hf | flush hf | put hf => exact .of_set rfl hf le_rfl fun _ ↦ rfl
  | sendRelease hi hout =>
    refine hquiet rfl ?_
    rcases hout with rfl | rfl <;> rfl
  | handleRelease => exact .of_frame (frame_releaseCounters _ c)
  | handleDrop hf => exact .of_frame (frame_releaseOutstanding c _ _)
  | @accept id init size closeFlag hnone hpar hidle =>
    by_cases hk : k = id
    · subst hk
      refine .accept rfl (congrArg Inbox.known (inbox_of_none hnone)) ?_ ?_ rfl
      · rw [inbox_set, if_pos rfl]
        rfl
      · rw [outbox_set, if_pos rfl]
        rfl
    · refine .same ?_ ?_
      · rw [inbox_set, if_neg hk]
        rfl
      · rw [outbox_set, if_neg hk]
        exact le_rfl

theorem known_mono (heff : Effect c a c' out) (hk : (c.inbox k).known) : (c'.inbox k).known := by
  rcases flowsEffect_of_effect heff k with ⟨hknown, -⟩ | ⟨-, -, -, hknown, -⟩ | ⟨-, -, hknown, -, -⟩
  · rw [hknown]
    exact hk
  · exact hknown
  · exact hknown

/-- A flow is opened with the whole window. -/
theorem opener_of_effect (heff : Effect c a c' out) (hm : .openFlow id init size closeFlag ∈ out) :
    init = defaultBytesBufferedPerFlow ∧ (c.inbox id).known := by
  cases heff with
  | quiet hf same hr hout | sendRelease hi hout => rcases hout with rfl | rfl <;> simp at hm
  | @wire _ id' f w' _ hf hnew hopens hout =>
    rcases hout with rfl | ⟨closeFlag', rfl | ⟨rfl, hone⟩⟩
    · cases hm
    · simp at hm
    · obtain ⟨rfl, rfl, -, -⟩ := Message.openFlow.inj (mem_singleton.mp hm)
      refine ⟨rfl, ?_⟩
      rw [inbox_of_lookup hf]
      rfl
  | _ => cases hm

theorem nextFid_of_effect (heff : Effect c a c' out) :
    c'.nextFid % 2 = c.nextFid % 2 ∧ c.nextFid ≤ c'.nextFid := by
  cases heff with
  | dial => exact ⟨Nat.add_mod_right _ 2, Nat.le_add_right _ 2⟩
  | @remove _ id f f' remotely hf same hclosing =>
    obtain ⟨d, g, heq, -, hnext, -, -, -, -⟩ := finishClose_eq c id f' remotely
    rw [heq]
    change d.nextFid % 2 = _ ∧ _ ≤ d.nextFid
    rw [hnext]
    exact ⟨rfl, le_rfl⟩
  | handleRelease =>
    rw [(frame_releaseCounters _ c).nextFid]
    exact ⟨rfl, le_rfl⟩
  | handleDrop hf =>
    rw [(frame_releaseOutstanding c _ _).nextFid]
    exact ⟨rfl, le_rfl⟩
  | _ => exact ⟨rfl, le_rfl⟩

/-! ## Both directions -/

/-- What holds in the direction from `s` to `r`. -/
structure Link (s r : Conn) (w v : List Message) : Prop where
  safe : ∀ k, k ≠ invalidFlowID → (ledger s r w v k).Safe defaultBytesBufferedPerFlow
  opens : ∀ k, (s.outbox k).opens + opensFor w k + (r.inbox k).known.toNat ≤ 1
  opener : ∀ id init size closeFlag, .openFlow id init size closeFlag ∈ w →
    init = defaultBytesBufferedPerFlow ∧ (s.inbox id).known
  knows : ∀ k, (r.inbox k).known → k % 2 = s.nextFid % 2 → (s.inbox k).known

/-- One end of a connection. -/
structure End (c : Conn) : Prop where
  conserves : ∃ T ≤ defaultBytesBufferedPerFlow, c.Conserves T
  nextFid : invalidFlowID < c.nextFid
  invalid : (c.inbox invalidFlowID).known = false

structure Joined (c d : Conn) (w v : List Message) : Prop where
  sends : Link c d w v
  receives : Link d c v w
  here : End c
  there : End d
  parity : c.nextFid % 2 ≠ d.nextFid % 2

variable {d : Conn}

theorem Joined.symm (h : Joined c d w v) : Joined d c v w :=
  ⟨h.receives, h.sends, h.there, h.here, h.parity.symm⟩

theorem sender_ne_absent (hk : (c.inbox k).known) : (c.outbox k).sender ≠ .absent := by
  rcases hf : c.flows.lookup k with _ | f
  · rw [inbox_of_none hf] at hk
    cases hk
  · rw [outbox_of_lookup hf]
    change f.sender ≠ .absent
    rw [Flw.sender]
    split <;> simp

theorem opens_of_unknown (hk : (c.inbox k).known = false) : (c.outbox k).opens = 0 := by
  rw [outbox_of_none (known_eq_false_iff.mp hk)]

theorem Link.opensFor_of_unknown (h : Link s r w v) (hk : (s.inbox k).known = false) :
    opensFor w k = 0 := by
  refine opensFor_eq_zero fun init size closeFlag hm ↦ ?_
  rw [(h.opener k init size closeFlag hm).2] at hk
  cases hk

/-- Nobody has the next flow. -/
theorem Joined.unknown_nextFid (h : Joined c d w v) :
    (c.inbox c.nextFid).known = false ∧ (d.inbox c.nextFid).known = false := by
  obtain ⟨T, -, hc⟩ := h.here.conserves
  have hunknown : (c.inbox c.nextFid).known = false := known_eq_false_iff.mpr hc.lookup_nextFid
  refine ⟨hunknown, Bool.eq_false_iff.mpr fun hk ↦ ?_⟩
  rw [h.sends.knows _ hk rfl] at hunknown
  cases hunknown

section Step

variable (h : Joined c d w (a.received ++ v)) (ha : c.borrowsOpen a) (heff : Effect c a c' out)

include h

theorem Joined.opener_received (ha : a = .handle (.openFlow id init size closeFlag)) :
    init = defaultBytesBufferedPerFlow ∧ (d.inbox id).known := by
  refine h.receives.opener id init size closeFlag (mem_append_left _ ?_)
  rw [ha]
  exact mem_singleton_self _

include heff

theorem Joined.opens_sender (k : ℕ) :
    (c'.outbox k).opens + opensFor (w ++ out) k + (d.inbox k).known.toNat ≤ 1 := by
  have hold := h.sends.opens k
  rw [opensFor_append]
  rcases flowsEffect_of_effect heff k with
    ⟨-, hopens⟩ | ⟨-, rfl, hopens, -, rfl⟩ | ⟨ha, -, -, hopens, rfl⟩
  · omega
  · obtain ⟨hc, hd⟩ := h.unknown_nextFid
    rw [h.sends.opensFor_of_unknown hc, hd]
    change _ + (0 + 0) + 0 ≤ 1
    omega
  · rw [hopens]
    rw [(h.opener_received ha).2] at hold ⊢
    change _ + _ + 1 ≤ 1 at hold
    change 0 + (_ + 0) + 1 ≤ 1
    omega

theorem Joined.opens_receiver (k : ℕ) :
    (d.outbox k).opens + opensFor v k + (c'.inbox k).known.toNat ≤ 1 := by
  have hold := h.receives.opens k
  rw [opensFor_append] at hold
  rcases flowsEffect_of_effect heff k with
    ⟨hknown, -⟩ | ⟨-, rfl, -, hknown, -⟩ | ⟨ha, hunknown, hknown, -, -⟩
  · rw [hknown]
    omega
  · obtain ⟨-, hd⟩ := h.unknown_nextFid
    have hzero := h.receives.opensFor_of_unknown hd
    rw [opensFor_append] at hzero
    rw [opens_of_unknown hd, hknown]
    change 0 + _ + 1 ≤ 1
    omega
  · have hone : 0 < opensFor a.received k := by
      rw [ha]
      exact opensFor_pos (mem_singleton_self _)
    rw [hknown]
    change _ + _ + 1 ≤ 1
    omega

theorem Joined.knows_receiver {k : ℕ} (hk : (c'.inbox k).known) (hpar : k % 2 = d.nextFid % 2) :
    (d.inbox k).known := by
  rcases flowsEffect_of_effect heff k with
    ⟨hknown, -⟩ | ⟨-, rfl, -, -, -⟩ | ⟨ha, -, -, -, -⟩
  · exact h.receives.knows k (hknown ▸ hk) hpar
  · exact absurd hpar h.parity
  · exact (h.opener_received ha).2

include ha

theorem Joined.end_step : End c' := by
  obtain ⟨T, hT, hc⟩ := h.here.conserves
  refine ⟨⟨T, hT, hc.effect ha heff⟩, h.here.nextFid.trans_le (nextFid_of_effect heff).2, ?_⟩
  rcases flowsEffect_of_effect heff invalidFlowID with
    ⟨hknown, -⟩ | ⟨-, hk, -, -, -⟩ | ⟨ha, -, -, -, -⟩
  · rw [hknown, h.here.invalid]
  · exact absurd hk h.here.nextFid.ne
  · have hk := (h.opener_received ha).2
    rw [h.there.invalid] at hk
    cases hk

/-- **A step of one end.** -/
theorem Joined.step : Joined c' d (w ++ out) v := by
  obtain ⟨T, hT, hc⟩ := h.here.conserves
  obtain ⟨hpar, -⟩ := nextFid_of_effect heff
  refine ⟨⟨fun k hk ↦ ?_, h.opens_sender heff, ?_, ?_⟩,
    ⟨fun k hk ↦ ?_, h.opens_receiver heff, ?_, ?_⟩, h.end_step ha heff, h.there, hpar ▸ h.parity⟩
  · exact safe_of_effect_sender hc hT ha heff (fun _ _ _ _ ha ↦ h.opener_received ha)
      (h.sends.safe k hk)
  · intro id init size closeFlag hm
    rcases mem_append.mp hm with hm | hm
    · obtain ⟨hinit, hk⟩ := h.sends.opener id init size closeFlag hm
      exact ⟨hinit, known_mono heff hk⟩
    · obtain ⟨hinit, hk⟩ := opener_of_effect heff hm
      exact ⟨hinit, known_mono heff hk⟩
  · intro k hk hk'
    exact known_mono heff (h.sends.knows k hk (hk'.trans hpar))
  · exact safe_of_effect_receiver heff hk
      (fun _ _ _ _ ha ↦ sender_ne_absent (h.opener_received ha).2) (h.receives.safe k hk)
  · exact fun id init size closeFlag hm ↦
      h.receives.opener id init size closeFlag (mem_append_right _ hm)
  · exact fun k ↦ h.knows_receiver heff

end Step

/-! ## What can go wrong -/

theorem withFlow_eq_error {id : ℕ} {k : Flw → Except Stop (Conn × List Message)}
    (h : c.withFlow id k = .error e) :
    e = .disabled ∨ ∃ f, c.flows.lookup id = some f ∧ k f = .error e := by
  rw [withFlow] at h
  split at h
  · exact .inl (Except.error.inj h).symm
  · next f hf => exact .inr ⟨f, hf, h⟩

/-- The tokens that a writer uses are there. -/
theorem deduct_popSizes (c : Conn) (f : Flw) (parts : List ℕ) (e : Stop) :
    c.deduct f (popSizes parts (c.tokensLocked f)).2 ≠ .error e := by
  have hle := popSizes_le parts (c.tokensLocked f)
  rw [tokensLocked] at hle ⊢
  rw [deduct]
  split
  · next hb =>
    rw [if_pos hb] at hle
    rw [if_neg (by omega)]
    simp
  · next hb =>
    rw [if_neg hb] at hle
    rw [if_neg (by omega)]
    simp

/-- Why an action fails. -/
inductive Fault (c : Conn) : Action → Stop → Prop
  | disabled {a : Action} : Fault c a .disabled
  | counterOverflow {id size : ℕ} {closeFlag : Bool} {f : Flw}
      (hr : c.readLoop = .put id size closeFlag) (hf : c.flows.lookup id = some f)
      (hlt : defaultBytesBufferedPerFlow < size + f.qSize) : Fault c .readPut .counterOverflow
  | duplicateFlow {id init size : ℕ} {closeFlag : Bool} (hk : (c.inbox id).known) :
      Fault c (.handle (.openFlow id init size closeFlag)) .duplicateFlow

theorem fault_turn {id : ℕ} (h : c.turn id = .error e) : e = .disabled := by
  rcases withFlow_eq_error h with rfl | ⟨f, hf, hk⟩
  · rfl
  split at hk
  · dsimp only at hk
    split at hk
    · cases hk
    split at hk
    · next hd => exact absurd hd (deduct_popSizes c f _ _)
    · cases hk
  · exact (Except.error.inj hk).symm

theorem fault_handle {m : Message} (h : c.handle m = .error e) : Fault c (.handle m) e := by
  unfold handle at h
  split at h
  · obtain ⟨id, init, size, closeFlag⟩ | ⟨id, size, closeFlag⟩ | counters := m
    · dsimp only at h
      split at h
      · cases h
      split at h
      · cases h
      split at h <;> cases h
      rename_i hsome
      obtain ⟨f, hf⟩ := Option.isSome_iff_exists.mp hsome
      exact .duplicateFlow (congrArg Inbox.known (inbox_of_lookup hf))
    · dsimp only at h
      split at h
      · cases h
      split at h
      · cases h
      split at h <;> cases h
    · cases h
  · cases h
    exact .disabled

theorem fault_readPut (h : c.readPut = .error e) : Fault c .readPut e := by
  rw [readPut] at h
  split at h
  · next id size closeFlag hr =>
    rcases withFlow_eq_error h with rfl | ⟨f, hf, hk⟩
    · exact .disabled
    split at hk <;> cases hk
    rename_i hq
    refine .counterOverflow hr hf ?_
    rw [putSize] at hq
    split at hq
    · cases hq
    split at hq
    · cases hq
    split at hq
    · next hlt => exact hlt
    · cases hq
  · cases h
    exact .disabled

/-- **An action that is possible fails only if a queue overflows or a flow is opened twice.** -/
theorem fault_of_exec (h : c.exec a = .error e) : Fault c a e := by
  have hnot (he : e = .disabled) : Fault c a e := by
    rw [he]
    exact .disabled
  have hflow {id : ℕ} {k : Flw → Except Stop (Conn × List Message)} (h : c.withFlow id k = .error e)
      (hk : ∀ f, k f = .error e → e = .disabled) : Fault c a e := by
    rcases withFlow_eq_error h with he | ⟨f, -, hf⟩
    · exact hnot he
    · exact hnot (hk f hf)
  cases a with
  | dial =>
    rw [exec, Conn.dial] at h
    split at h <;> cases h
    exact .disabled
  | startWrite | wired | closeCancel | closeWire | closeFinal | read =>
    refine hflow h fun f hk ↦ ?_
    split at hk <;> cases hk
    rfl
  | turn id => exact hnot (fault_turn h)
  | wire id sent err =>
    refine hflow h fun f hk ↦ ?_
    split at hk
    · dsimp only at hk
      split at hk <;> cases hk
      rfl
    · cases hk
      rfl
  | cancelWrite id =>
    refine hflow h fun f hk ↦ ?_
    split at hk
    · split at hk <;> cases hk
      rfl
    · cases hk
      rfl
  | cancelContext id => exact hflow h fun f hk ↦ by contradiction
  | close id =>
    refine hflow h fun f hk ↦ ?_
    split at hk <;> cases hk
  | closeSection id =>
    refine hflow h fun f hk ↦ ?_
    split at hk
    · split at hk
      · cases hk
      split at hk <;> cases hk
    · cases hk
      rfl
  | release id =>
    refine hflow h fun f hk ↦ ?_
    split at hk
    · cases hk
      rfl
    · dsimp only at hk
      generalize (if decide (id ∈ c.borrowing) then _ else _ : Table ℕ ℕ) = t at hk
      generalize (if decide (id ∈ c.borrowing) then invalidFlowID else id) = key at hk
      split at hk <;> cases hk
  | sendRelease i sent =>
    rw [exec, Conn.sendRelease] at h
    split at h <;> cases h
    exact .disabled
  | handle m => exact fault_handle h
  | readPut => exact fault_readPut h
  | readClose =>
    rw [exec, Conn.readClose] at h
    split at h
    · refine hflow h fun f hk ↦ ?_
      split at hk <;> cases hk
    · cases h
      exact .disabled
  | closeConn => cases h
  | closedConn =>
    rw [exec, Conn.closedConn] at h
    split at h <;> cases h
    exact .disabled

end Conn

/-! ## Two connections -/

inductive Side
  | dialer
  | acceptor
deriving DecidableEq

/-- Two connections and the messages on the wires between them. -/
structure Net where
  dialer : Conn
  acceptor : Conn
  toAcceptor : List Message
  toDialer : List Message

namespace Net

inductive Step
  /-- An action of one side. -/
  | act (side : Side) (a : Action)
  /-- One side handles the next message. -/
  | deliver (side : Side)
deriving DecidableEq

def conn (n : Net) : Side → Conn
  | .dialer => n.dialer
  | .acceptor => n.acceptor

/-- The messages for a side. -/
def inbound (n : Net) : Side → List Message
  | .dialer => n.toDialer
  | .acceptor => n.toAcceptor

/-- The messages of a side. -/
def outbound (n : Net) : Side → List Message
  | .dialer => n.toAcceptor
  | .acceptor => n.toDialer

def update (n : Net) (side : Side) (c : Conn) (w v : List Message) : Net :=
  match side with
  | .dialer => { n with dialer := c, toAcceptor := w, toDialer := v }
  | .acceptor => { n with acceptor := c, toDialer := w, toAcceptor := v }

/-- One side acts; the messages `v` are left for it. -/
def perform (n : Net) (side : Side) (a : Action) (v : List Message) : Except Stop Net :=
  match (n.conn side).exec a with
  | .error e => .error e
  | .ok (c, out) => .ok (n.update side c (n.outbound side ++ out) v)

def exec (n : Net) : Step → Except Stop Net
  | .act side a =>
    if a.received = [] then n.perform side a (n.inbound side) else .error .disabled
  | .deliver side =>
    match n.inbound side with
    | [] => .error .disabled
    | m :: v => n.perform side (.handle m) v

def step (n : Net) (a : Step) : Option Net := (n.exec a).toOption

/-- A writer that borrows takes its turn only while its flow is in `c.flows`. -/
def borrowsOpen (n : Net) : Step → Bool
  | .act side a => (n.conn side).borrowsOpen a
  | .deliver _ => true

/-- Two connections after the handshake. Each side may have been told another message size and
number of shared tokens, and may or may not accept flows. -/
def new (encapsulated handler : Side → Bool) (mtu tokens : Side → ℕ) : Net where
  dialer := Conn.new true (encapsulated .dialer) (handler .dialer) (mtu .dialer) (tokens .dialer)
  acceptor :=
    Conn.new false (encapsulated .acceptor) (handler .acceptor) (mtu .acceptor) (tokens .acceptor)
  toAcceptor := []
  toDialer := []

variable {n n' : Net}

def Joined (n : Net) : Prop := Conn.Joined n.dialer n.acceptor n.toAcceptor n.toDialer

theorem Joined.perform (h : n.Joined) {side : Side} {a : Action} {v : List Message}
    (hv : n.inbound side = a.received ++ v) (ha : (n.conn side).borrowsOpen a)
    (hn : n.perform side a v = .ok n') : n'.Joined := by
  rw [Net.perform] at hn
  split at hn <;> cases hn
  rename_i c out hexec
  have heff := effect_of_exec hexec
  rcases side with _ | _
  · change n.toDialer = _ at hv
    rw [Joined, hv] at h
    exact h.step ha heff
  · change n.toAcceptor = _ at hv
    rw [Joined, hv] at h
    exact (h.symm.step ha heff).symm

theorem step_eq_some_iff {a : Step} : n.step a = some n' ↔ n.exec a = .ok n' := by
  rw [step]
  rcases n.exec a with e | m
  · exact ⟨fun h ↦ (nomatch h), fun h ↦ (nomatch h)⟩
  · exact ⟨fun h ↦ congrArg _ (Option.some.inj h), fun h ↦ congrArg _ (Except.ok.inj h)⟩

theorem received_eq_nil_append {a : Action} (h : a.received = []) (v : List Message) :
    v = a.received ++ v := by
  rw [h, nil_append]

/-- **A step of two connections.** -/
theorem Joined.step (h : n.Joined) {a : Step} (ha : n.borrowsOpen a) (hn : n.step a = some n') :
    n'.Joined := by
  have hexec := step_eq_some_iff.mp hn
  rcases a with ⟨side, a⟩ | side
  · rw [exec] at hexec
    split at hexec
    · next hreceived => exact h.perform (received_eq_nil_append hreceived _) ha hexec
    · cases hexec
  · rw [exec] at hexec
    split at hexec
    · cases hexec
    · next m v hv => exact h.perform hv rfl hexec

/-! ## The initial state -/

/-- The blessings flow of a new connection. -/
theorem lookup_new (dialer encapsulated handler : Bool) (mtu tokens k : ℕ) :
    (Conn.new dialer encapsulated handler mtu tokens).flows.lookup k =
      if k = blessingsFlowID then
        some { newFlow true true with
          borrowing := !dialer, released := if dialer then defaultBytesBufferedPerFlow else 0 }
      else none := by
  rw [Conn.new]
  rcases dialer with _ | _
  · rw [if_neg Bool.false_ne_true, Table.lookup_insert_eq_ite]
    rfl
  · rw [if_pos rfl, releaseLocked, lookup_set]
    split
    · rfl
    · next hk =>
      rw [AList.lookup_insert_ne hk]
      rfl

theorem outbox_new (dialer encapsulated handler : Bool) (mtu tokens k : ℕ) :
    (Conn.new dialer encapsulated handler mtu tokens).outbox k =
      if k = blessingsFlowID then
        ⟨.active (if dialer then defaultBytesBufferedPerFlow else 0) 0 (!dialer), 0, 0⟩
      else ⟨.absent, 0, 0⟩ := by
  rw [outbox, lookup_new]
  split <;> rfl

theorem inbox_new (dialer encapsulated handler : Bool) (mtu tokens k : ℕ) :
    (Conn.new dialer encapsulated handler mtu tokens).inbox k =
      ⟨decide (k = blessingsFlowID), 0, 0⟩ := by
  rw [inbox, lookup_new]
  split
  · next hk =>
    rw [hk]
    rfl
  · next hk =>
    rw [decide_eq_false hk]
    rfl

theorem link_new {d d' e e' g g' : Bool} {m m' t t' : ℕ} :
    Link (Conn.new d e g m t) (Conn.new d' e' g' m' t') [] [] := by
  have hr : (Conn.new d' e' g' m' t').readLoop = .idle := by rcases d' with _ | _ <;> rfl
  have hg (k : ℕ) : (Conn.new d' e' g' m' t').granting k = [0] := by rcases d' with _ | _ <;> rfl
  refine ⟨fun k hk ↦ ?_, fun k ↦ ?_, fun _ _ _ _ hm ↦ (nomatch hm), fun k hk _ ↦ ?_⟩
  · have hledger : ledger (Conn.new d e g m t) (Conn.new d' e' g' m' t') [] [] k =
        ⟨((Conn.new d e g m t).outbox k).sender, decide (k = blessingsFlowID), 0, 0, [0]⟩ := by
      rw [ledger, inbox_new, hr, hg, outbox_new]
      split <;> rfl
    rw [hledger, outbox_new]
    split
    · next hk =>
      refine ⟨fun h ↦ absurd hk (of_decide_eq_false h),
        if d then defaultBytesBufferedPerFlow else 0, ?_, le_rfl, ?_⟩
      · rcases d with _ | _
        · exact Nat.zero_le _
        · exact le_rfl
      · rcases d with _ | _
        · exact .inr (.inl rfl)
        · exact .inl ⟨rfl, rfl⟩
    · rfl
  · rw [outbox_new, inbox_new]
    split
    · exact Nat.add_le_add_left (Bool.toNat_le _) _
    · exact Nat.add_le_add_left (Bool.toNat_le _) _
  · rw [inbox_new] at hk ⊢
    exact hk

theorem end_new (d e g : Bool) (m t : ℕ) : End (Conn.new d e g m t) := by
  refine ⟨⟨sharedTokens t, sharedTokens_le t, conserves_new d e g m t⟩, ?_, ?_⟩
  · rcases d with _ | _
    · exact Nat.succ_pos _
    · exact Nat.succ_pos _
  · rw [inbox_new]
    rfl

theorem joined_new (encapsulated handler : Side → Bool) (mtu tokens : Side → ℕ) :
    (Net.new encapsulated handler mtu tokens).Joined := by
  rw [Joined, Net.new]
  dsimp only
  exact ⟨link_new, link_new, end_new _ _ _ _ _, end_new _ _ _ _ _,
    (by decide : reservedFlows % 2 ≠ (reservedFlows + 1) % 2)⟩

/-! ## Runs -/

end Net

namespace Conn

/-- The bytes on their way to a flow and in its queue are at most what the queue can hold. -/
theorem Joined.unread_le {c d : Conn} {w v : List Message} (h : Joined c d w v) {id : ℕ} {f : Flw}
    (hf : c.flows.lookup id = some f) :
    c.readLoop.incoming id + f.qSize ≤ defaultBytesBufferedPerFlow := by
  have hid : id ≠ invalidFlowID := by
    rintro rfl
    have := h.here.invalid
    rw [inbox_of_lookup hf] at this
    cases this
  have hle := (h.receives.safe id hid).transit_le fun released borrowed borrowing hs ↦ ?_
  · change (d.outbox id).pending + bytesFor v id + c.readLoop.incoming id + (c.inbox id).unread ≤ _
      at hle
    rw [inbox_of_lookup hf] at hle
    change _ + _ + _ + f.qSize ≤ _ at hle
    omega
  · obtain ⟨T, hT, hd⟩ := h.there.conserves
    change (d.outbox id).sender = _ at hs
    rcases hg : d.flows.lookup id with _ | g
    · rw [outbox_of_none hg] at hs
      cases hs
    · rw [outbox_of_lookup hg] at hs
      change g.sender = _ at hs
      rw [Flw.sender] at hs
      split at hs <;> cases hs
      next hin => exact (hd.borrowed_le hg hin).trans hT

theorem Joined.fault {c d : Conn} {w v : List Message} {a : Action}
    (h : Joined c d w (a.received ++ v)) {e : Stop} (he : Fault c a e) : e = .disabled := by
  rcases he with _ | ⟨hr, hf, hlt⟩ | @⟨id, init, size, closeFlag, hk⟩
  · rfl
  · have hle := h.unread_le hf
    rw [hr] at hle
    change (if _ = _ then _ else 0) + _ ≤ _ at hle
    rw [if_pos rfl] at hle
    omega
  · have hpos : 0 < opensFor ([.openFlow id init size closeFlag] ++ v) id :=
      opensFor_pos (mem_append_left v (mem_singleton_self _))
    have hle := h.receives.opens id
    rw [hk] at hle
    change _ + opensFor ([.openFlow id init size closeFlag] ++ v) id + 1 ≤ 1 at hle
    omega

end Conn

namespace Net

variable {n : Net}

theorem Joined.fault {side : Side} {a : Action} {v : List Message} {e : Stop} (h : n.Joined)
    (hv : n.inbound side = a.received ++ v) (he : n.perform side a v = .error e) :
    e = .disabled := by
  rw [Net.perform] at he
  split at he <;> cases he
  rename_i e' hexec
  have hfault := fault_of_exec hexec
  rcases side with _ | _
  · change n.toDialer = _ at hv
    rw [Joined, hv] at h
    exact h.fault hfault
  · change n.toAcceptor = _ at hv
    rw [Joined, hv] at h
    exact h.symm.fault hfault

/-- **Flow control never overruns the receiver** in a run in which a writer that borrows takes its
turns only while its flow is in `c.flows`: in every state that is reached the unread bytes of a flow
are at most `defaultBytesBufferedPerFlow`, and no next step makes a queue overflow, a counter
negative or a flow opened twice. -/
theorem receiver_not_overrun (encapsulated handler : Side → Bool) (mtu tokens : Side → ℕ)
    (as : List Step) (n : Net)
    (h : run (guarded (fun n a ↦ n.borrowsOpen a = true) step)
      (Net.new encapsulated handler mtu tokens) as = some n) :
    (∀ side id f, (n.conn side).flows.lookup id = some f →
      f.qSize ≤ defaultBytesBufferedPerFlow) ∧
    ∀ a e, n.exec a = .error e → e = .disabled := by
  have hinv : n.Joined :=
    guarded_invariant (fun _ _ _ hinv ha hstep ↦ hinv.step ha hstep) (Net.joined_new ..) h
  refine ⟨fun side id f hf ↦ ?_, fun a e he ↦ ?_⟩
  · rcases side with _ | _
    · have := Conn.Joined.unread_le hinv hf
      omega
    · have := Conn.Joined.unread_le hinv.symm hf
      omega
  · rcases a with ⟨side, a⟩ | side
    · rw [exec] at he
      split at he
      · next hreceived => exact hinv.fault (received_eq_nil_append hreceived _) he
      · exact (Except.error.inj he).symm
    · rw [exec] at he
      split at he
      · exact (Except.error.inj he).symm
      · next m v hv => exact hinv.fault hv he

/-- The dialer writes on a new flow, the acceptor reads it and releases tokens. -/
def exchange : List Step :=
  [.act .dialer .dial, .act .dialer (.startWrite 10 [5] false false), .act .dialer (.turn 10),
    .act .dialer (.wire 10 true false), .deliver .acceptor, .act .acceptor .readPut,
    .act .acceptor (.read 10 5), .act .acceptor (.release 10)]

theorem receiver_not_overrun_exchange :
    ∃ n, run (guarded (fun n a ↦ n.borrowsOpen a = true) step)
        (Net.new (fun _ ↦ false) (fun _ ↦ true) (fun _ ↦ 0) (fun _ ↦ 0)) exchange = some n ∧
      ∀ a e, n.exec a = .error e → e = .disabled := by
  have hany : (run (guarded (fun n a ↦ n.borrowsOpen a = true) step)
      (Net.new (fun _ ↦ false) (fun _ ↦ true) (fun _ ↦ 0) (fun _ ↦ 0)) exchange).any
      (fun _ ↦ true) = true := by decide +kernel
  obtain ⟨n, hrun, -⟩ := exists_run_of_any hany
  exact ⟨n, hrun, (receiver_not_overrun _ _ _ _ _ n hrun).2⟩

/-- A turn of the dialer's writer, with the message that it sends. -/
def dialerTurn : List Step :=
  [.act .dialer (.turn 10), .act .dialer (.wire 10 true false), .act .dialer (.wired 10)]

/-- The dialer writes two megabytes. When it has borrowed all but one message of its shared tokens,
the acceptor sends a byte with the close flag, and has not closed its own end when the dialer
handles it. The loan is given back; but the dialer's writer, which is notified and cancelled at
once, takes two more turns. -/
def overrun : List Step :=
  [.act .dialer .dial, .act .dialer (.startWrite 10 [2 ^ 21] false false)] ++
  (List.replicate 15 (dialerTurn ++ [.deliver .acceptor, .act .acceptor .readPut])).flatten ++
  [.act .acceptor (.startWrite 10 [1] true false), .act .acceptor (.turn 10),
    .act .acceptor (.wire 10 true false), .deliver .dialer, .act .dialer .readPut,
    .act .dialer .readClose, .act .dialer (.closeCancel 10), .act .dialer (.closeSection 10)] ++
  dialerTurn ++ dialerTurn ++ [.deliver .acceptor, .act .acceptor .readPut, .deliver .acceptor]

/-- A step stops for the reason `e`. -/
def stopsWith (n : Net) (a : Step) (e : Stop) : Bool :=
  match n.exec a with
  | .error e' => e' = e
  | .ok _ => false

theorem exec_of_stopsWith {a : Step} {e : Stop} (h : n.stopsWith a e) : n.exec a = .error e := by
  rw [stopsWith] at h
  split at h
  · next hexec =>
    rw [hexec, of_decide_eq_true h]
  · cases h

/-- The next `put`, on an open flow, reports `ErrCounterOverflow`. -/
theorem receiver_overrun :
    ∃ n, run step (Net.new (fun _ ↦ false) (fun _ ↦ true) (fun _ ↦ 0) (fun _ ↦ 0))
    overrun = some n ∧
      (n.acceptor.flows.lookup 10).map Flw.closed = some false ∧
      n.exec (.act .acceptor .readPut) = .error .counterOverflow := by
  have hany : (run step (Net.new (fun _ ↦ false) (fun _ ↦ true) (fun _ ↦ 0) (fun _ ↦ 0))
    overrun).any
      (fun n ↦ decide ((n.acceptor.flows.lookup 10).map Flw.closed = some false) &&
        n.stopsWith (.act .acceptor .readPut) .counterOverflow) = true := by decide +kernel
  obtain ⟨n, hrun, hn⟩ := exists_run_of_any hany
  obtain ⟨hopen, hstop⟩ := Bool.and_eq_true_iff.mp hn
  exact ⟨n, hrun, of_decide_eq_true hopen, exec_of_stopsWith hstop⟩

end Net

end Vanadium.Tokens
