import Vanadium.Flow.TokenConservation
import Vanadium.Foundations.Credit

/-!
# The tokens of a flow on both ends

Two connections `s` and `r` with the messages `w` from `s` to `r` and `v` from `r` to `s`. The
`ledger` of a flow counts its bytes and tokens in the direction from `s` to `r`, wherever they are:
with the writer, on the wire, with the `readLoop`, in the read queue, with a reader, in `toRelease`
and in release messages. Each effect of `s` is a step of the sender of the ledger
(`safe_of_effect_sender`), and each effect of `r` one of its receiver (`safe_of_effect_receiver`).
-/

namespace Vanadium.Tokens

open Foundations Foundations.Credit Conn List
open Vanadium.Flow (defaultBytesBufferedPerFlow)

/-! ## Messages -/

/-- The message that an action receives. -/
def Action.received : Action → List Message
  | .handle m => [m]
  | _ => []

/-- The tokens that the entries of a release message grant to a flow. -/
def grantsTo (counters : List (ℕ × ℕ)) (k : ℕ) : List ℕ :=
  counters.filterMap fun e ↦ if e.1 = k then some e.2 else none

def Message.grants : Message → ℕ → List ℕ
  | release counters, k => grantsTo counters k
  | _, _ => []

/-- A message opens a flow. -/
def Message.opens : Message → ℕ → ℕ
  | openFlow id _ _ _, k => if id = k then 1 else 0
  | _, _ => 0

def bytesFor (w : List Message) (k : ℕ) : ℕ := (w.map (·.bytes k)).sum

def grantsFor (v : List Message) (k : ℕ) : List ℕ := v.flatMap (·.grants k)

def opensFor (w : List Message) (k : ℕ) : ℕ := (w.map (·.opens k)).sum

theorem bytesFor_append (w w' : List Message) (k : ℕ) :
    bytesFor (w ++ w') k = bytesFor w k + bytesFor w' k := by
  rw [bytesFor, map_append, sum_append]
  rfl

theorem grantsFor_append (v v' : List Message) (k : ℕ) :
    grantsFor (v ++ v') k = grantsFor v k ++ grantsFor v' k := flatMap_append

theorem opensFor_append (w w' : List Message) (k : ℕ) :
    opensFor (w ++ w') k = opensFor w k + opensFor w' k := by
  rw [opensFor, map_append, sum_append]
  rfl

theorem grantsTo_counters (t : Table ℕ ℕ) {k : ℕ} (hk : k ≠ invalidFlowID) :
    grantsTo (counters t) k = (t.lookup k).toList := by
  rw [grantsTo, counters, filterMap_map]
  change ((t.erase invalidFlowID).entries.filterMap fun e ↦ if e.1 = k then some e.2 else none) = _
  rw [Table.filterMap_entries, AList.lookup_erase_ne hk]

/-! ## One end of a flow -/

/-- What a flow is as a sender. -/
def Flw.sender (f : Flw) : Sender :=
  if f.inFlows then .active f.released f.borrowed f.borrowing else .closed f.released

structure Outbox where
  sender : Sender
  /-- Bytes that a writer has in its hands. -/
  pending : ℕ
  /-- `OpenFlow` messages that can still be sent. -/
  opens : ℕ

structure Inbox where
  known : Bool
  unread : ℕ
  /-- Bytes that a reader has in its hands. -/
  reading : ℕ

def Flw.outbox (f : Flw) : Outbox := ⟨f.sender, f.writer.pending, f.opens⟩

def Flw.inbox (f : Flw) : Inbox := ⟨true, f.qSize, f.reader.getD 0⟩

namespace Conn

variable {c c' s r : Conn} {w v out : List Message} {k id T : ℕ} {f f' : Flw}

def outbox (c : Conn) (k : ℕ) : Outbox := ((c.flows.lookup k).map Flw.outbox).getD ⟨.absent, 0, 0⟩

def inbox (c : Conn) (k : ℕ) : Inbox := ((c.flows.lookup k).map Flw.inbox).getD ⟨false, 0, 0⟩

/-- The tokens that are counted for a flow, or in release messages that wait for their turn. -/
def granting (c : Conn) (k : ℕ) : List ℕ :=
  c.releases.flatMap (grantsTo · k) ++ [counter c.toRelease k]

theorem outbox_of_lookup (hf : c.flows.lookup k = some f) : c.outbox k = f.outbox := by
  rw [outbox, hf]
  rfl

theorem inbox_of_lookup (hf : c.flows.lookup k = some f) : c.inbox k = f.inbox := by
  rw [inbox, hf]
  rfl

theorem outbox_of_none (h : c.flows.lookup k = none) : c.outbox k = ⟨.absent, 0, 0⟩ := by
  rw [outbox, h]
  rfl

theorem inbox_of_none (h : c.flows.lookup k = none) : c.inbox k = ⟨false, 0, 0⟩ := by
  rw [inbox, h]
  rfl

theorem outbox_congr (h : c'.flows = c.flows) : c'.outbox = c.outbox := by
  funext k
  rw [outbox, h]
  rfl

theorem inbox_congr (h : c'.flows = c.flows) : c'.inbox = c.inbox := by
  funext k
  rw [inbox, h]
  rfl

theorem outbox_set (c : Conn) (id k : ℕ) (f : Flw) :
    (c.set id f).outbox k = if k = id then f.outbox else c.outbox k := by
  rw [outbox, lookup_set]
  split <;> rfl

theorem inbox_set (c : Conn) (id k : ℕ) (f : Flw) :
    (c.set id f).inbox k = if k = id then f.inbox else c.inbox k := by
  rw [inbox, lookup_set]
  split <;> rfl

theorem readLoop_set (c : Conn) (id : ℕ) (f : Flw) : (c.set id f).readLoop = c.readLoop := rfl

variable {d : Conn} {n : ℕ} {received : List Message} {cs : List (ℕ × ℕ)} {a : Action}

theorem inbox_set_of_eq (hd : d.flows = c.flows) (hf : c.flows.lookup id = some f)
    (h : f'.inbox = f.inbox) (k : ℕ) : (d.set id f').inbox k = c.inbox k := by
  rw [inbox_set]
  split
  · next hk => rw [h, hk, inbox_of_lookup hf]
  · rw [inbox_congr hd]

theorem known_eq_false_iff : (c.inbox k).known = false ↔ c.flows.lookup k = none := by
  rw [inbox]
  rcases c.flows.lookup k with _ | f
  · exact ⟨fun _ ↦ rfl, fun _ ↦ rfl⟩
  · exact ⟨fun h ↦ (nomatch h), fun h ↦ (nomatch h)⟩

/-! ## The ledger -/

/-- A flow in the direction from `s` to `r`. -/
def ledger (s r : Conn) (w v : List Message) (k : ℕ) : Ledger where
  sender := (s.outbox k).sender
  known := (r.inbox k).known
  transit := (s.outbox k).pending + bytesFor w k + r.readLoop.incoming k + (r.inbox k).unread
  held := (r.inbox k).reading
  grants := grantsFor v k ++ r.granting k

/-- The window of the flow is respected. -/
abbrev SafeAt (s r : Conn) (w v : List Message) (k : ℕ) : Prop :=
  (ledger s r w v k).Safe defaultBytesBufferedPerFlow

theorem circulating_ledger (s r : Conn) (w v : List Message) (k : ℕ) :
    (ledger s r w v k).circulating =
      (s.outbox k).pending + bytesFor w k + r.readLoop.incoming k + (r.inbox k).unread +
        (r.inbox k).reading + ((grantsFor v k).sum + (r.granting k).sum) := by
  rw [Ledger.circulating, ledger]
  rw [sum_append]

theorem circulating_sender_le
    (hp : (c'.outbox k).pending + bytesFor out k ≤ (c.outbox k).pending + n)
    (received : List Message) :
    (ledger c' r (w ++ out) v k).circulating + (grantsFor received k).sum ≤
      (ledger c r w (received ++ v) k).circulating + n := by
  rw [circulating_ledger, circulating_ledger, bytesFor_append, grantsFor_append, sum_append]
  omega

theorem transit_sender_le (hp : (c'.outbox k).pending + bytesFor out k ≤ (c.outbox k).pending + n)
    (received : List Message) :
    (ledger c' r (w ++ out) v k).transit ≤ (ledger c r w (received ++ v) k).transit + n := by
  simp only [ledger, bytesFor_append]
  omega

/-- Nothing happens to the sender, apart from bytes that go out or are lost and grants that are
lost. -/
theorem safe_of_outbox (h : SafeAt c r w (received ++ v) k)
    (hs : (c'.outbox k).sender = (c.outbox k).sender)
    (hp : (c'.outbox k).pending + bytesFor out k ≤ (c.outbox k).pending) :
    SafeAt c' r (w ++ out) v k := by
  have hcirculating := circulating_sender_le (r := r) (w := w) (v := v) (n := 0)
    hp received
  refine h.move hs (fun hk ↦ hk) (transit_sender_le (n := 0) hp received)
    (by omega) fun x hx hD ↦ ?_
  change x ∈ grantsFor (received ++ v) k ++ _ at hx
  rw [grantsFor_append, append_assoc, mem_append] at hx
  rcases hx with hx | hx
  · have := le_sum_of_mem hx
    exact .inr (by omega)
  · exact .inl ⟨x, hx, hD⟩

/-- Nothing happens to the receiver, apart from bytes that move towards the reader or are lost. -/
theorem safe_of_inbox
    (h : SafeAt s c (received ++ w) v k)
    (hknown : (c.inbox k).known → (c'.inbox k).known)
    (hbytes : c'.readLoop.incoming k + (c'.inbox k).unread ≤
        bytesFor received k + (c.readLoop.incoming k + (c.inbox k).unread) ∧
      c'.readLoop.incoming k + (c'.inbox k).unread + (c'.inbox k).reading ≤
        bytesFor received k + (c.readLoop.incoming k + (c.inbox k).unread) + (c.inbox k).reading)
    (hgranting : c'.granting k = c.granting k) (hout : grantsFor out k = []) :
    SafeAt s c' w (v ++ out) k := by
  obtain ⟨hunread, hreading⟩ := hbytes
  refine h.move_of_grants_eq rfl hknown ?_ ?_ ?_
  · simp only [ledger, bytesFor_append]
    omega
  · simp only [ledger, bytesFor_append]
    omega
  · rw [ledger, ledger]
    rw [grantsFor_append, hout, append_nil, hgranting]

/-- The bytes and the tokens that the receiver has. -/
def holding (c : Conn) (k : ℕ) : ℕ :=
  c.readLoop.incoming k + (c.inbox k).unread + (c.inbox k).reading + (c.granting k).sum

/-- The receiver counts tokens to release, or sends them. -/
theorem safe_of_holding
    (h : SafeAt s c (received ++ w) v k)
    (hknown : (c.inbox k).known → (c'.inbox k).known)
    (hbytes : c'.readLoop.incoming k + (c'.inbox k).unread ≤
      c.readLoop.incoming k + (c.inbox k).unread)
    (hholding : c'.holding k + (grantsFor out k).sum ≤ c.holding k)
    (hgrants : ∀ x ∈ c.granting k, defaultBytesBufferedPerFlow ≤ x →
      (∃ y ∈ grantsFor out k ++ c'.granting k, defaultBytesBufferedPerFlow ≤ y) ∨
        c'.holding k + (grantsFor out k).sum + defaultBytesBufferedPerFlow ≤ c.holding k) :
    SafeAt s c' w (v ++ out) k := by
  have hcirculating : (ledger s c' w (v ++ out) k).circulating + c.holding k ≤
      (ledger s c (received ++ w) v k).circulating + (c'.holding k + (grantsFor out k).sum) := by
    rw [circulating_ledger, circulating_ledger, bytesFor_append, grantsFor_append, sum_append,
      holding, holding]
    omega
  refine h.move rfl hknown ?_ (by omega) fun x hx hD ↦ ?_
  · simp only [ledger, bytesFor_append]
    omega
  · rcases mem_append.mp hx with hx | hx
    · refine .inl ⟨x, mem_append_left _ ?_, hD⟩
      rw [grantsFor_append]
      exact mem_append_left _ hx
    · rcases hgrants x hx hD with ⟨y, hy, hyD⟩ | hlost
      · refine .inl ⟨y, ?_, hyD⟩
        change y ∈ grantsFor (v ++ out) k ++ _
        rw [grantsFor_append, append_assoc]
        exact mem_append_right _ hy
      · exact .inr (by omega)

/-! ## The sender -/

theorem Conserves.borrowed_le (h : c.Conserves T) (hf : c.flows.lookup id = some f)
    (hin : f.inFlows) : f.borrowed ≤ T := by
  have hle := owed_le h id
  rw [owed_eq c hf, Flw.loan, if_pos hin] at hle
  omega

theorem sender_of_inFlows (hf : c.flows.lookup k = some f) (hin : f.inFlows) :
    (ledger c r w v k).sender = .active f.released f.borrowed f.borrowing := by
  change (c.outbox k).sender = _
  rw [outbox_of_lookup hf]
  exact if_pos hin

theorem sender_of_not_inFlows (hf : c.flows.lookup k = some f) (hin : f.inFlows = false) :
    (ledger c r w v k).sender = .closed f.released := by
  change (c.outbox k).sender = _
  rw [outbox_of_lookup hf]
  exact if_neg (Bool.eq_false_iff.mp hin)

theorem lookup_set_self (c : Conn) (id : ℕ) (f : Flw) : (c.set id f).flows.lookup id = some f :=
  (lookup_set c id id f).trans (if_pos rfl)

theorem releaseCounter_cases (c : Conn) (fid val : ℕ) :
    (∃ f, c.flows.lookup fid = some f ∧ f.inFlows ∧
        c.releaseCounter fid val = c.releaseLocked fid f val) ∨
      c.releaseCounter fid val = c.releaseOutstandingBorrowedLocked fid val := by
  rw [releaseCounter]
  split
  · exact .inr rfl
  · next f hf =>
    split
    · next hin => exact .inl ⟨f, hf, hin, rfl⟩
    · exact .inr rfl

/-- What the end of `close` leaves. -/
theorem finishClose_eq (c : Conn) (id : ℕ) (f : Flw) (remotely : Bool) :
    ∃ (d : Conn) (f' : Flw), c.finishClose id f remotely = d.set id f' ∧ d.flows = c.flows ∧
      d.nextFid = c.nextFid ∧ d.granting = c.granting ∧
      (d.readLoop = c.readLoop ∨ d.readLoop.incoming = 0) ∧
      f'.outbox = ⟨.closed f.released, f.writer.pending, f.opens⟩ ∧ f'.inbox = f.inbox := by
  rw [finishClose]
  split
  · exact ⟨_, _, rfl, rfl, rfl, rfl, .inr rfl, rfl, rfl⟩
  split
  · exact ⟨_, _, rfl, rfl, rfl, rfl, .inl rfl, rfl, rfl⟩
  · exact ⟨_, _, rfl, rfl, rfl, rfl, .inl rfl, rfl, rfl⟩

theorem ledger_eq_of_grantsFor {v' : List Message} (h : grantsFor v k = grantsFor v' k) :
    ledger s r w v k = ledger s r w v' k := by
  rw [ledger, h]
  rfl

/-- One entry of a release message. -/
theorem safe_releaseCounter {fid val : ℕ} (hc : c.Conserves T)
    (hT : T ≤ defaultBytesBufferedPerFlow) (h : SafeAt c r w (.release ((fid, val) :: cs) :: v) k) :
    SafeAt (c.releaseCounter fid val) r w (.release cs :: v) k := by
  have hgrants : grantsFor (.release ((fid, val) :: cs) :: v) k =
      grantsFor ([.release [(fid, val)]] ++ .release cs :: v) k := by
    change grantsTo ([(fid, val)] ++ cs) k ++ grantsFor v k =
      grantsTo [(fid, val)] k ++ (grantsTo cs k ++ grantsFor v k)
    rw [grantsTo, filterMap_append, append_assoc]
    rfl
  rw [SafeAt, ledger_eq_of_grantsFor hgrants] at h
  -- the entry is for another flow, or is not for a flow in `c.flows`
  have hframe (hs : (c.releaseCounter fid val).outbox k = c.outbox k) :
      SafeAt (c.releaseCounter fid val) r w (.release cs :: v) k := by
    rw [← append_nil w]
    refine safe_of_outbox h (by rw [hs]) ?_
    rw [hs]
    exact le_rfl
  rcases releaseCounter_cases c fid val with ⟨f, hf, hin, heq⟩ | heq
  · by_cases hk : k = fid
    · subst hk
      rw [heq]
      have hf' : (c.releaseLocked k f val).flows.lookup k = some _ := lookup_set_self _ _ _
      have hval : grantsFor [.release [(k, val)]] k = [val] := by
        change grantsTo [(k, val)] k ++ [] = [val]
        rw [grantsTo, filterMap_cons, if_pos rfl]
        rfl
      refine h.receive ((hc.borrowed_le hf hin).trans hT) (sender_of_inFlows hf hin)
        (sender_of_inFlows hf' hin) rfl ?_ ?_
      · change grantsFor _ k ++ _ = _
        rw [grantsFor_append, hval]
        rfl
      · rw [circulating_ledger, circulating_ledger, outbox_of_lookup hf', outbox_of_lookup hf,
          grantsFor_append, sum_append, hval, sum_singleton]
        change f.writer.pending + _ + _ + _ + _ + _ + _ ≤ f.writer.pending + _ + _ + _ + _ + _
        omega
    · refine hframe ?_
      rw [heq]
      exact (outbox_set _ _ _ _).trans (if_neg hk)
  · refine hframe ?_
    rw [heq, outbox_congr (flows_releaseOutstanding c fid val)]

theorem safe_releaseCounters (hT : T ≤ defaultBytesBufferedPerFlow) (cs : List (ℕ × ℕ)) {c : Conn}
    (hc : c.Conserves T) (h : SafeAt c r w (.release cs :: v) k) :
    SafeAt (cs.foldl (fun c e ↦ c.releaseCounter e.1 e.2) c) r w v k := by
  induction cs generalizing c with
  | nil =>
    have hgrants : grantsFor (.release [] :: v) k = grantsFor v k := rfl
    rwa [SafeAt, ledger_eq_of_grantsFor hgrants] at h
  | cons e cs ih => exact ih (hc.releaseCounter e.1 e.2) (safe_releaseCounter hc hT h)

theorem safe_of_outbox_eq (h : SafeAt c r w (received ++ v) k) (hd : d.outbox k = c.outbox k)
    (hbytes : bytesFor out k = 0) : SafeAt d r (w ++ out) v k := by
  refine safe_of_outbox h (by rw [hd]) ?_
  rw [hd, hbytes]
  exact le_rfl

theorem safe_of_set_other (h : SafeAt c r w (received ++ v) k) (f : Flw) (hd : d.outbox = c.outbox)
    (hk : k ≠ id) (hbytes : bytesFor out k = 0) : SafeAt (d.set id f) r (w ++ out) v k := by
  refine safe_of_outbox_eq h ?_ hbytes
  rw [outbox_set, if_neg hk, hd]

/-- The flow of the action keeps its tokens. -/
theorem safe_of_set_same {f' : Flw} (h : SafeAt c r w (received ++ v) k) (hd : d.outbox = c.outbox)
    (hf : c.flows.lookup id = some f) (hs : f'.sender = f.sender)
    (hp : f'.writer.pending + bytesFor out id ≤ f.writer.pending)
    (hbytes : k ≠ id → bytesFor out k = 0) : SafeAt (d.set id f') r (w ++ out) v k := by
  by_cases hk : k = id
  · subst hk
    refine safe_of_outbox h ?_ ?_
    · rw [outbox_set, if_pos rfl, outbox_of_lookup hf]
      exact hs
    · rw [outbox_set, if_pos rfl, outbox_of_lookup hf]
      exact hp
  · exact safe_of_set_other h f' hd hk (hbytes hk)

/-- A writer takes `n` bytes. -/
theorem pending_set_le {f' : Flw} (d : Conn) (hf : c.flows.lookup k = some f)
    (hold : f.writer.pending = 0) (hnew : f'.writer.pending = n) :
    ((d.set k f').outbox k).pending + bytesFor [] k ≤ (c.outbox k).pending + n := by
  rw [outbox_set, if_pos rfl, outbox_of_lookup hf]
  change f'.writer.pending + 0 ≤ f.writer.pending + n
  omega

theorem safe_of_quiet {f' : Flw} (h : SafeAt c r w (received ++ v) k) (hd : d.outbox = c.outbox)
    (hf : c.flows.lookup id = some f) (same : f.Same f')
    (hout : out = [] ∨ out = [.data id 0 true]) :
    SafeAt (d.set id f') r (w ++ out) v k := by
  have hbytes (k : ℕ) : bytesFor out k = 0 := by
    rcases hout with rfl | rfl
    · rfl
    · exact (Nat.add_zero _).trans (ite_self _)
  refine safe_of_set_same h hd hf ?_ ?_ fun _ ↦ hbytes k
  · rw [Flw.sender, Flw.sender, same.inFlows, same.released, same.borrowed, same.borrowing]
  · rw [hbytes, same.pending]
    exact le_rfl

theorem safe_of_dial (hc : c.Conserves T) (h : SafeAt c r w v k) :
    SafeAt ({ c with nextFid := c.nextFid + 2 }.set c.nextFid (newFlow true false)) r
    (w ++ []) v k := by
  by_cases hk : k = c.nextFid
  · subst hk
    have hnone : c.flows.lookup c.nextFid = none := hc.lookup_nextFid
    refine h.dial (congrArg Outbox.sender (outbox_of_none hnone)) ?_ ?_
    · exact sender_of_inFlows (lookup_set_self _ _ _) rfl
    · refine circulating_sender_le (n := 0) ?_ []
      rw [outbox_set, if_pos rfl]
      exact Nat.zero_le _
  · exact safe_of_set_other (show SafeAt c r w ([] ++ v) k from h) _ rfl hk rfl

theorem safe_of_borrow {pc : WriterPc} (h : SafeAt c r w v k) (hf : c.flows.lookup id = some f)
    (hb : f.borrowing) (hin : f.inFlows) (hold : f.writer.pending = 0) (hnew : pc.pending = n) :
    SafeAt ({ c with lshared := c.lshared - n }.set id
      { f with borrowed := f.borrowed + n, writer := pc }) r (w ++ []) v k := by
  by_cases hk : k = id
  · subst hk
    have hl := sender_of_inFlows (r := r) (w := w) (v := v) hf hin
    rw [hb] at hl
    refine h.borrow hl ?_ rfl (circulating_sender_le (pending_set_le _ hf hold hnew) []) rfl
    rw [← hb]
    exact sender_of_inFlows (lookup_set_self _ _ _) hin
  · exact safe_of_set_other (show SafeAt c r w ([] ++ v) k from h) _ rfl hk rfl

theorem safe_of_spend {pc : WriterPc} (h : SafeAt c r w v k) (hf : c.flows.lookup id = some f)
    (hle : n ≤ f.released) (hold : f.writer.pending = 0) (hnew : pc.pending = n) :
    SafeAt (c.set id { f with released := f.released - n, writer := pc }) r (w ++ []) v k := by
  by_cases hk : k = id
  · subst hk
    by_cases hin : f.inFlows
    · exact h.spend (sender_of_inFlows hf hin) hle
        (sender_of_inFlows (lookup_set_self _ _ _) hin) rfl
        (circulating_sender_le (pending_set_le _ hf hold hnew) []) rfl
    · have hin := Bool.eq_false_iff.mpr hin
      exact h.spend_closed (sender_of_not_inFlows hf hin) hle
        (sender_of_not_inFlows (lookup_set_self _ _ _) hin)
        (transit_sender_le (pending_set_le _ hf hold hnew) [])
  · exact safe_of_set_other (show SafeAt c r w ([] ++ v) k from h) _ rfl hk rfl

theorem safe_of_wire {pc : WriterPc} (h : SafeAt c r w (received ++ v) k)
    (hf : c.flows.lookup id = some f) (hnew : pc.pending = 0)
    (hout : out = [] ∨ ∃ closeFlag, out = [.data id f.writer.pending closeFlag] ∨
      out = [.openFlow id defaultBytesBufferedPerFlow f.writer.pending closeFlag] ∧ f.opens = 1) :
    SafeAt (c.set id { f with writer := pc }) r (w ++ out) v k := by
  have hbytes (k : ℕ) : bytesFor out k ≤ if id = k then f.writer.pending else 0 := by
    rcases hout with rfl | ⟨closeFlag, rfl | ⟨rfl, -⟩⟩
    · exact Nat.zero_le _
    · exact le_rfl
    · exact le_rfl
  refine safe_of_set_same h rfl hf rfl ?_ fun hk ↦ ?_
  · have := hbytes id
    rw [if_pos rfl] at this
    change pc.pending + _ ≤ _
    omega
  · have := hbytes k
    rw [if_neg (Ne.symm hk)] at this
    exact Nat.le_zero.mp this

theorem safe_of_remove {f' : Flw} {remotely : Bool} (hc : c.Conserves T)
    (hT : T ≤ defaultBytesBufferedPerFlow) (h : SafeAt c r w (received ++ v) k)
    (hf : c.flows.lookup id = some f) (same : f.Same f') (hclosing : f'.closer ≠ .none) :
    SafeAt (c.finishClose id f' remotely) r (w ++ []) v k := by
  obtain ⟨d, g, heq, hflows, -, -, -, hg, -⟩ := finishClose_eq c id f' remotely
  rw [heq]
  by_cases hk : k = id
  · subst hk
    have hin : f.inFlows := same.inFlows ▸ ((same.wf (hc.wf k f hf)).closing hclosing).2
    have hout : (d.set k g).outbox k = ⟨.closed f'.released, f'.writer.pending, f'.opens⟩ := by
      rw [outbox_set, if_pos rfl, hg]
    refine h.close ((hc.borrowed_le hf hin).trans hT) (sender_of_inFlows hf hin) ?_
      (transit_sender_le (n := 0) ?_ received)
    · rw [← same.released]
      exact congrArg Outbox.sender hout
    · rw [hout, outbox_of_lookup hf]
      exact same.pending.le
  · exact safe_of_set_other h g (outbox_congr hflows) hk rfl

/-- **An effect of the sender keeps the ledger safe.** A flow is opened by the peer only with the
whole window. -/
theorem safe_of_effect_sender (hc : c.Conserves T)
    (hT : T ≤ defaultBytesBufferedPerFlow) (ha : c.borrowsOpen a) (heff : Effect c a c' out)
    (haccept : ∀ id init size closeFlag, a = .handle (.openFlow id init size closeFlag) →
      init = defaultBytesBufferedPerFlow ∧ (r.inbox id).known)
    (h : SafeAt c r w (a.received ++ v) k) :
    SafeAt c' r (w ++ out) v k := by
  cases heff with
  | status | noop | handleData => exact safe_of_outbox_eq h rfl rfl
  | quiet hf same hr hout => exact safe_of_quiet h rfl hf same hout
  | dial => exact safe_of_dial hc h
  | @borrow id n f pc hf hb hle hold hnew hopens =>
    rw [borrowsOpen, hf, Option.all_some, hb] at ha
    exact safe_of_borrow h hf hb (by simpa using ha) hold hnew
  | spend hf hb hle hold hnew hopens => exact safe_of_spend h hf hle hold hnew
  | wire hf hnew hopens hout => exact safe_of_wire h hf hnew hout
  | remove hf same hclosing => exact safe_of_remove hc hT h hf same hclosing
  | read hf | count hf | flush hf | put hf => exact safe_of_set_same h rfl hf rfl le_rfl fun _ ↦ rfl
  | sendRelease hi hout =>
    refine safe_of_outbox_eq h rfl ?_
    rcases hout with rfl | rfl <;> rfl
  | handleRelease =>
    rw [append_nil]
    exact safe_releaseCounters hT _ hc h
  | handleDrop hf =>
    refine safe_of_outbox_eq h ?_ rfl
    rw [outbox_congr (flows_releaseOutstanding ..)]
  | @accept id init size closeFlag hnone hpar hidle =>
    by_cases hk : k = id
    · subst hk
      obtain ⟨rfl, hknown⟩ := haccept k init size closeFlag rfl
      refine h.accept (congrArg Outbox.sender (outbox_of_none hnone)) ?_ hknown ?_
      · exact sender_of_inFlows (lookup_set_self _ _ _) rfl
      · refine (Nat.le_add_right _ _).trans (circulating_sender_le (n := 0) ?_ _)
        rw [outbox_set, if_pos rfl]
        exact Nat.zero_le _
    · exact safe_of_set_other h _ rfl hk rfl

/-! ## The receiver -/

/-- A connection as a receiver, and the flows that it can open, are as before. -/
structure Frame (c c' : Conn) : Prop where
  inbox : c'.inbox = c.inbox
  readLoop : c'.readLoop = c.readLoop
  granting : c'.granting = c.granting
  nextFid : c'.nextFid = c.nextFid
  opens : ∀ k, (c'.outbox k).opens = (c.outbox k).opens

theorem frame_releaseOutstanding (c : Conn) (fid val : ℕ) :
    Frame c (c.releaseOutstandingBorrowedLocked fid val) := by
  rw [releaseOutstandingBorrowedLocked]
  split
  · exact ⟨rfl, rfl, rfl, rfl, fun _ ↦ rfl⟩
  · exact ⟨rfl, rfl, rfl, rfl, fun _ ↦ rfl⟩

theorem frame_releaseCounter (c : Conn) (fid val : ℕ) : Frame c (c.releaseCounter fid val) := by
  rcases releaseCounter_cases c fid val with ⟨f, hf, -, heq⟩ | heq
  · rw [heq]
    refine ⟨?_, rfl, rfl, rfl, fun k ↦ ?_⟩
    · funext k
      exact inbox_set_of_eq (by rfl) hf (by rfl) k
    · rw [releaseLocked, outbox_set]
      split
      · next hk =>
        rw [hk, outbox_of_lookup hf]
        rfl
      · rfl
  · rw [heq]
    exact frame_releaseOutstanding c fid val

theorem frame_releaseCounters (cs : List (ℕ × ℕ)) (c : Conn) :
    Frame c (cs.foldl (fun c e ↦ c.releaseCounter e.1 e.2) c) := by
  induction cs generalizing c with
  | nil => exact ⟨rfl, rfl, rfl, rfl, fun _ ↦ rfl⟩
  | cons e cs ih =>
    have h₁ := frame_releaseCounter c e.1 e.2
    have h₂ := ih (c.releaseCounter e.1 e.2)
    exact ⟨h₂.inbox.trans h₁.inbox, h₂.readLoop.trans h₁.readLoop, h₂.granting.trans h₁.granting,
      h₂.nextFid.trans h₁.nextFid, fun k ↦ (h₂.opens k).trans (h₁.opens k)⟩

/-- The bytes that a reader has in its hands become tokens, and the tokens of the flow in
`toRelease` become the list `l`. -/
theorem safe_of_count {l : List ℕ}
    (h : SafeAt s c (received ++ w) v k)
    (hf : c.flows.lookup id = some f) (hn : f.reader = some n) (hd : d.flows = c.flows)
    (hr : d.readLoop = c.readLoop) (hgranting : d.granting k =
      c.releases.flatMap (grantsTo · k) ++ l)
    (hsum : l.sum = counter c.toRelease k + if k = id then n else 0)
    (hl : defaultBytesBufferedPerFlow ≤ l.sum → ∃ y ∈ l, defaultBytesBufferedPerFlow ≤ y) :
    SafeAt s (d.set id { f with reader := none }) w (v ++ []) k := by
  have hinbox : ((d.set id { f with reader := none }).inbox k).known = (c.inbox k).known ∧
      ((d.set id { f with reader := none }).inbox k).unread = (c.inbox k).unread ∧
      (((d.set id { f with reader := none }).inbox k).reading + if k = id then n else 0) =
        (c.inbox k).reading := by
    rw [inbox_set]
    split
    · next hid =>
      rw [hid, inbox_of_lookup hf, Flw.inbox, Flw.inbox, hn]
      exact ⟨rfl, rfl, Nat.zero_add n⟩
    · rw [inbox_congr hd]
      exact ⟨rfl, rfl, rfl⟩
  obtain ⟨hknown, hunread, hreading⟩ := hinbox
  refine safe_of_holding h (fun hk ↦ hknown.trans hk) ?_ ?_ fun x hx hD ↦ .inl ?_
  · rw [hunread]
    change d.readLoop.incoming k + _ ≤ _
    rw [hr]
  · rw [holding, holding, hunread]
    change d.readLoop.incoming k + _ + _ + (d.granting k).sum + 0 ≤ _
    rw [hr, hgranting, granting, sum_append, sum_append, sum_singleton, hsum]
    omega
  · change ∃ y ∈ d.granting k, _
    rw [hgranting]
    rcases mem_append.mp hx with hx | hx
    · exact ⟨x, mem_append_left _ hx, hD⟩
    · rw [mem_singleton.mp hx] at hD
      obtain ⟨y, hy, hyD⟩ := hl (hsum ▸ hD.trans (Nat.le_add_right _ _))
      exact ⟨y, mem_append_right _ hy, hyD⟩

/-- A release message is sent, or is lost. -/
theorem safe_of_sendRelease {i : ℕ} (h : SafeAt s c (received ++ w) v k)
    (hi : c.releases[i]? = some cs) (hout : out = [] ∨ out = [.release cs]) :
    SafeAt s { c with releases := c.releases.eraseIdx i } w (v ++ out) k := by
  have hperm : (c.granting k).Perm
      (grantsTo cs k ++ granting { c with releases := c.releases.eraseIdx i } k) := by
    obtain ⟨hlt, rfl⟩ := List.getElem?_eq_some_iff.mp hi
    have hreleases := (List.getElem_cons_eraseIdx_perm hlt).symm.flatMap_right (grantsTo · k)
    rw [granting, granting, ← append_assoc]
    exact hreleases.append_right _
  have hsum := hperm.sum_eq
  rw [sum_append] at hsum
  have hholding : c.holding k =
      holding { c with releases := c.releases.eraseIdx i } k + (grantsTo cs k).sum := by
    rw [holding, hsum]
    exact (Nat.add_left_comm _ _ _).trans (Nat.add_comm _ _)
  rcases hout with rfl | rfl
  · refine safe_of_holding h (fun hk ↦ hk) le_rfl (hholding ▸ Nat.le_add_right _ _) fun x hx hD ↦ ?_
    rcases mem_append.mp (hperm.mem_iff.mp hx) with hx | hx
    · -- the first grant is lost
      have := le_sum_of_mem hx
      refine .inr ?_
      change holding { c with releases := c.releases.eraseIdx i } k + 0 + _ ≤ _
      omega
    · exact .inl ⟨x, hx, hD⟩
  · have hgrants : grantsFor [.release cs] k = grantsTo cs k := append_nil _
    refine safe_of_holding h (fun hk ↦ hk) le_rfl ?_ fun x hx hD ↦ .inl ⟨x, ?_, hD⟩
    · rw [hgrants, hholding]
    · rw [hgrants]
      exact hperm.mem_iff.mp hx

/-- The peer opens the flow: the window is granted. -/
theorem safe_of_accept {init size : ℕ} {closeFlag : Bool}
    (h : SafeAt s c ([.openFlow k init size closeFlag] ++ w) v k)
    (hnone : c.flows.lookup k = none)
    (hsender : (s.outbox k).sender ≠ .absent) (hinbox : d.inbox k = ⟨true, 0, 0⟩)
    (hincoming : d.readLoop.incoming k = size)
    (hgranting : d.granting k =
      c.releases.flatMap (grantsTo · k) ++ [defaultBytesBufferedPerFlow]) :
    SafeAt s d w (v ++ []) k := by
  have hbytes : bytesFor [.openFlow k init size closeFlag] k = size :=
    (Nat.add_zero _).trans (if_pos rfl)
  refine h.learn rfl hsender (congrArg Inbox.known (inbox_of_none hnone))
    (congrArg Inbox.known hinbox) ?_ ?_ ?_
  · rw [ledger, ledger]
    rw [hinbox, hincoming, bytesFor_append, hbytes]
    dsimp only
    omega
  · rw [circulating_ledger, circulating_ledger, hinbox, hincoming, hgranting,
      bytesFor_append, hbytes, granting, sum_append, sum_append, append_nil, sum_singleton]
    dsimp only
    omega
  · refine ⟨defaultBytesBufferedPerFlow, mem_append_right _ ?_, le_rfl⟩
    rw [hgranting]
    exact mem_append_right _ (mem_singleton_self _)

/-- The bytes move on, and nothing is granted. -/
theorem safe_of_moved (h : SafeAt s c (received ++ w) v k) (hin : d.inbox k = c.inbox k)
    (hr : d.readLoop.incoming k ≤ bytesFor received k + c.readLoop.incoming k)
    (hg : d.granting k = c.granting k) (hout : grantsFor out k = []) :
    SafeAt s d w (v ++ out) k := by
  refine safe_of_inbox h (fun hk ↦ by rwa [hin]) ?_ hg hout
  rw [hin]
  omega

theorem safe_of_inbox_eq (h : SafeAt s c (received ++ w) v k) (hin : d.inbox k = c.inbox k)
    (hr : d.readLoop = c.readLoop ∨ d.readLoop.incoming = 0) (hg : d.granting k = c.granting k)
    (hout : grantsFor out k = []) : SafeAt s d w (v ++ out) k := by
  refine safe_of_moved h hin ?_ hg hout
  rcases hr with hr | hr
  · rw [hr]
    exact Nat.le_add_left _ _
  · rw [hr]
    exact Nat.zero_le _

theorem safe_of_frame (h : SafeAt s c (received ++ w) v k) (hd : Frame c d)
    (hout : grantsFor out k = []) : SafeAt s d w (v ++ out) k :=
  safe_of_inbox_eq h (congrFun hd.inbox k) (.inl hd.readLoop) (congrFun hd.granting k) hout

/-- A flow that is dialed is known, and has nothing to read. -/
theorem safe_of_dialed (h : SafeAt s c w v k) :
    SafeAt s ({ c with nextFid := c.nextFid + 2 }.set c.nextFid (newFlow true false)) w
    (v ++ []) k := by
  have h : SafeAt s c ([] ++ w) v k := h
  by_cases hid : k = c.nextFid
  · have hinbox : ({ c with nextFid := c.nextFid + 2 }.set c.nextFid (newFlow true false)).inbox k =
        ⟨true, 0, 0⟩ := by
      rw [inbox_set, if_pos hid]
      rfl
    refine safe_of_inbox h (fun _ ↦ by rw [hinbox]) ?_ rfl rfl
    rw [hinbox, readLoop_set]
    dsimp only
    omega
  · refine safe_of_inbox_eq h ?_ (.inl rfl) rfl rfl
    rw [inbox_set, if_neg hid]
    rfl

/-- Bytes are taken from the queue. -/
theorem safe_of_read (h : SafeAt s c (received ++ w) v k) (hf : c.flows.lookup id = some f)
    (hnone : f.reader = none) (hle : n ≤ f.qSize) :
    SafeAt s (c.set id { f with qSize := f.qSize - n, reader := some n }) w (v ++ []) k := by
  by_cases hid : k = id
  · subst hid
    have hold : c.inbox k = ⟨true, f.qSize, 0⟩ := by
      rw [inbox_of_lookup hf, Flw.inbox, hnone]
      rfl
    have hnew : (c.set k { f with qSize := f.qSize - n, reader := some n }).inbox k =
        ⟨true, f.qSize - n, n⟩ := (inbox_set _ _ _ _).trans (if_pos rfl)
    refine safe_of_inbox h (fun _ ↦ by rw [hnew]) ?_ rfl rfl
    rw [hnew, hold, readLoop_set]
    dsimp only
    omega
  · refine safe_of_inbox_eq h ?_ (.inl rfl) rfl rfl
    rw [inbox_set, if_neg hid]

/-- **An effect of the receiver keeps the ledger safe.** -/
theorem safe_of_effect_receiver (heff : Effect c a c' out) (hk : k ≠ invalidFlowID)
    (haccept : ∀ id init size closeFlag, a = .handle (.openFlow id init size closeFlag) →
      (s.outbox id).sender ≠ .absent)
    (h : SafeAt s c (a.received ++ w) v k) :
    SafeAt s c' w (v ++ out) k := by
  cases heff with
  | status hs hr => exact safe_of_inbox_eq h rfl hr rfl rfl
  | noop => exact safe_of_inbox_eq h rfl (.inl rfl) rfl rfl
  | quiet hf same hr hout =>
    refine safe_of_inbox_eq h ?_ hr rfl ?_
    · refine inbox_set_of_eq rfl hf ?_ k
      rw [Flw.inbox, same.qSize, same.reader]
      rfl
    · rcases hout with rfl | rfl <;> rfl
  | dial => exact safe_of_dialed h
  | @borrow id n f w' hf hb hle hold hnew hopens | @spend id n f w' hf hb hle hold hnew hopens =>
    exact safe_of_inbox_eq h (inbox_set_of_eq (by rfl) hf (by rfl) k) (.inl rfl) rfl rfl
  | @wire _ id f w' _ hf hnew hopens hout =>
    refine safe_of_inbox_eq h (inbox_set_of_eq (by rfl) hf (by rfl) k) (.inl rfl) rfl ?_
    rcases hout with rfl | ⟨closeFlag, rfl | ⟨rfl, -⟩⟩ <;> rfl
  | @remove _ id f f' remotely hf same hclosing =>
    obtain ⟨d, g, heq, hflows, -, hgranting, hr, -, hg⟩ := finishClose_eq c id f' remotely
    rw [heq]
    refine safe_of_inbox_eq h (inbox_set_of_eq hflows hf ?_ k) hr (congrFun hgranting k) rfl
    rw [hg, Flw.inbox, same.qSize, same.reader]
    rfl
  | read hf hnone hle => exact safe_of_read h hf hnone hle
  | @count _ id n f t hf hn ht =>
    exact safe_of_count h hf hn rfl rfl rfl (sum_singleton.trans (ht k hk)) fun hD ↦
      ⟨counter t k, mem_singleton_self _, hD.trans_eq sum_singleton⟩
  | @flush _ id n f t hf hn ht =>
    refine safe_of_count (l := (t.lookup k).toList ++ [0]) h hf hn rfl rfl ?_ ?_ ?_
    · rw [granting, flatMap_append, flatMap_singleton, grantsTo_counters t hk, append_assoc]
      rfl
    · rw [← ht k hk, counter]
      rcases t.lookup k with _ | m <;> rfl
    · rcases t.lookup k with _ | m
      · exact fun hD ↦ absurd hD (by decide)
      · exact fun hD ↦ ⟨m, mem_cons_self, hD⟩
  | sendRelease hi hout => exact safe_of_sendRelease h hi hout
  | handleRelease => exact safe_of_frame h (frame_releaseCounters _ c) rfl
  | @handleData id size closeFlag f hf hidle =>
    exact safe_of_moved h rfl (Nat.le_add_right (bytesFor [.data id size closeFlag] k) _) rfl rfl
  | handleDrop hf => exact safe_of_frame h (frame_releaseOutstanding c _ _) rfl
  | @accept id init size closeFlag hnone hpar hidle =>
    by_cases hid : k = id
    · subst hid
      refine safe_of_accept h hnone (haccept k init size closeFlag rfl) ?_ (if_pos rfl) ?_
      · exact (inbox_set _ _ _ _).trans (if_pos rfl)
      · change _ ++ [counter (c.toRelease.insert k defaultBytesBufferedPerFlow) k] = _
        rw [counter, AList.lookup_insert]
        rfl
    · have hincoming : (ReadLoop.put id size closeFlag).incoming k = 0 := if_neg (Ne.symm hid)
      refine safe_of_moved h ?_ (hincoming.trans_le (Nat.zero_le _)) ?_ rfl
      · exact (inbox_set _ _ _ _).trans (if_neg hid)
      · change c.releases.flatMap (grantsTo · k) ++ [counter (c.toRelease.insert id _) k] = _
        rw [counter, AList.lookup_insert_ne hid]
        rfl
  | @put _ id size q closeFlag f r hf hr hr' hq =>
    by_cases hid : k = id
    · subst hid
      have hnew (d : Conn) : (d.set k { f with qSize := q }).inbox k = ⟨true, q, f.reader.getD 0⟩ :=
        (inbox_set _ _ _ _).trans (if_pos rfl)
      have hincoming : c.readLoop.incoming k = size := by
        rw [hr]
        exact if_pos rfl
      refine safe_of_inbox h (fun _ ↦ by rw [hnew]) ?_ rfl rfl
      rw [hnew, hincoming, inbox_of_lookup hf, readLoop_set, hr', Flw.inbox, Pi.zero_apply]
      dsimp only
      omega
    · refine safe_of_inbox_eq h ?_ (.inr hr') rfl rfl
      rw [inbox_set, if_neg hid]
      rfl

end Conn

end Vanadium.Tokens
