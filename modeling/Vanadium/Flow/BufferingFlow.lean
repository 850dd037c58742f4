import Vanadium.Foundations.Transition

/-!
# Buffered writes

`bufferingflow.go`: a flow that collects what is written and passes it on when the MTU would be
exceeded, on `Flush` and when it is closed. What the wrapped flow has received, followed by the
buffer, is what was written (`Inv`). Every method locks `b.mu`, and `WriteMsgAndClose` calls two of
them under the lock, so it waits for itself unless the flow is closed already.
-/

namespace Vanadium.BufferingFlow

open Foundations.Transition

variable {β : Type}

/-- `BufferingFlow` over a flow that accepts all writes. -/
structure State (β : Type) where
  mtu : ℕ
  buf : Option (List β)
  /-- What the wrapped flow has received. -/
  received : List β
  /-- What it had received when it was closed for the first time. -/
  closedWith : Option (List β)
  /-- What all calls so far were given. -/
  written : List β

def newBufferingFlow (mtu : ℕ) : State β := ⟨mtu, some [], [], none, []⟩

namespace State

/-! ## The wrapped flow -/

def flowWriteMsg (s : State β) (data : List (List β)) : State β :=
  { s with received := s.received ++ data.flatten }

def flowClose (s : State β) : State β :=
  { s with closedWith := s.closedWith.or (some s.received) }

def flowWriteMsgAndClose (s : State β) (data : List (List β)) : State β :=
  (s.flowWriteMsg data).flowClose

/-! ## The methods

Each has an argument that says whether its caller holds `b.mu`; it then never returns, which is
`none`.
-/

/-- The loop of `WriteMsg`, with the contents of the buffer. -/
def bufferParts (s : State β) (buf : List β) : List (List β) → State β
  | [] => { s with buf := some buf }
  | d :: data =>
    if 0 < buf.length ∧ s.mtu < buf.length + d.length then (s.flowWriteMsg [buf]).bufferParts d data
    else s.bufferParts (buf ++ d) data

def writeMsg (locked : Bool) (s : State β) (data : List (List β)) : Option (State β × ℕ) :=
  if locked then none
  else
    match s.buf with
    | none => some (s.flowWriteMsg data, data.flatten.length)
    | some buf => some (s.bufferParts buf data, data.flatten.length)

def close (locked : Bool) (s : State β) : Option (State β) :=
  if locked then none
  else
    match s.buf with
    | none => some s.flowClose
    | some buf => some { s.flowWriteMsgAndClose [buf] with buf := none }

def writeMsgAndClose (locked : Bool) (s : State β) (data : List (List β)) : Option (State β × ℕ) :=
  if locked then none
  else
    match s.buf with
    | none => some (s.flowWriteMsgAndClose data, data.flatten.length)
    | some _ => do
      let (s, wrote) ← s.writeMsg true data
      return (← s.close true, wrote)

def flush (locked : Bool) (s : State β) : Option (State β) :=
  if locked then none
  else
    match s.buf with
    | none => some s
    | some buf => some (if 0 < buf.length then { s.flowWriteMsg [buf] with buf := some [] } else s)

end State

inductive Op (β : Type) where
  | write (data : List β)
  | writeMsg (data : List (List β))
  | flush
  /-- The method of the wrapped flow. -/
  | setDeadlineContext
  | writeMsgAndClose (data : List (List β))
  | close

/-- The bytes that a call is given. -/
@[simp]
def Op.bytes : Op β → List β
  | .write data => data
  | .writeMsg data | .writeMsgAndClose data => data.flatten
  | .flush | .setDeadlineContext | .close => []

namespace State

def exec (s : State β) : Op β → Option (State β)
  | .write data => (s.writeMsg false [data]).map Prod.fst
  | .writeMsg data => (s.writeMsg false data).map Prod.fst
  | .flush => s.flush false
  | .setDeadlineContext => some s
  | .writeMsgAndClose data => (s.writeMsgAndClose false data).map Prod.fst
  | .close => s.close false

/-- A call; `none` if it does not return. -/
def step (s : State β) (op : Op β) : Option (State β) :=
  (s.exec op).map fun s' ↦ { s' with written := s.written ++ op.bytes }

/-- `WriteMsgAndClose` is not used before the flow is closed, and nothing is written after that. -/
def admissible (s : State β) : Op β → Bool
  | .writeMsgAndClose data => s.buf.isNone && data.flatten.isEmpty
  | op => s.buf.isSome || op.bytes.isEmpty

/-! ## Nothing is lost -/

/-- What was received and what is buffered is what was written, and all of it was received before
the wrapped flow was closed. -/
structure Inv (s : State β) : Prop where
  written : s.received ++ s.buf.getD [] = s.written
  closed : ∀ r, s.closedWith = some r → r = s.received ∧ s.buf = none

variable {s : State β} {op : Op β}

theorem bufferParts_eq (s : State β) (buf : List β) (data : List (List β)) :
    ∃ received buf', s.bufferParts buf data = { s with received := received, buf := some buf' } ∧
      received ++ buf' = s.received ++ buf ++ data.flatten := by
  induction data generalizing s buf with
  | nil => exact ⟨s.received, buf, rfl, (List.append_nil _).symm⟩
  | cons d data ih =>
    rw [bufferParts]
    split
    · obtain ⟨received, buf', heq, happ⟩ := ih (s.flowWriteMsg [buf]) d
      exact ⟨received, buf', heq, by simpa [flowWriteMsg] using happ⟩
    · obtain ⟨received, buf', heq, happ⟩ := ih s (buf ++ d)
      exact ⟨received, buf', heq, by simpa using happ⟩

theorem flowWriteMsg_of_nil {data : List (List β)} (h : data.flatten = []) :
    s.flowWriteMsg data = s := by
  rw [flowWriteMsg, h, List.append_nil]

/-- A flow that is closed at most closes the wrapped flow once more. -/
theorem exec_of_closed (hbuf : s.buf = none) (hop : s.admissible op) :
    op.bytes = [] ∧ (s.exec op = some s ∨ s.exec op = some s.flowClose) := by
  cases op with
  | setDeadlineContext => exact ⟨rfl, .inl rfl⟩
  | flush => exact ⟨rfl, .inl (by simp [exec, flush, hbuf])⟩
  | close => exact ⟨rfl, .inr (by simp [exec, close, hbuf])⟩
  | write data =>
    obtain rfl : data = [] := by simpa [admissible, hbuf] using hop
    exact ⟨rfl, .inl (by simp [exec, writeMsg, hbuf, flowWriteMsg_of_nil])⟩
  | writeMsg data =>
    have hnil : data.flatten = [] := by simpa [admissible, hbuf] using hop
    exact ⟨hnil, .inl (by simp [exec, writeMsg, hbuf, flowWriteMsg_of_nil hnil])⟩
  | writeMsgAndClose data =>
    have hnil : data.flatten = [] := by simpa [admissible, hbuf] using hop
    refine ⟨hnil, .inr ?_⟩
    simp [exec, writeMsgAndClose, hbuf, flowWriteMsgAndClose, flowWriteMsg_of_nil hnil]

theorem exec_of_open {buf : List β} (hbuf : s.buf = some buf) (hop : s.admissible op) :
    ∃ s', s.exec op = some s' ∧
      s'.received ++ s'.buf.getD [] = s.received ++ buf ++ op.bytes ∧
      (s'.closedWith = s.closedWith ∨ s' = { s.flowWriteMsgAndClose [buf] with buf := none }) := by
  have hwrite (data : List (List β)) : ∃ s', (s.writeMsg false data).map Prod.fst = some s' ∧
      s'.received ++ s'.buf.getD [] = s.received ++ buf ++ data.flatten ∧
      (s'.closedWith = s.closedWith ∨ s' = { s.flowWriteMsgAndClose [buf] with buf := none }) := by
    obtain ⟨received, buf', heq, happ⟩ := bufferParts_eq s buf data
    refine ⟨s.bufferParts buf data, by simp [writeMsg, hbuf], ?_, .inl ?_⟩
    · rw [heq]
      exact happ
    · rw [heq]
  cases op with
  | setDeadlineContext => exact ⟨s, rfl, by simp [hbuf], .inl rfl⟩
  | flush =>
    refine ⟨_, by rw [exec, flush, hbuf]; rfl, ?_⟩
    split
    · exact ⟨by simp [flowWriteMsg], .inl rfl⟩
    · exact ⟨by simp [hbuf], .inl rfl⟩
  | close =>
    refine ⟨_, by rw [exec, close, hbuf]; rfl, ?_, .inr rfl⟩
    simp [flowWriteMsgAndClose, flowWriteMsg, flowClose]
  | write data =>
    obtain ⟨s', heq, happ, hclosed⟩ := hwrite [data]
    exact ⟨s', heq, by simpa using happ, hclosed⟩
  | writeMsg data => exact hwrite data
  | writeMsgAndClose data => simp [admissible, hbuf] at hop

theorem inv_newBufferingFlow (mtu : ℕ) : (newBufferingFlow mtu : State β).Inv := by
  refine ⟨rfl, fun r hr ↦ ?_⟩
  cases hr

/-- **A call returns and loses nothing.** -/
theorem Inv.step (h : s.Inv) (hop : s.admissible op) : ∃ s', s.step op = some s' ∧ s'.Inv := by
  rw [State.step]
  cases hbuf : s.buf with
  | some buf =>
    have hnone : s.closedWith = none := by
      refine Option.eq_none_iff_forall_ne_some.mpr fun r hr ↦ ?_
      rw [(h.closed r hr).2] at hbuf
      cases hbuf
    have hwritten : s.received ++ buf = s.written := by simpa [hbuf] using h.written
    obtain ⟨s', heq, happ, hclosed⟩ := exec_of_open hbuf hop
    rw [heq, ← hwritten]
    refine ⟨_, rfl, happ, fun r (hr : s'.closedWith = some r) ↦ ?_⟩
    obtain hsame | rfl := hclosed
    · rw [hsame, hnone] at hr
      cases hr
    · simp only [flowWriteMsgAndClose, flowClose, flowWriteMsg, hnone] at hr
      exact ⟨(Option.some.inj hr).symm, rfl⟩
  | none =>
    obtain ⟨hbytes, heq | heq⟩ := exec_of_closed hbuf hop
    · rw [heq, hbytes, List.append_nil]
      exact ⟨s, rfl, h⟩
    · rw [heq, hbytes, List.append_nil]
      refine ⟨s.flowClose, rfl, h.written, fun r hr ↦ ⟨?_, hbuf⟩⟩
      obtain hr | ⟨-, hr⟩ := Option.or_eq_some_iff.mp hr
      · exact (h.closed r hr).1
      · exact (Option.some.inj hr).symm

end State

/-- **A buffering flow is transparent**: as long as `WriteMsgAndClose` is not used on an open flow
and nothing is written to a closed one, every call returns, what the wrapped flow has received and
what is buffered is what was written, and a closed flow received all of it before it was closed. -/
theorem transparent_of_run (mtu : ℕ) (ops : List (Op β)) (s : State β)
    (h : run (guarded (fun s op ↦ State.admissible s op) State.step) (newBufferingFlow mtu) ops =
      some s) :
    (∀ op, s.admissible op → ∃ s', s.step op = some s') ∧
      s.received ++ s.buf.getD [] = s.written ∧
      ∀ r, s.closedWith = some r → r = s.written := by
  have hinv : s.Inv := by
    refine guarded_invariant (fun s op s' hs hop hstep ↦ ?_) (State.inv_newBufferingFlow mtu) h
    obtain ⟨t, ht, hinv⟩ := hs.step hop
    rw [hstep] at ht
    exact Option.some.inj ht ▸ hinv
  refine ⟨fun op hop ↦ ?_, hinv.written, fun r hr ↦ ?_⟩
  · obtain ⟨s', hs', -⟩ := hinv.step hop
    exact ⟨s', hs'⟩
  · obtain ⟨rfl, hbuf⟩ := hinv.closed r hr
    simpa [hbuf] using hinv.written

/-- Three bytes are written to a flow with an MTU of 2, which is then closed. -/
theorem transparent_of_run_close : ∃ s : State ℕ,
    s.closedWith = some [1, 2, 3] ∧ s.received ++ s.buf.getD [] = s.written := by
  obtain ⟨s, hrun, hs⟩ := exists_run_of_any (P := fun s ↦ s.closedWith == some [1, 2, 3])
    (show (run (guarded (fun s op ↦ State.admissible s op) State.step) (newBufferingFlow 2)
      [.writeMsg [[1, 2], [3]], .flush, .close]).any _ = true by decide)
  exact ⟨s, beq_iff_eq.mp hs, (transparent_of_run 2 _ s hrun).2.1⟩

/-- `WriteMsgAndClose` of a new flow waits for the lock that it holds. -/
theorem writeMsgAndClose_blocks :
    (newBufferingFlow 2 : State ℕ).step (.writeMsgAndClose [[1]]) = none :=
  rfl

end Vanadium.BufferingFlow
