import Vanadium.Flow.Delivery
import Vanadium.Foundations.Table

/-!
# Tokens on a connection

The flow control of a `Conn`. A writer may send as many bytes as it has tokens. The reader of a flow
releases tokens; a newly dialed flow, for which nothing has been released yet, borrows tokens from a
pool that all flows of the connection share (`lshared`).

An action is a critical section under `c.mu`, or a step of a goroutine between two of them: a writer
that is given a turn, a call of `close`, a reader, a message that is put on the wire, and the
`readLoop`, which handles one message after the other. Nothing is said about the order in which
writers get their turns. Bytes are counted, not stored: `popSizes` is `popFront` on the lengths of
the parts, and a read queue is its size and whether it is closed (`putSize`).
-/

namespace Vanadium.Tokens

open Foundations
open Vanadium.Flow (Byte Readq byteCount popFront countFront defaultBytesBufferedPerFlow)

/-- The id under which `toRelease` counts the tokens of all flows that borrow. -/
def invalidFlowID : ℕ := 0

def blessingsFlowID : ℕ := 1

def reservedFlows : ℕ := 10

def defaultMtu : ℕ := 2 ^ 16

def proxyOverhead : ℕ := 32

/-- `Status`; the values before `Closing` are not told apart. -/
inductive Status
  | active
  | closing
  | closed
deriving DecidableEq

/-- The messages of flow control. -/
inductive Message
  | openFlow (id initialCounters size : ℕ) (closeFlag : Bool)
  | data (id size : ℕ) (closeFlag : Bool)
  | release (counters : List (ℕ × ℕ))
deriving DecidableEq

/-- The goroutine in `writeMsg`. -/
inductive WriterPc
  | idle
  /-- It waits for its turn. -/
  | waiting (parts : List ℕ)
  /-- It has deducted its tokens and writes `Data`, or `OpenFlow`, to the message pipe. -/
  | sending (opened : Bool) (size : ℕ) (closeFlag : Bool) (rest : List ℕ)
  /-- It has written to the message pipe and waits for the lock. -/
  | sent (rest : List ℕ) (err : Bool)
deriving DecidableEq

/-- The goroutine that closes a flow, after it has set `closed`. -/
inductive CloserPc
  | none
  | flagged (remotely : Bool)
  /-- It has closed the read queue and cancelled the context. -/
  | cancelled (remotely : Bool)
  /-- It waits for its turn to send the close message. -/
  | sending
  | sent
deriving DecidableEq

/-- `flw`, with the goroutines that write, close and read it. -/
structure Flw where
  opened : Bool
  released : ℕ
  borrowed : ℕ
  borrowing : Bool
  closed : Bool
  ctxDone : Bool
  /-- It is in `c.flows`. -/
  inFlows : Bool
  qSize : ℕ
  qClosed : Bool
  writer : WriterPc
  totalSize : ℕ
  alsoClose : Bool
  noEncrypt : Bool
  closer : CloserPc
  /-- A reader has taken this number of bytes from the queue and not released them. -/
  reader : Option ℕ
deriving DecidableEq

/-- Where the `readLoop` is. -/
inductive ReadLoop
  | idle
  /-- It is about to put a payload into the queue of the flow. -/
  | put (id size : ℕ) (closeFlag : Bool)
  /-- It is about to close the flow. -/
  | close (id : ℕ)
  | closing (id : ℕ)
  | ended
deriving DecidableEq

structure Conn where
  mtu : ℕ
  encapsulated : Bool
  /-- There is a `FlowHandler`. -/
  handler : Bool
  status : Status
  nextFid : ℕ
  lshared : ℕ
  /-- All flows, also those that are no longer in `c.flows`. -/
  flows : Table ℕ Flw
  outstandingBorrowed : Table ℕ ℕ
  toRelease : Table ℕ ℕ
  borrowing : List ℕ
  /-- Release messages that wait for their turn. -/
  releases : List (List (ℕ × ℕ))
  readLoop : ReadLoop

/-- Why an action has no result. -/
inductive Stop
  /-- It is not possible. -/
  | disabled
  /-- `ErrCounterOverflow`. -/
  | counterOverflow
  /-- A counter would become negative. -/
  | underflow
  /-- The peer opens a flow twice. -/
  | duplicateFlow
deriving DecidableEq

/-! ## Counting bytes -/

/-- `popFront` on the lengths of the parts: those that are left, and the number of bytes removed. -/
def popSizes : List ℕ → ℕ → List ℕ × ℕ
  | [], _ => ([], 0)
  | p :: ps, num =>
    if num = 0 then (p :: ps, 0)
    else if p ≤ num then ((popSizes ps (num - p)).1, p + (popSizes ps (num - p)).2)
    else ((p - num) :: ps, num)

theorem popSizes_le (parts : List ℕ) (num : ℕ) : (popSizes parts num).2 ≤ num := by
  induction parts generalizing num with
  | nil => exact Nat.zero_le _
  | cons p ps ih =>
    rw [popSizes]
    split
    · exact Nat.zero_le _
    split
    · have := ih (num - p)
      omega
    · exact le_rfl

/-- `put` on the size of the queue. -/
def putSize (size : ℕ) (closed : Bool) (l : ℕ) : Except Flow.PutError ℕ :=
  if l = 0 then .ok size
  else if closed then .ok size
  else if defaultBytesBufferedPerFlow < l + size then .error .counterOverflow
  else .ok (l + size)

namespace Conn

/-! ## Tokens -/

/-- The value of a flow in a map of counters. -/
def counter (t : Table ℕ ℕ) (id : ℕ) : ℕ := (t.lookup id).getD 0

def set (c : Conn) (id : ℕ) (f : Flw) : Conn := { c with flows := c.flows.insert id f }

/-- The most that a message may carry. The subtraction is one of 64-bit numbers. -/
def maxTokens (c : Conn) : ℕ :=
  if c.encapsulated then (c.mtu + 2 ^ 64 - proxyOverhead) % 2 ^ 64 else c.mtu

/-- `tokensLocked`: the number of tokens. -/
def tokensLocked (c : Conn) (f : Flw) : ℕ :=
  if f.borrowing then min c.maxTokens c.lshared else min c.maxTokens f.released

/-- `tokensLocked`: the function that deducts the tokens which were used. -/
def deduct (c : Conn) (f : Flw) (used : ℕ) : Except Stop (Conn × Flw) :=
  if f.borrowing then
    if c.lshared < used then .error .underflow
    else .ok ({ c with lshared := c.lshared - used }, { f with borrowed := f.borrowed + used })
  else
    if f.released < used then .error .underflow
    else .ok (c, { f with released := f.released - used })

def releaseLocked (c : Conn) (id : ℕ) (f : Flw) (tokens : ℕ) : Conn :=
  let n := min tokens f.borrowed
  { c with lshared := c.lshared + n }.set id
    { f with
      borrowing := false
      borrowed := f.borrowed - n
      released := f.released + (tokens - n) }

def releaseOutstandingBorrowedLocked (c : Conn) (fid val : ℕ) : Conn :=
  let borrowed := counter c.outstandingBorrowed fid
  if borrowed = 0 then c
  else
    let released := min val borrowed
    { c with
      lshared := c.lshared + released
      outstandingBorrowed :=
        if released = borrowed then c.outstandingBorrowed.erase fid
        else c.outstandingBorrowed.insert fid (borrowed - released) }

/-- One entry of a `Release` message. -/
def releaseCounter (c : Conn) (fid val : ℕ) : Conn :=
  match c.flows.lookup fid with
  | none => c.releaseOutstandingBorrowedLocked fid val
  | some f =>
    if f.inFlows then c.releaseLocked fid f val
    else c.releaseOutstandingBorrowedLocked fid val

/-! ## Flows -/

/-- `newFlowLocked`. -/
def newFlow (dialed preopen : Bool) : Flw where
  opened := preopen
  released := 0
  borrowed := 0
  borrowing := dialed
  closed := false
  ctxDone := false
  inFlows := true
  qSize := 0
  qClosed := false
  writer := .idle
  totalSize := 0
  alsoClose := false
  noEncrypt := false
  closer := .none
  reader := none

def dial (c : Conn) : Except Stop (Conn × List Message) :=
  if c.status = .active then
    .ok ({ c with nextFid := c.nextFid + 2 }.set c.nextFid (newFlow true false), [])
  else .error .disabled

/-- Act on a flow. -/
def withFlow (c : Conn) (id : ℕ) (k : Flw → Except Stop (Conn × List Message)) :
    Except Stop (Conn × List Message) :=
  match c.flows.lookup id with
  | none => .error .disabled
  | some f => k f

/-! ## Writing -/

/-- `writeMsg` up to its loop. -/
def startWrite (c : Conn) (id : ℕ) (parts : List ℕ) (alsoClose noEncrypt : Bool) :
    Except Stop (Conn × List Message) :=
  c.withFlow id fun f ↦
    if f.writer = .idle ∧ f.ctxDone = false then
      .ok (c.set id { f with
        writer := if parts = [] then .idle else .waiting parts
        totalSize := parts.sum
        alsoClose := alsoClose
        noEncrypt := noEncrypt }, [])
    else .error .disabled

/-- The critical section of a turn in `writeMsg`. -/
def turn (c : Conn) (id : ℕ) : Except Stop (Conn × List Message) :=
  c.withFlow id fun f ↦
    match f.writer with
    | .waiting parts =>
      let tokens := c.tokensLocked f
      if f.opened ∧ (tokens = 0 ∨ f.noEncrypt ∧ tokens < f.totalSize) then .ok (c, [])
      else
        let (rest, size) := popSizes parts tokens
        match c.deduct f size with
        | .error e => .error e
        | .ok (c, f) =>
          let closeFlag := f.alsoClose && rest.isEmpty
          .ok (c.set id { f with writer := .sending f.opened size closeFlag rest }, [])
    | _ => .error .disabled

/-- `mp.writeMsg`, which sends the message or reports an error, or both. -/
def wire (c : Conn) (id : ℕ) (sent err : Bool) : Except Stop (Conn × List Message) :=
  c.withFlow id fun f ↦
    match f.writer with
    | .sending opened size closeFlag rest =>
      let m :=
        if opened then Message.data id size closeFlag
        else .openFlow id defaultBytesBufferedPerFlow size closeFlag
      if sent ∨ err then
        .ok (c.set id { f with writer := .sent rest err }, if sent then [m] else [])
      else .error .disabled
    | _ => .error .disabled

/-- The end of the loop of `writeMsg`. -/
def wired (c : Conn) (id : ℕ) : Except Stop (Conn × List Message) :=
  c.withFlow id fun f ↦
    match f.writer with
    | .sent rest err =>
      .ok (c.set id { f with
        opened := true
        writer := if err ∨ rest = [] then .idle else .waiting rest }, [])
    | _ => .error .disabled

/-- A waiting writer sees that its context is done. -/
def cancelWrite (c : Conn) (id : ℕ) : Except Stop (Conn × List Message) :=
  c.withFlow id fun f ↦
    match f.writer with
    | .waiting _ =>
      if f.ctxDone then .ok (c.set id { f with writer := .idle }, []) else .error .disabled
    | _ => .error .disabled

/-- The context of a flow is cancelled, or its deadline passes. -/
def cancelContext (c : Conn) (id : ℕ) : Except Stop (Conn × List Message) :=
  c.withFlow id fun f ↦ .ok (c.set id { f with ctxDone := true }, [])

/-! ## Closing -/

/-- The first critical section of a local `close`. -/
def close (c : Conn) (id : ℕ) : Except Stop (Conn × List Message) :=
  c.withFlow id fun f ↦
    if f.closed then .ok (c, [])
    else .ok (c.set id { f with closed := true, closer := .flagged false }, [])

/-- `close` closes the read queue and cancels the context. -/
def closeCancel (c : Conn) (id : ℕ) : Except Stop (Conn × List Message) :=
  c.withFlow id fun f ↦
    match f.closer with
    | .flagged remotely =>
      .ok (c.set id { f with qClosed := true, ctxDone := true, closer := .cancelled remotely }, [])
    | _ => .error .disabled

/-- The end of `close`. -/
def finishClose (c : Conn) (id : ℕ) (f : Flw) (remotely : Bool) : Conn :=
  if remotely then
    { c with lshared := c.lshared + f.borrowed, readLoop := .idle }.set id
      { f with borrowed := 0, inFlows := false, closer := .none }
  else if 0 < f.borrowed ∧ c.status = .active then
    { c with outstandingBorrowed := c.outstandingBorrowed.insert id f.borrowed }.set id
      { f with inFlows := false, closer := .none }
  else c.set id { f with inFlows := false, closer := .none }

/-- The second critical section of `close`, up to the close message if one is sent. -/
def closeSection (c : Conn) (id : ℕ) : Except Stop (Conn × List Message) :=
  c.withFlow id fun f ↦
    match f.closer with
    | .cancelled remotely =>
      if f.opened = false then .ok (c.finishClose id { f with opened := true } remotely, [])
      else if remotely = false ∧ c.status ≠ .closing then
        .ok (c.set id { f with closer := .sending }, [])
      else .ok (c.finishClose id f remotely, [])
    | _ => .error .disabled

/-- The close message is sent, or there is an error. -/
def closeWire (c : Conn) (id : ℕ) (sent : Bool) : Except Stop (Conn × List Message) :=
  c.withFlow id fun f ↦
    match f.closer with
    | .sending =>
      .ok (c.set id { f with closer := .sent }, if sent then [.data id 0 true] else [])
    | _ => .error .disabled

/-- The rest of `close`, after the close message. -/
def closeFinal (c : Conn) (id : ℕ) : Except Stop (Conn × List Message) :=
  c.withFlow id fun f ↦
    match f.closer with
    | .sent => .ok (c.finishClose id f false, [])
    | _ => .error .disabled

/-! ## Reading -/

/-- `Read` or `ReadMsg` takes `n` bytes from the queue. -/
def read (c : Conn) (id n : ℕ) : Except Stop (Conn × List Message) :=
  c.withFlow id fun f ↦
    if f.reader = none ∧ n ≤ f.qSize then
      .ok (c.set id { f with qSize := f.qSize - n, reader := some n }, [])
    else .error .disabled

/-- Count tokens to release. -/
def addCounter (t : Table ℕ ℕ) (id n : ℕ) : Table ℕ ℕ := t.insert id (counter t id + n)

/-- The entries of `toRelease` as they are sent. -/
def counters (t : Table ℕ ℕ) : List (ℕ × ℕ) :=
  (t.erase invalidFlowID).entries.map fun e ↦ (e.1, e.2)

/-- `release`, up to the message if one is sent. -/
def release (c : Conn) (id : ℕ) : Except Stop (Conn × List Message) :=
  c.withFlow id fun f ↦
    match f.reader with
    | none => .error .disabled
    | some count =>
      let toRelease := addCounter c.toRelease id count
      let borrowing := decide (id ∈ c.borrowing)
      let toRelease := if borrowing then addCounter toRelease invalidFlowID count else toRelease
      let f := { f with reader := none }
      if defaultBytesBufferedPerFlow / 2 <
          counter toRelease (if borrowing then invalidFlowID else id) then
        .ok ({ c with
          toRelease := ∅
          borrowing := []
          releases := c.releases ++ [counters toRelease] }.set id f, [])
      else .ok ({ c with toRelease := toRelease }.set id f, [])

/-- A release message is sent, or there is an error. -/
def sendRelease (c : Conn) (i : ℕ) (sent : Bool) : Except Stop (Conn × List Message) :=
  match c.releases[i]? with
  | none => .error .disabled
  | some cs => .ok ({ c with releases := c.releases.eraseIdx i },
      if sent then [.release cs] else [])

/-! ## Messages of the peer -/

/-- `handleMessage` returns an error and the `readLoop` closes the connection. -/
def endReadLoop (c : Conn) : Conn :=
  { c with status := if c.status = .active then .closing else c.status, readLoop := .ended }

/-- `handleMessage`, up to the payload. -/
def handle (c : Conn) (m : Message) : Except Stop (Conn × List Message) :=
  if c.readLoop = .idle then
    match m with
    | .release counters =>
      .ok (counters.foldl (fun c e ↦ c.releaseCounter e.1 e.2) c, [])
    | .data id size closeFlag =>
      if c.status = .closing then .ok (c, [])
      else
        match c.flows.lookup id with
        | none => .ok (c.releaseOutstandingBorrowedLocked id (2 ^ 64 - 1), [])
        | some f =>
          if f.inFlows then .ok ({ c with readLoop := .put id size closeFlag }, [])
          else .ok (c.releaseOutstandingBorrowedLocked id (2 ^ 64 - 1), [])
    | .openFlow id initialCounters size closeFlag =>
      if c.nextFid % 2 = id % 2 ∨ c.handler = false then .ok (c.endReadLoop, [])
      else if c.status = .closing then .ok (c, [])
      else if (c.flows.lookup id).isSome then .error .duplicateFlow
      else
        .ok ({ c with
          toRelease := c.toRelease.insert id defaultBytesBufferedPerFlow
          borrowing := id :: c.borrowing
          readLoop := .put id size closeFlag }.releaseLocked id (newFlow false true)
            initialCounters, [])
  else .error .disabled

/-- `handleMessage` puts the payload into the queue. -/
def readPut (c : Conn) : Except Stop (Conn × List Message) :=
  match c.readLoop with
  | .put id size closeFlag =>
    c.withFlow id fun f ↦
      match putSize f.qSize f.qClosed size with
      | .error _ => .error .counterOverflow
      | .ok qSize =>
        .ok ({ c with readLoop := if closeFlag then .close id else .idle }.set id
          { f with qSize := qSize }, [])
  | _ => .error .disabled

/-- The first critical section of `close` when the peer has closed the flow. -/
def readClose (c : Conn) : Except Stop (Conn × List Message) :=
  match c.readLoop with
  | .close id =>
    c.withFlow id fun f ↦
      if f.closed then .ok ({ c with readLoop := .idle }, [])
      else
        .ok ({ c with readLoop := .closing id }.set id
          { f with closed := true, closer := .flagged true }, [])
  | _ => .error .disabled

/-- `internalClose`. -/
def closeConn (c : Conn) : Except Stop (Conn × List Message) :=
  .ok ({ c with status := if c.status = .active then .closing else c.status }, [])

/-- The end of `internalClose`. -/
def closedConn (c : Conn) : Except Stop (Conn × List Message) :=
  if c.status = .closing then .ok ({ c with status := .closed }, []) else .error .disabled

end Conn

/-! ## Actions -/

inductive Action
  | dial
  | startWrite (id : ℕ) (parts : List ℕ) (alsoClose noEncrypt : Bool)
  | turn (id : ℕ)
  | wire (id : ℕ) (sent err : Bool)
  | wired (id : ℕ)
  | cancelWrite (id : ℕ)
  | cancelContext (id : ℕ)
  | close (id : ℕ)
  | closeCancel (id : ℕ)
  | closeSection (id : ℕ)
  | closeWire (id : ℕ) (sent : Bool)
  | closeFinal (id : ℕ)
  | read (id n : ℕ)
  | release (id : ℕ)
  | sendRelease (i : ℕ) (sent : Bool)
  | handle (m : Message)
  | readPut
  | readClose
  | closeConn
  | closedConn
deriving DecidableEq

/-- The effect of an action: the new state and the messages that go out. -/
def Conn.exec (c : Conn) : Action → Except Stop (Conn × List Message)
  | .dial => c.dial
  | .startWrite id parts alsoClose noEncrypt => c.startWrite id parts alsoClose noEncrypt
  | .turn id => c.turn id
  | .wire id sent err => c.wire id sent err
  | .wired id => c.wired id
  | .cancelWrite id => c.cancelWrite id
  | .cancelContext id => c.cancelContext id
  | .close id => c.close id
  | .closeCancel id => c.closeCancel id
  | .closeSection id => c.closeSection id
  | .closeWire id sent => c.closeWire id sent
  | .closeFinal id => c.closeFinal id
  | .read id n => c.read id n
  | .release id => c.release id
  | .sendRelease i sent => c.sendRelease i sent
  | .handle m => c.handle m
  | .readPut => c.readPut
  | .readClose => c.readClose
  | .closeConn => c.closeConn
  | .closedConn => c.closedConn

/-- The shared tokens that `setup` agrees on, if the peer proposes `remote`. -/
def sharedTokens (remote : ℕ) : ℕ :=
  if remote ≠ 0 ∧ remote < defaultBytesBufferedPerFlow then remote
  else defaultBytesBufferedPerFlow

/-- A `Conn` after the handshake, dialed or accepted. Its one flow is the blessings flow; only the
dialer releases tokens to it at once. -/
def Conn.new (dialer encapsulated handler : Bool) (remoteMtu remoteTokens : ℕ) : Conn :=
  let c : Conn :=
    { mtu := if remoteMtu ≠ 0 then remoteMtu else defaultMtu
      encapsulated := encapsulated
      handler := handler
      status := .active
      nextFid := if dialer then reservedFlows else reservedFlows + 1
      lshared := sharedTokens remoteTokens
      flows := (∅ : Table ℕ Flw).insert blessingsFlowID (Conn.newFlow true true)
      outstandingBorrowed := ∅
      toRelease := ∅
      borrowing := []
      releases := []
      readLoop := .idle }
  if dialer then c.releaseLocked blessingsFlowID (Conn.newFlow true true)
    defaultBytesBufferedPerFlow
  else c

end Vanadium.Tokens
