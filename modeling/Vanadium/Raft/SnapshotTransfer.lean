import Vanadium.Foundations.Program
import Vanadium.Raft.Server

/-!
# Sending a snapshot to a follower

The leader reads its snapshot file through a buffer and sends what it has read, message by message;
the follower appends the messages to a file and restores its client from that file.

The sender hands over the whole buffer and not the part that the read has filled, and the receiver
appends to whatever the file held before. The follower therefore stores the leader's bytes exactly
when every read filled the buffer and no file was left from an earlier attempt
(`snapshot_faithful_iff`).
-/

namespace Vanadium.Raft

open Foundations Program List Option
open Server (SnapshotMsg)
open EStateM (Result)

variable {ι : Type} {fn : Term × Index} {values : List Bytes}

/-! ## The sender -/

/-- What one `Read` returns besides the bytes: `nil`, `io.EOF` or another error. -/
inductive ReadErr where
  | eof
  | other
  deriving DecidableEq

/-- The result of one `Read`: the bytes put at the front of the buffer, and the error. -/
structure ReadResult where
  bytes : Bytes
  err : Option ReadErr
  deriving DecidableEq

/-- The reads that are still to come; after them the reader is at its end. -/
abbrev Reader : Type := List ReadResult

/-- `rd.Read`. -/
def Reader.read : Reader → ReadResult × Reader
  | [] => (⟨[], some .eof⟩, [])
  | r :: rd => (r, rd)

/-- The size of the buffer. -/
def bufSize : ℕ := 10240

/-- A way to read `content`: each read returns at most a buffer of it, and none reports the end
before it is reached. -/
structure Reader.Reads (rd : Reader) (content : Bytes) : Prop where
  content : (rd.map ReadResult.bytes).flatten = content
  size : ∀ r ∈ rd, r.bytes.length ≤ bufSize
  more : ∀ r ∈ rd, r ≠ ⟨[], some .eof⟩

/-- The buffer after a read into it: what the read did not reach stays as it was. -/
def fill (b data : Bytes) : Bytes := data ++ b.drop data.length

/-- The loop of `sendLatestSnapshot`: the messages that were sent, and whether a `Send` failed after
them. `sendFails` tells for each message whether its `Send` fails. The loop has no bound of its own,
so that it gets one as fuel. -/
def sendLoop (sendFails : ℕ → Bool) : ℕ → ℕ → Bytes → Reader → Option (List Bytes × Bool)
  | 0, _, _, _ => none
  | fuel + 1, k, b, rd =>
    match rd.read with
    | (r, rd') =>
      if r = ⟨[], some .eof⟩ then some ([], false)
      else if sendFails k then some ([], true)
      else
        (sendLoop sendFails fuel (k + 1) (fill b r.bytes) rd').map fun sent ↦
          (fill b r.bytes :: sent.1, sent.2)

/-- The messages for the given reads, each the buffer as the reads so far have left it. -/
def messages : Bytes → Reader → List Bytes
  | _, [] => []
  | b, r :: rd => fill b r.bytes :: messages (fill b r.bytes) rd

/-! ## The receiver -/

/-- A member that receives a snapshot: its server, its snapshot files and what its client was last
restored from. -/
structure Follower (ι : Type) where
  server : Server ι
  snaps : Table (Term × Index) Bytes
  restored : Option (Index × Bytes)

/-- Which calls of the file system, of the stream and of the client fail. -/
structure StoreFaults where
  openFails : Bool
  writeFails : ℕ → Bool
  syncFails : Bool
  closeFails : Bool
  recvFails : Bool
  reopenFails : Bool
  restoreFails : Bool

abbrev FollowerM (ι : Type) : Type → Type := EStateM RaftErr (Follower ι)

/-- `os.OpenFile` with `O_CREATE|O_APPEND`: the file is created if it is not there. -/
def openAppend (fn : Term × Index) : FollowerM ι PUnit :=
  modify fun f ↦ { f with snaps := AList.insert fn ((AList.lookup fn f.snaps).getD []) f.snaps }

/-- `fp.Write`. -/
def appendBytes (fn : Term × Index) (value : Bytes) : FollowerM ι PUnit :=
  modify fun f ↦
    { f with snaps := AList.insert fn ((AList.lookup fn f.snaps).getD [] ++ value) f.snaps }

/-- Remove the file and fail, if a condition holds. -/
def removeAndFailIf (fn : Term × Index) (fails : Bool) : FollowerM ι PUnit :=
  if fails then do
    modify fun f ↦ { f with snaps := AList.erase fn f.snaps }
    throw .other
  else pure ⟨⟩

/-- The loop that writes the received messages to the file. -/
def writeAll (fn : Term × Index) (writeFails : ℕ → Bool) : ℕ → List Bytes → FollowerM ι PUnit
  | _, [] => pure ⟨⟩
  | k, value :: values => do
    removeAndFailIf fn (writeFails k)
    appendBytes fn value
    writeAll fn writeFails (k + 1) values

/-- `RestoreFromSnapshot` on the file that was just written. -/
def restoreFrom (fn : Term × Index) : FollowerM ι PUnit :=
  modify fun f ↦ { f with restored := some (fn.2, (AList.lookup fn f.snaps).getD []) }

/-- `SnapshotFromLeader`, up to the updates of the server. A file that could not be read back or
that the client could not be restored from stays in the directory. -/
def snapshotFromLeader (io : StoreFaults) (fn : Term × Index) (values : List Bytes) :
    FollowerM ι PUnit := do
  failIf (io.openFails = true) .other
  openAppend fn
  writeAll fn io.writeFails 0 values
  removeAndFailIf fn io.syncFails
  removeAndFailIf fn io.closeFails
  removeAndFailIf fn io.recvFails
  failIf (io.reopenFails = true) .other
  failIf (io.restoreFails = true) .other
  restoreFrom fn

/-- `InstallSnapshot`: the term check, then the snapshot, then the server's own state. -/
def Follower.install (io : StoreFaults) (msg : SnapshotMsg ι) (values : List Bytes)
    (f : Follower ι) : Follower ι × Except RaftErr Unit :=
  if msg.term < f.server.p.currentTerm then
    (f, .error (.badTerm msg.term f.server.p.currentTerm))
  else
    match snapshotFromLeader io (msg.appliedTerm, msg.appliedIndex) values f with
    | .error e f' => ({ f' with server := (f.server.installSnapshot msg (.error e)).1 }, .error e)
    | .ok _ f' => ({ f' with server := (f.server.installSnapshot msg (.ok ())).1 }, .ok ())

/-! ## The whole transfer -/

/-- Which steps of the sender fail. -/
structure SendFaults where
  openFails : Bool
  callFails : Bool
  sendFails : ℕ → Bool
  finishFails : Bool

/-- `sendLatestSnapshot` from the leader `me` to the member `m`, with the messages handed on to `m`.
A stream that breaks off reaches the follower as a stream error. -/
def sendLatestSnapshot (fuel : ℕ) (me m : ι) (s : Server ι) (rd : Reader) (net : SendFaults)
    (io : StoreFaults) (f : Follower ι) : Option (Except RaftErr Index × Follower ι) :=
  match s.p.lastSnap with
  | none => some (.error .noSnapshot, f)
  | some (term, index) =>
    if net.openFails ∨ net.callFails then some (.error .other, f)
    else
      let msg : SnapshotMsg ι := ⟨m, s.p.currentTerm, me, term, index⟩
      match sendLoop net.sendFails fuel 0 (replicate bufSize 0) rd with
      | none => none
      | some (values, true) =>
        some (.error .other, (f.install { io with recvFails := true } msg values).1)
      | some (values, false) =>
        match f.install io msg values with
        | (f', .error e) => some (.error e, f')
        | (f', .ok _) => some (if net.finishFails then .error .other else .ok index, f')

/-! ## What is stored -/

variable {io : StoreFaults} (rd : Reader) (b : Bytes)

theorem length_fill {b data : Bytes} (h : data.length ≤ b.length) :
    (fill b data).length = b.length := by
  rw [fill, length_append, length_drop]
  omega

theorem sendLoop_ends (sendFails : ℕ → Bool) (rd : Reader) (fuel k : ℕ) (b : Bytes)
    (hfuel : rd.length < fuel) (hmore : ∀ r ∈ rd, r ≠ ⟨[], some .eof⟩) :
    ∃ sent failed, sendLoop sendFails fuel k b rd = some (sent, failed) ∧
      (failed = false → sent = messages b rd) := by
  induction rd generalizing fuel k b with
  | nil =>
    obtain ⟨n, rfl⟩ := Nat.exists_eq_succ_of_ne_zero (Nat.ne_zero_of_lt hfuel)
    exact ⟨[], false, rfl, fun _ ↦ rfl⟩
  | cons r rd ih =>
    obtain ⟨n, rfl⟩ := Nat.exists_eq_succ_of_ne_zero (Nat.ne_zero_of_lt hfuel)
    obtain ⟨hr, hrd⟩ := forall_mem_cons.mp hmore
    rw [sendLoop]
    dsimp only [Reader.read]
    rw [if_neg hr]
    split
    · exact ⟨[], true, rfl, fun h ↦ by cases h⟩
    · obtain ⟨sent, failed, hsent, hall⟩ :=
        ih n (k + 1) (fill b r.bytes) (Nat.lt_of_succ_lt_succ hfuel) hrd
      rw [hsent]
      exact ⟨_, _, rfl, fun h ↦ by rw [messages, hall h]⟩

theorem length_flatten_messages
    (hsize : ∀ r ∈ rd, r.bytes.length ≤ b.length) :
    (messages b rd).flatten.length = rd.length * b.length := by
  induction rd generalizing b with
  | nil => simp [messages]
  | cons r rd ih =>
    obtain ⟨hr, hrd⟩ := forall_mem_cons.mp hsize
    have hfill := length_fill hr
    rw [messages, flatten_cons, length_append, ih _ (by rwa [hfill]), hfill,
      length_cons, Nat.succ_mul, Nat.add_comm]

theorem flatten_messages_of_full
    (hfull : ∀ r ∈ rd, r.bytes.length = b.length) :
    (messages b rd).flatten = (rd.map ReadResult.bytes).flatten := by
  induction rd generalizing b with
  | nil => rfl
  | cons r rd ih =>
    obtain ⟨hr, hrd⟩ := forall_mem_cons.mp hfull
    rw [messages, flatten_cons, fill, drop_eq_nil_of_le hr.ge, append_nil,
      ih _ (by rwa [hr]), map_cons, flatten_cons]

theorem full_of_length_le {n : ℕ} : ∀ (rd : Reader), (∀ r ∈ rd, r.bytes.length ≤ n) →
    rd.length * n ≤ (rd.map ReadResult.bytes).flatten.length → ∀ r ∈ rd, r.bytes.length = n := by
  have hle : ∀ (rd : Reader), (∀ r ∈ rd, r.bytes.length ≤ n) →
      (rd.map ReadResult.bytes).flatten.length ≤ rd.length * n := by
    intro rd
    induction rd with
    | nil => intro _; simp
    | cons r rd ih =>
      intro hsize
      obtain ⟨hr, hrd⟩ := forall_mem_cons.mp hsize
      have := ih hrd
      rw [map_cons, flatten_cons, length_append, length_cons, Nat.succ_mul]
      omega
  intro rd
  induction rd with
  | nil => intro _ _ r hr; cases hr
  | cons r rd ih =>
    intro hsize hlen
    obtain ⟨hr, hrd⟩ := forall_mem_cons.mp hsize
    rw [map_cons, flatten_cons, length_append, length_cons, Nat.succ_mul] at hlen
    have := hle rd hrd
    exact forall_mem_cons.mpr ⟨by omega, ih hrd (by omega)⟩

theorem append_messages_eq_iff {rd : Reader} {content b old : Bytes}
    (hcontent : (rd.map ReadResult.bytes).flatten = content)
    (hsize : ∀ r ∈ rd, r.bytes.length ≤ b.length) :
    old ++ (messages b rd).flatten = content ↔ old = [] ∧ ∀ r ∈ rd, r.bytes.length = b.length := by
  constructor
  · intro h
    have hlen := congrArg length h
    rw [length_append, length_flatten_messages rd b hsize, ← hcontent] at hlen
    have hfull := full_of_length_le rd hsize (by omega)
    refine ⟨?_, hfull⟩
    rw [flatten_messages_of_full rd b hfull, hcontent] at h
    exact append_left_eq_self.mp h
  · rintro ⟨rfl, hfull⟩
    rw [nil_append, flatten_messages_of_full rd b hfull, hcontent]

/-! ## What the follower does -/

theorem removeAndFailIf_eq_ok_iff {fails : Bool} {f f' : Follower ι} :
    removeAndFailIf fn fails f = Result.ok ⟨⟩ f' ↔ fails = false ∧ f' = f := by
  cases fails with
  | false => exact ⟨fun h ↦ ⟨rfl, (by cases h; rfl)⟩, fun h ↦ by rw [h.2]; rfl⟩
  | true =>
    constructor
    · intro h
      cases h
    · rintro ⟨h, -⟩
      cases h

theorem writeAll_ok {writeFails : ℕ → Bool} {values : List Bytes} {k : ℕ} {f f' : Follower ι}
    (hsome : (f.snaps.lookup fn).isSome = true)
    (h : writeAll fn writeFails k values f = Result.ok ⟨⟩ f') :
    f'.snaps.lookup fn = some ((f.snaps.lookup fn).getD [] ++ values.flatten) := by
  induction values generalizing k f f' with
  | nil =>
    cases h
    obtain ⟨c, hc⟩ := isSome_iff_exists.mp hsome
    rw [hc, flatten_nil, append_nil, getD_some]
  | cons value values ih =>
    rw [writeAll] at h
    obtain ⟨_, f₁, h₁, t₁⟩ := bind_eq_ok_iff.mp h
    obtain ⟨-, rfl⟩ := removeAndFailIf_eq_ok_iff.mp h₁
    obtain ⟨_, f₂, h₂, t₂⟩ := bind_eq_ok_iff.mp t₁
    cases h₂
    have hrest := ih (by simp) t₂
    rw [AList.lookup_insert, getD_some] at hrest
    rw [hrest, flatten_cons, append_assoc]

theorem snapshotFromLeader_ok
    {f f' : Follower ι} (h : snapshotFromLeader io fn values f = Result.ok ⟨⟩ f') :
    f'.snaps.lookup fn = some ((f.snaps.lookup fn).getD [] ++ values.flatten) ∧
      f'.restored = some (fn.2, (f.snaps.lookup fn).getD [] ++ values.flatten) := by
  rw [snapshotFromLeader] at h
  obtain ⟨_, f₀, h₀, t₀⟩ := bind_eq_ok_iff.mp h
  obtain ⟨-, rfl⟩ := failIf_eq_ok_iff.mp h₀
  obtain ⟨_, f₁, h₁, t₁⟩ := bind_eq_ok_iff.mp t₀
  cases h₁
  obtain ⟨_, f₂, h₂, t₂⟩ := bind_eq_ok_iff.mp t₁
  have hwritten := writeAll_ok (by simp) h₂
  rw [AList.lookup_insert, getD_some] at hwritten
  obtain ⟨_, f₃, h₃, t₃⟩ := bind_eq_ok_iff.mp t₂
  obtain ⟨-, rfl⟩ := removeAndFailIf_eq_ok_iff.mp h₃
  obtain ⟨_, f₄, h₄, t₄⟩ := bind_eq_ok_iff.mp t₃
  obtain ⟨-, rfl⟩ := removeAndFailIf_eq_ok_iff.mp h₄
  obtain ⟨_, f₅, h₅, t₅⟩ := bind_eq_ok_iff.mp t₄
  obtain ⟨-, rfl⟩ := removeAndFailIf_eq_ok_iff.mp h₅
  obtain ⟨_, f₆, h₆, t₆⟩ := bind_eq_ok_iff.mp t₅
  obtain ⟨-, rfl⟩ := failIf_eq_ok_iff.mp h₆
  obtain ⟨_, f₇, h₇, t₇⟩ := bind_eq_ok_iff.mp t₆
  obtain ⟨-, rfl⟩ := failIf_eq_ok_iff.mp h₇
  cases t₇
  refine ⟨hwritten, ?_⟩
  dsimp only
  rw [hwritten, getD_some]

theorem install_ok {msg : SnapshotMsg ι}
    {f f' : Follower ι} (h : f.install io msg values = (f', .ok ())) :
    f'.snaps.lookup (msg.appliedTerm, msg.appliedIndex) =
        some ((f.snaps.lookup (msg.appliedTerm, msg.appliedIndex)).getD [] ++
          values.flatten) ∧
      f'.restored = some (msg.appliedIndex,
        (f.snaps.lookup (msg.appliedTerm, msg.appliedIndex)).getD [] ++ values.flatten) := by
  rw [Follower.install] at h
  split at h
  · cases (Prod.mk.inj h).2
  · cases hs : snapshotFromLeader io (msg.appliedTerm, msg.appliedIndex) values f with
    | error e g =>
      rw [hs] at h
      cases (Prod.mk.inj h).2
    | ok u g =>
      rw [hs] at h
      obtain ⟨rfl, -⟩ := Prod.mk.inj h
      obtain ⟨hlookup, hrestored⟩ := snapshotFromLeader_ok hs
      exact ⟨hlookup, hrestored⟩

/-- The follower holds and has restored the given bytes for the snapshot at `fn`. -/
def Follower.Holds (f : Follower ι) (fn : Term × Index) (content : Bytes) : Prop :=
  AList.lookup fn f.snaps = some content ∧ f.restored = some (fn.2, content)

/-- The transfer ends, and one that succeeded has put the messages behind what the file held. -/
theorem sendLatestSnapshot_spec (me m : ι) {s : Server ι} {term : Term} {index : Index}
    {rd : Reader} {fuel : ℕ} (hsnap : s.p.lastSnap = some (term, index))
    (hmore : ∀ r ∈ rd, r ≠ ⟨[], some .eof⟩)
    (hfuel : rd.length < fuel) (net : SendFaults) (io : StoreFaults) (f : Follower ι) :
    ∃ res f', sendLatestSnapshot fuel me m s rd net io f = some (res, f') ∧
      ∀ i, res = .ok i → i = index ∧
        f'.Holds (term, index) ((f.snaps.lookup (term, index)).getD [] ++
          (messages (replicate bufSize 0) rd).flatten) := by
  rw [sendLatestSnapshot, hsnap]
  dsimp only
  split
  · exact ⟨_, _, rfl, fun i hi ↦ by cases hi⟩
  obtain ⟨sent, failed, hsent, hall⟩ :=
    sendLoop_ends net.sendFails rd fuel 0 (replicate bufSize 0) hfuel hmore
  rw [hsent]
  cases failed with
  | true => exact ⟨_, _, rfl, fun i hi ↦ by cases hi⟩
  | false =>
    rw [hall rfl]
    dsimp only
    cases hinst : f.install io ⟨m, s.p.currentTerm, me, term, index⟩
        (messages (replicate bufSize 0) rd) with
    | mk f' res =>
      cases res with
      | error e => exact ⟨_, _, rfl, fun i hi ↦ by cases hi⟩
      | ok u =>
        refine ⟨_, _, rfl, fun i hi ↦ ?_⟩
        cases hfin : net.finishFails with
        | true => rw [hfin] at hi; cases hi
        | false =>
          rw [hfin] at hi
          obtain rfl := Except.ok.inj hi
          exact ⟨rfl, install_ok hinst⟩

/-- **Faithful transfer.** For every way to read the snapshot, the transfer ends; and if it
succeeds, the follower holds the leader's bytes and has restored its client from them if and only if
its file was absent or empty before and every read filled the buffer. -/
theorem snapshot_faithful_iff (me m : ι) {s : Server ι} {term : Term} {index : Index}
    {content : Bytes} {rd : Reader} {fuel : ℕ} (hsnap : s.p.lastSnap = some (term, index))
    (hrd : rd.Reads content) (hfuel : rd.length < fuel) (net : SendFaults) (io : StoreFaults)
    (f : Follower ι) :
    ∃ res f', sendLatestSnapshot fuel me m s rd net io f = some (res, f') ∧
      ((∃ i, res = .ok i) → (f'.Holds (term, index) content ↔
        (AList.lookup (term, index) f.snaps).getD [] = [] ∧
          ∀ r ∈ rd, r.bytes.length = bufSize)) := by
  obtain ⟨res, f', hres, hok⟩ := sendLatestSnapshot_spec me m hsnap hrd.more hfuel net io f
  refine ⟨res, f', hres, ?_⟩
  rintro ⟨i, hi⟩
  obtain ⟨-, hlookup, hrestored⟩ := hok i hi
  have hlen : (replicate bufSize (0 : Fin 256)).length = bufSize := length_replicate
  rw [Follower.Holds, hlookup, hrestored]
  rw [← hlen, ← append_messages_eq_iff hrd.content (by rw [hlen]; exact hrd.size)]
  simp

/-! ## Two transfers -/

/-- A leader whose last snapshot is the one after entry 1 of term 1. -/
def snapLeader : Server (Fin 2) :=
  Server.start 0 { Persist.fresh with lastSnap := some (1, 1) }

/-- A follower without any file. -/
def emptyFollower : Follower (Fin 2) := ⟨Server.start 1 Persist.fresh, ∅, none⟩

def noSendFaults : SendFaults := ⟨false, false, fun _ ↦ false, false⟩

def noStoreFaults : StoreFaults := ⟨false, fun _ ↦ false, false, false, false, false, false⟩

/-- A snapshot of one byte arrives as a whole buffer. -/
theorem short_snapshot_padded : ∃ f', sendLatestSnapshot 2 0 1 snapLeader [⟨[7], none⟩] noSendFaults
    noStoreFaults emptyFollower = some (.ok 1, f') ∧ ¬f'.Holds (1, 1) [7] := by
  have hres : (sendLatestSnapshot 2 0 1 snapLeader [⟨[7], none⟩] noSendFaults noStoreFaults
      emptyFollower).map Prod.fst = some (.ok 1) := rfl
  obtain ⟨res, f', hsend, hok⟩ := sendLatestSnapshot_spec (s := snapLeader) 0 1 rfl
    (show ∀ r ∈ [(⟨[7], none⟩ : ReadResult)], r ≠ ⟨[], some .eof⟩ by decide) (Nat.lt_succ_self 1)
    noSendFaults noStoreFaults emptyFollower
  rw [hsend] at hres
  obtain rfl := Option.some.inj hres
  refine ⟨f', hsend, fun hholds ↦ ?_⟩
  have hstored := (hok 1 rfl).2.1.symm.trans hholds.1
  have hsize : ∀ r ∈ [(⟨[7], none⟩ : ReadResult)],
      r.bytes.length ≤ (replicate bufSize (0 : Fin 256)).length := by
    intro r hr
    obtain rfl := mem_singleton.mp hr
    rw [length_replicate]
    decide
  have hlen := congrArg length (Option.some.inj hstored)
  rw [length_append, length_flatten_messages _ _ hsize, length_replicate] at hlen
  exact absurd hlen (by decide)

/-- A snapshot of exactly one buffer arrives as it is. -/
theorem full_buffer_faithful : ∃ f', sendLatestSnapshot 2 0 1 snapLeader
    [⟨replicate bufSize 7, none⟩] noSendFaults noStoreFaults emptyFollower =
      some (.ok 1, f') ∧ f'.Holds (1, 1) (replicate bufSize 7) := by
  have hres : (sendLatestSnapshot 2 0 1 snapLeader [⟨replicate bufSize 7, none⟩] noSendFaults
      noStoreFaults emptyFollower).map Prod.fst = some (.ok 1) := rfl
  have hreads : Reader.Reads [⟨replicate bufSize 7, none⟩] (replicate bufSize 7) :=
    ⟨by simp, by simp, by simp⟩
  obtain ⟨res, f', hsend, hiff⟩ := snapshot_faithful_iff (s := snapLeader) 0 1 rfl hreads
    (Nat.lt_succ_self 1) noSendFaults noStoreFaults emptyFollower
  rw [hsend] at hres
  obtain rfl := Option.some.inj hres
  exact ⟨f', hsend, (hiff ⟨1, rfl⟩).mpr ⟨rfl, by simp⟩⟩

end Vanadium.Raft
