import Vanadium.Flow.ReadQueue
import Vanadium.Foundations.Transition

/-!
# From the writer of a flow to its reader

`WriteMsg` splits the parts that it is given into messages, one for each turn of the writer, as its
tokens allow (`popFront`). The messages arrive in order, and `handleMessage` puts their payloads
into the read queue of the other end, from which `Read` and `ReadMsg` take bytes.

The state records the bytes given to `WriteMsg` (`written`) and the bytes returned to the reader
(`returned`), and the slices which a queue without an array would hold (`slices`). The invariant is
that the bytes returned, those queued, those on their way and those that the writer still has are,
in this order, the bytes written, as long as nothing was dropped; what is dropped is always a
suffix.
-/

namespace Vanadium.Flow

open Foundations Foundations.Transition List

/-! ## Splitting the parts of a write -/

/-- The loop of `popFront`: how many slices are needed for `num` bytes, and their length. -/
def countFront (num : ℕ) : List (List Byte) → ℕ → ℕ → ℕ × ℕ
  | [], i, sofar => (i, sofar)
  | p :: ps, i, sofar =>
    if sofar < num then countFront num ps (i + 1) (sofar + p.length) else (i, sofar)

/-- `popFront`: move the first `num` bytes of `inp` to the end of `out`. The result is `none` if an
index is out of range. -/
def popFront (inp out : List (List Byte)) (num : ℕ) :
    Option (List (List Byte) × List (List Byte) × ℕ) :=
  let (i, sofar) := countFront num inp 0 0
  let out := out ++ inp.take i
  let excess := sofar - num
  if 0 < excess then
    let i := i - 1
    match inp[i]?, out[i]? with
    | some p, some o =>
      if o.length < excess ∨ p.length < o.length - excess then none
      else
        let keep := o.length - excess
        some ((inp.set i (p.drop keep)).drop i, out.set i (o.take keep), num)
    | _, _ => none
  else some (inp.drop i, out, sofar)

theorem countFront_spec (num : ℕ) (inp : List (List Byte)) (i sofar : ℕ) :
    ∃ k ≤ inp.length, countFront num inp i sofar = (i + k, sofar + byteCount (inp.take k)) ∧
      ∀ j, k = j + 1 → sofar + byteCount (inp.take j) < num := by
  induction inp generalizing i sofar with
  | nil => exact ⟨0, le_rfl, rfl, fun j h ↦ nomatch h⟩
  | cons p ps ih =>
    rw [countFront]
    split
    · next hlt =>
      obtain ⟨k, hk, heq, hlast⟩ := ih (i + 1) (sofar + p.length)
      refine ⟨k + 1, Nat.succ_le_succ hk, ?_, ?_⟩
      · rw [heq, take_succ_cons, byteCount_cons, Nat.add_right_comm, Nat.add_assoc sofar,
          Nat.add_assoc i]
      · rintro j ⟨⟩
        obtain _ | j := k
        · exact hlt
        · rw [take_succ_cons, byteCount_cons, ← Nat.add_assoc]
          exact hlast j rfl
    · exact ⟨0, Nat.zero_le _, rfl, fun j h ↦ nomatch h⟩

/-- **`popFront` splits the parts**: it is always in range, it moves at most `num` bytes, and the
bytes keep their order. -/
theorem popFront_spec (inp : List (List Byte)) (num : ℕ) :
    ∃ rest out, popFront inp [] num = some (rest, out, byteCount out) ∧ byteCount out ≤ num ∧
      out.flatten ++ rest.flatten = inp.flatten := by
  obtain ⟨k, hk, hcount, hlast⟩ := countFront_spec num inp 0 0
  rw [Nat.zero_add, Nat.zero_add] at hcount
  rw [popFront, hcount]
  dsimp only
  rw [nil_append]
  split
  · next hexcess =>
    -- the last slice is split
    obtain _ | j := k
    · rw [take_zero] at hexcess
      exact absurd hexcess (Nat.not_lt.mpr (Nat.sub_le 0 num))
    obtain ⟨pre, p, post, rfl, rfl⟩ : ∃ pre p post, inp = pre ++ p :: post ∧ pre.length = j :=
      ⟨inp.take j, inp[j], inp.drop (j + 1), by rw [← drop_eq_getElem_cons hk, take_append_drop],
        length_take_of_le (Nat.le_of_lt hk)⟩
    have hpre : byteCount pre < num := by
      have := hlast pre.length rfl
      rwa [take_left, Nat.zero_add] at this
    have htake : (pre ++ p :: post).take (pre.length + 1) = pre ++ [p] := by
      rw [take_append, Nat.add_sub_cancel_left, take_of_length_le (Nat.le_succ _)]
      rfl
    have hp (x : List (List Byte)) : (pre ++ p :: x)[pre.length]? = some p := by
      rw [getElem?_append_right le_rfl, Nat.sub_self]
      rfl
    have hset (q : List Byte) (x : List (List Byte)) :
        (pre ++ p :: x).set pre.length q = pre ++ q :: x := by
      rw [set_append_right _ _ le_rfl, Nat.sub_self]
      rfl
    have hbytes : byteCount (pre ++ [p]) = byteCount pre + p.length := byteCount_append pre [p]
    rw [htake, hbytes] at hexcess ⊢
    -- what is kept of it
    generalize hkeep : p.length - (byteCount pre + p.length - num) = keep
    have hnum : byteCount pre + keep = num := by omega
    have hle : keep ≤ p.length := by omega
    simp only [Nat.add_sub_cancel, hp, hset, hkeep]
    rw [if_neg (by omega), drop_left]
    have hcount : byteCount (pre ++ [p.take keep]) = num := by
      rw [byteCount_append, byteCount_cons, length_take, Nat.min_eq_left hle]
      exact hnum
    refine ⟨p.drop keep :: post, pre ++ [p.take keep], by rw [hcount], hcount.le, ?_⟩
    rw [flatten_append, flatten_append, flatten_cons, flatten_cons,
      flatten_cons, flatten_nil, append_nil, append_assoc,
      ← append_assoc (p.take keep), take_append_drop]
  · next hexcess =>
    refine ⟨_, _, rfl, by omega, ?_⟩
    rw [← flatten_append, take_append_drop]

/-! ## The two ends of a flow -/

/-- The payload of a `Data` or `OpenFlow` message and its `CloseFlag`. -/
structure Message where
  payload : List (List Byte)
  closeFlag : Bool
deriving DecidableEq

/-- A flow in one direction: its writer, the messages that have not arrived yet, oldest first, and
its reader. -/
structure State where
  opened : Bool
  /-- The context of the flow is done, so that no write begins. -/
  closed : Bool
  /-- What the current call of `WriteMsg` has still to send. -/
  parts : List (List Byte)
  totalSize : ℕ
  alsoClose : Bool
  wire : List Message
  /-- The `Conn` of the reader handles no more messages. -/
  shutDown : Bool
  q : Readq
  slices : List (List Byte)
  written : List Byte
  returned : List Byte
deriving DecidableEq

/-- A new flow, dialed or accepted. -/
def State.new (opened : Bool) : State where
  opened := opened
  closed := false
  parts := []
  totalSize := 0
  alsoClose := false
  wire := []
  shutDown := false
  q := newReadQ
  slices := []
  written := []
  returned := []

inductive Action
  /-- `WriteMsg` or `WriteMsgAndClose` is called. -/
  | writeMsg (alsoClose : Bool) (parts : List (List Byte))
  /-- A turn of the writer, with this number of tokens: whether its message goes out, and whether
  the message pipe reports an error. -/
  | turn (tokens : ℕ) (sent err : Bool)
  /-- The writer stops because its context is done. -/
  | cancelWrite
  /-- The writer's end is closed, with or without a message. -/
  | close (sent : Bool)
  /-- The oldest message arrives, with these slices as its payload. -/
  | deliver (payload : List (List Byte))
  /-- The reader's end is closed. -/
  | closeReader
  /-- `Read` with a buffer of this length. -/
  | read (len : ℕ) (eof : Bool)
  /-- `ReadMsg`. -/
  | get (eof : Bool)
deriving DecidableEq

/-- The writer's loop in `writeMsg` when it is its turn. -/
def State.turn (noEncrypt : Bool) (s : State) (tokens : ℕ) (sent err : Bool) : Option State :=
  if s.opened ∧ (tokens = 0 ∨ noEncrypt ∧ tokens < s.totalSize) then
    -- it is deactivated for lack of tokens and keeps trying
    some s
  else
    match popFront s.parts [] tokens with
    | none => none
    | some (parts, tosend, _) =>
      let wire :=
        if sent then s.wire ++ [⟨tosend, s.alsoClose && parts.isEmpty⟩] else s.wire
      if err then some { s with opened := true, closed := true, parts := [], wire := wire }
      else some { s with opened := true, parts := parts, wire := wire }

/-- `handleMessage` for a message with this payload. -/
def State.handle (s : State) (payload : List (List Byte)) (closeFlag : Bool) : State :=
  match s.q.put payload with
  | .error _ => { s with shutDown := true }
  | .ok q =>
    { s with
      q := if closeFlag then q.close else q
      slices := if s.q.closed ∨ byteCount payload = 0 then s.slices else s.slices ++ payload }

/-- One step of the flow. The result is `none` if the action is not possible, which includes a read
that has to wait. -/
def State.step (noEncrypt : Bool) (s : State) : Action → Option State
  | .writeMsg alsoClose parts =>
    if s.closed ∨ s.parts ≠ [] then none
    else some { s with
      parts := parts
      totalSize := byteCount parts
      alsoClose := alsoClose
      written := s.written ++ parts.flatten }
  | .turn tokens sent err =>
    -- the message goes out unless there is an error
    if s.parts = [] ∨ (sent = false ∧ err = false) then none else s.turn noEncrypt tokens sent err
  | .cancelWrite => some { s with parts := [], closed := true }
  | .close sent =>
    some { s with closed := true, wire := if sent then s.wire ++ [⟨[], true⟩] else s.wire }
  | .deliver payload =>
    match s.wire with
    | [] => none
    | m :: wire =>
      if s.shutDown ∨ payload.flatten ≠ m.payload.flatten then none
      else some ({ s with wire := wire }.handle payload m.closeFlag)
  | .closeReader => some { s with q := s.q.close }
  | .read len eof =>
    match s.q.read len eof with
    | none => none
    | some (none, q) => some { s with q := q }
    | some (some out, q) =>
      some { s with
        q := q, slices := Readq.consumeFront len s.slices, returned := s.returned ++ out }
  | .get eof =>
    match s.q.get eof with
    | none => none
    | some (none, q) => some { s with q := q }
    | some (some out, q) =>
      some { s with q := q, slices := s.slices.tail, returned := s.returned ++ out }

/-! ## No byte is reordered -/

/-- The bytes of the messages on their way. -/
def inFlight (wire : List Message) : List Byte := (wire.map fun m ↦ m.payload.flatten).flatten

theorem inFlight_append (wire wire' : List Message) :
    inFlight (wire ++ wire') = inFlight wire ++ inFlight wire' := by
  rw [inFlight, map_append, flatten_append]
  rfl

namespace State

variable {s t : State} {noEncrypt : Bool} {payload : List (List Byte)} {wire : List Message}
  {q : Readq}

/-- The bytes that have arrived. -/
def arrived (s : State) : List Byte := s.returned ++ s.slices.flatten

/-- The bytes that have arrived or will arrive unless they are dropped. -/
def pipeline (s : State) : List Byte := s.arrived ++ inFlight s.wire ++ s.parts.flatten

/-- What holds in every state. -/
structure Inv (s : State) : Prop where
  queue : s.q.Represents s.slices
  arrived : s.arrived <+: s.written
  pipeline : s.q.closed = false → s.shutDown = false → s.pipeline <+: s.written
  open_eq : s.q.closed = false → s.shutDown = false → s.closed = false → s.pipeline = s.written

theorem inv_new (opened : Bool) : (new opened).Inv :=
  ⟨Readq.represents_newReadQ, prefix_rfl, fun _ _ ↦ prefix_rfl, fun _ _ _ ↦ rfl⟩

theorem Inv.abandon (h : s.Inv) : { s with opened := true, closed := true, parts := [] }.Inv := by
  refine ⟨h.queue, h.arrived, fun hq hs ↦ ?_, fun _ _ hc ↦ nomatch hc⟩
  refine List.IsPrefix.trans ?_ (h.pipeline hq hs)
  rw [State.pipeline, flatten_nil, append_nil]
  exact prefix_append _ _

theorem Inv.send (h : s.Inv) {parts tosend : List (List Byte)} (closeFlag : Bool)
    (hsplit : tosend.flatten ++ parts.flatten = s.parts.flatten) :
    { s with
      opened := true, parts := parts, wire := s.wire ++ [Message.mk tosend closeFlag] }.Inv := by
  have heq : { s with opened := true, parts := parts,
                      wire := s.wire ++ [Message.mk tosend closeFlag] }.pipeline = s.pipeline := by
    change s.arrived ++ inFlight (s.wire ++ [Message.mk tosend closeFlag]) ++ parts.flatten = _
    have hlast : inFlight [Message.mk tosend closeFlag] = tosend.flatten := flatten_singleton
    rw [State.pipeline, inFlight_append, hlast, ← hsplit]
    simp only [append_assoc]
  exact ⟨h.queue, h.arrived, fun hq hs ↦ heq ▸ h.pipeline hq hs,
    fun hq hs hc ↦ heq ▸ h.open_eq hq hs hc⟩

theorem Inv.turn (h : s.Inv) {tokens : ℕ} {sent err : Bool} (hok : ¬(sent = false ∧ err = false))
    (ht : s.turn noEncrypt tokens sent err = some t) : t.Inv := by
  rw [State.turn] at ht
  split at ht
  · cases ht
    exact h
  obtain ⟨parts, tosend, hpop, -, hsplit⟩ := popFront_spec s.parts tokens
  rw [hpop] at ht
  have hsend := h.send (s.alsoClose && parts.isEmpty) hsplit
  obtain _ | _ := sent <;> obtain _ | _ := err
  · exact absurd ⟨rfl, rfl⟩ hok
  · cases ht
    exact h.abandon
  · cases ht
    exact hsend
  · cases ht
    exact hsend.abandon

theorem Inv.closeQueue (h : s.Inv) : { s with q := s.q.close }.Inv :=
  ⟨h.queue.close, h.arrived, fun hq ↦ (nomatch hq), fun hq ↦ (nomatch hq)⟩

theorem Inv.receive (h : s.Inv) (hopen : s.q.closed = false)
    (hshut : s.shutDown = false) (hflight : inFlight s.wire = payload.flatten ++ inFlight wire)
    (hq : q.Represents (s.slices ++ payload)) :
    { s with wire := wire, q := q, slices := s.slices ++ payload }.Inv := by
  have harr : { s with wire := wire, q := q, slices := s.slices ++ payload }.arrived =
      s.arrived ++ payload.flatten := by
    rw [State.arrived, flatten_append, ← append_assoc]
    rfl
  have hpipe : { s with wire := wire, q := q, slices := s.slices ++ payload }.pipeline =
      s.pipeline := by
    rw [State.pipeline, harr, State.pipeline, hflight]
    simp only [append_assoc]
  refine ⟨hq, ?_, fun _ _ ↦ hpipe ▸ h.pipeline hopen hshut,
    fun _ _ hc ↦ hpipe ▸ h.open_eq hopen hshut hc⟩
  refine List.IsPrefix.trans ?_ (h.pipeline hopen hshut)
  rw [harr, State.pipeline, hflight, ← append_assoc, append_assoc]
  exact prefix_append _ _

theorem Inv.handle {m : Message} (h : s.Inv) (hwire : s.wire = m :: wire)
    (hshut : s.shutDown = false) (hpayload : payload.flatten = m.payload.flatten) :
    ({ s with wire := wire }.handle payload m.closeFlag).Inv := by
  have hflight : inFlight s.wire = payload.flatten ++ inFlight wire := by
    rw [hwire, hpayload]
    rfl
  rw [State.handle]
  split
  · exact ⟨h.queue, h.arrived, fun _ hs ↦ (nomatch hs), fun _ hs ↦ (nomatch hs)⟩
  rename_i q hput
  have hinv : { s with
      wire := wire
      q := q
      slices := if s.q.closed ∨ byteCount payload = 0 then s.slices
        else s.slices ++ payload }.Inv := by
    obtain ⟨-, ⟨hzero, rfl⟩ | ⟨hclosed, rfl⟩ | ⟨hne, hopen, hq⟩⟩ := h.queue.put hput
    · -- nothing to store
      rw [if_pos (.inr hzero)]
      rw [byteCount, ← length_flatten, length_eq_zero_iff] at hzero
      rw [hzero, nil_append] at hflight
      have hpipe : { s with wire := wire }.pipeline = s.pipeline := by
        rw [State.pipeline, State.pipeline, hflight]
        rfl
      exact ⟨h.queue, h.arrived, fun hq hs ↦ hpipe ▸ h.pipeline hq hs,
        fun hq hs hc ↦ hpipe ▸ h.open_eq hq hs hc⟩
    · -- the data are dropped
      rw [if_pos (.inl hclosed)]
      exact ⟨h.queue, h.arrived, fun hq ↦ absurd (hclosed.symm.trans hq) (by decide),
        fun hq ↦ absurd (hclosed.symm.trans hq) (by decide)⟩
    · rw [if_neg (not_or.mpr ⟨Bool.eq_false_iff.mp hopen, hne⟩)]
      exact h.receive hopen hshut hflight hq
  split
  · exact hinv.closeQueue
  · exact hinv

theorem Inv.take {slices : List (List Byte)} {out : List Byte} (h : s.Inv)
    (hq : q.Represents slices) (hclosed : q.closed = s.q.closed)
    (hout : out ++ slices.flatten = s.slices.flatten) :
    { s with q := q, slices := slices, returned := s.returned ++ out }.Inv := by
  have harr : { s with q := q, slices := slices, returned := s.returned ++ out }.arrived =
      s.arrived := by
    rw [State.arrived, append_assoc, hout]
    rfl
  have hpipe : { s with q := q, slices := slices, returned := s.returned ++ out }.pipeline =
      s.pipeline := by
    rw [State.pipeline, harr]
    rfl
  exact ⟨hq, harr ▸ h.arrived, fun hopen hs ↦ hpipe ▸ h.pipeline (hclosed ▸ hopen) hs,
    fun hopen hs hc ↦ hpipe ▸ h.open_eq (hclosed ▸ hopen) hs hc⟩

theorem Inv.step (a : Action) (h : s.Inv) (hs : s.step noEncrypt a = some t) : t.Inv := by
  cases a with
  | writeMsg alsoClose parts =>
    obtain ⟨hok, hs⟩ := Option.ite_none_left_eq_some.mp hs
    obtain ⟨hclosed, hparts⟩ := not_or.mp hok
    cases hs
    have hgrow : s.written <+: s.written ++ parts.flatten := prefix_append _ _
    -- everything before has been sent
    have hnew (hq : s.q.closed = false) (hsd : s.shutDown = false) :
        s.arrived ++ inFlight s.wire ++ parts.flatten = s.written ++ parts.flatten := by
      have := h.open_eq hq hsd (Bool.eq_false_iff.mpr hclosed)
      rw [State.pipeline, not_not.mp hparts, flatten_nil, append_nil] at this
      rw [this]
    exact ⟨h.queue, h.arrived.trans hgrow, fun hq hsd ↦ hnew hq hsd ▸ prefix_rfl,
      fun hq hsd _ ↦ hnew hq hsd⟩
  | turn tokens sent err =>
    obtain ⟨hok, hs⟩ := Option.ite_none_left_eq_some.mp hs
    exact h.turn (not_or.mp hok).2 hs
  | cancelWrite =>
    cases hs
    refine ⟨h.queue, h.arrived, fun hq hs ↦ ?_, fun _ _ hc ↦ nomatch hc⟩
    exact h.abandon.pipeline hq hs
  | close sent =>
    cases hs
    refine ⟨h.queue, h.arrived, fun hq hs ↦ ?_, fun _ _ hc ↦ nomatch hc⟩
    obtain _ | _ := sent
    · exact h.pipeline hq hs
    · -- the last message has no bytes
      have hflight : inFlight (s.wire ++ [⟨[], true⟩]) = inFlight s.wire := by
        rw [inFlight_append]
        exact append_nil _
      have hpipe : { s with closed := true, wire := s.wire ++ [Message.mk [] true] }.pipeline =
          s.pipeline := by
        rw [State.pipeline, hflight]
        rfl
      exact hpipe ▸ h.pipeline hq hs
  | deliver payload =>
    rw [State.step] at hs
    split at hs
    · cases hs
    rename_i m wire hwire
    obtain ⟨hok, hs⟩ := Option.ite_none_left_eq_some.mp hs
    obtain ⟨hshut, hpayload⟩ := not_or.mp hok
    cases hs
    exact h.handle hwire (Bool.eq_false_iff.mpr hshut) (not_not.mp hpayload)
  | closeReader =>
    cases hs
    exact h.closeQueue
  | read len eof =>
    rw [State.step] at hs
    split at hs
    · cases hs
    · next q hread =>
      cases hs
      rw [Readq.read_eof hread]
      exact h
    · next out q hread =>
      cases hs
      obtain ⟨hq, hclosed, hout⟩ := h.queue.read hread
      exact h.take hq hclosed hout
  | get eof =>
    rw [State.step] at hs
    split at hs
    · cases hs
    · next q hget =>
      cases hs
      rw [Readq.get_eof hget]
      exact h
    · next out q hget =>
      cases hs
      obtain ⟨hq, hclosed, hout⟩ := h.queue.get hget
      exact h.take hq hclosed hout

end State

/-- **The bytes of a flow arrive in order.** In every run, the bytes returned to the reader are a
prefix of the bytes written, and the array of the queue holds exactly the slices that have arrived
and have not been read. -/
theorem returned_isPrefix_written {noEncrypt opened : Bool} {as : List Action} {s : State}
    (h : run (State.step noEncrypt) (State.new opened) as = some s) :
    s.returned <+: s.written ∧ s.q.nbufs = s.slices.length ∧ s.q.size = byteCount s.slices ∧
      CircularArray.contents s.q.bufs s.q.b s.q.nbufs = s.slices ∧
      ∀ n, 0 < n → (s.q.reserveLocked n).Represents s.slices := by
  have hinv : s.Inv := run_invariant (fun _ a _ hs ht ↦ hs.step a ht) (State.inv_new opened) h
  exact ⟨(List.prefix_append _ _).trans hinv.arrived, hinv.queue.nbufs, hinv.queue.size,
    hinv.queue.contents, fun n hn ↦ (hinv.queue.reserveLocked hn).1⟩

/-- A write of three parts in three messages, the first without bytes, read in two pieces. -/
theorem returned_isPrefix_written_run :
    ∃ s, run (State.step false) (State.new false)
        [.writeMsg true [[1, 2], [], [3]], .turn 0 true false, .deliver [], .turn 1 true false,
          .turn 5 true false, .deliver [[1]], .deliver [[2, 3]], .get false,
            .read 1 false] = some s ∧
      s.returned = [1, 2] ∧ s.returned <+: s.written := by
  have hany : (run (State.step false) (State.new false)
      [.writeMsg true [[1, 2], [], [3]], .turn 0 true false, .deliver [], .turn 1 true false,
        .turn 5 true false, .deliver [[1]], .deliver [[2, 3]], .get false, .read 1 false]).any
      (fun s ↦ decide (s.returned = [1, 2])) = true := by decide +kernel
  obtain ⟨s, hrun, hs⟩ := exists_run_of_any hany
  exact ⟨s, hrun, of_decide_eq_true hs, (returned_isPrefix_written hrun).1⟩

end Vanadium.Flow
