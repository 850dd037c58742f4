import Vanadium.Flow.Conn

/-!
# What an action can do to the tokens

`Effect` lists the ways in which an action of a `Conn` can move tokens and bytes, with all that is
known about each; `effect_of_exec` is the only place where the actions are taken apart. The
invariants of flow control are proved by cases on an effect.
-/

namespace Vanadium.Tokens

open Foundations Conn
open Vanadium.Flow (defaultBytesBufferedPerFlow)

/-- The bytes that a writer has in its hands. -/
def WriterPc.pending : WriterPc → ℕ
  | sending _ size _ _ => size
  | _ => 0

/-- The `OpenFlow` messages that a writer can still send. -/
def WriterPc.opens (opened : Bool) : WriterPc → ℕ
  | sending opened _ _ _ => if opened then 0 else 1
  | sent _ _ => 0
  | _ => if opened then 0 else 1

def Flw.opens (f : Flw) : ℕ := f.writer.opens f.opened

theorem WriterPc.opens_opened_le (w : WriterPc) (opened : Bool) :
    w.opens true ≤ w.opens opened := by
  rcases w with _ | _ | _ | _ <;> simp [opens]

/-- The bytes for a flow that the `readLoop` has in its hands. -/
def ReadLoop.incoming : ReadLoop → ℕ → ℕ
  | put id size _, k => if id = k then size else 0
  | _, _ => 0

/-- The bytes of a message for a flow. -/
def Message.bytes : Message → ℕ → ℕ
  | openFlow id _ size _, k => if id = k then size else 0
  | data id size _, k => if id = k then size else 0
  | release _, _ => 0

/-- A flow that is being closed, or has not been closed, is in `c.flows`. -/
structure Flw.Wf (f : Flw) : Prop where
  closing : f.closer ≠ .none → f.closed ∧ f.inFlows
  open_ : f.closed = false → f.inFlows

theorem Flw.Wf.congr {f f' : Flw} (h : f.Wf) (hclosed : f'.closed = f.closed)
    (hcloser : f'.closer = f.closer) (hin : f'.inFlows = f.inFlows) : f'.Wf :=
  ⟨by rw [hclosed, hcloser, hin]; exact h.closing, by rw [hclosed, hin]; exact h.open_⟩

/-- The first critical section of `close`. -/
theorem Flw.Wf.flag {f : Flw} {remotely : Bool} (h : f.Wf) (hopen : f.closed = false) :
    { f with closed := true, closer := .flagged remotely }.Wf :=
  ⟨fun _ ↦ ⟨rfl, h.open_ hopen⟩, fun hc ↦ (nomatch hc)⟩

/-- The tokens and the bytes of a flow are as before. -/
structure Flw.Same (f f' : Flw) : Prop where
  released : f'.released = f.released
  borrowed : f'.borrowed = f.borrowed
  borrowing : f'.borrowing = f.borrowing
  inFlows : f'.inFlows = f.inFlows
  qSize : f'.qSize = f.qSize
  reader : f'.reader = f.reader
  pending : f'.writer.pending = f.writer.pending
  opens : f'.opens ≤ f.opens
  wf : f.Wf → f'.Wf

theorem Flw.Same.refl (f : Flw) : f.Same f :=
  ⟨rfl, rfl, rfl, rfl, rfl, rfl, rfl, le_rfl, fun h ↦ h⟩

/-- The effect of an action: the new state and the messages that go out. -/
inductive Effect (c : Conn) : Action → Conn → List Message → Prop
  /-- The status or the `readLoop` moves on. -/
  | status {a : Action} {s : Status} {r : ReadLoop} (hs : s = .active → c.status = .active)
      (hr : r = c.readLoop ∨ r.incoming = 0) :
      Effect c a { c with status := s, readLoop := r } []
  | noop {a : Action} : Effect c a c []
  /-- The state of a flow changes, but not its tokens. -/
  | quiet {a : Action} {id : ℕ} {f f' : Flw} {r : ReadLoop} {out : List Message}
      (hf : c.flows.lookup id = some f) (same : f.Same f')
      (hr : r = c.readLoop ∨ r.incoming = 0)
      (hout : out = [] ∨ out = [.data id 0 true]) :
      Effect c a ({ c with readLoop := r }.set id f') out
  | dial : Effect c .dial ({ c with nextFid := c.nextFid + 2 }.set c.nextFid
      (newFlow true false)) []
  /-- A writer borrows tokens. -/
  | borrow {id n : ℕ} {f : Flw} {w : WriterPc} (hf : c.flows.lookup id = some f)
      (borrowing : f.borrowing) (le : n ≤ c.lshared) (hold : f.writer.pending = 0)
      (hnew : w.pending = n) (opens : w.opens f.opened = f.opens) :
      Effect c (.turn id) ({ c with lshared := c.lshared - n }.set id
        { f with borrowed := f.borrowed + n, writer := w }) []
  /-- A writer uses tokens that were released to it. -/
  | spend {id n : ℕ} {f : Flw} {w : WriterPc} (hf : c.flows.lookup id = some f)
      (notBorrowing : f.borrowing = false) (le : n ≤ f.released) (hold : f.writer.pending = 0)
      (hnew : w.pending = n) (opens : w.opens f.opened = f.opens) :
      Effect c (.turn id) (c.set id { f with released := f.released - n, writer := w }) []
  /-- A writer hands its bytes to the message pipe, which may lose them. -/
  | wire {a : Action} {id : ℕ} {f : Flw} {w : WriterPc} {out : List Message}
      (hf : c.flows.lookup id = some f) (hnew : w.pending = 0) (opens : w.opens f.opened = 0)
      (hout : out = [] ∨ ∃ closeFlag, out = [.data id f.writer.pending closeFlag] ∨
        out = [.openFlow id defaultBytesBufferedPerFlow f.writer.pending closeFlag] ∧
          f.opens = 1) :
      Effect c a (c.set id { f with writer := w }) out
  /-- A flow is removed from `c.flows`. -/
  | remove {a : Action} {id : ℕ} {f f' : Flw} {remotely : Bool} (hf : c.flows.lookup id = some f)
      (same : f.Same f') (closing : f'.closer ≠ .none) :
      Effect c a (c.finishClose id f' remotely) []
  | read {a : Action} {id n : ℕ} {f : Flw} (hf : c.flows.lookup id = some f)
      (none : f.reader = none) (le : n ≤ f.qSize) :
      Effect c a (c.set id { f with qSize := f.qSize - n, reader := some n }) []
  /-- Tokens are counted in `toRelease`. -/
  | count {a : Action} {id n : ℕ} {f : Flw} {t : Table ℕ ℕ} (hf : c.flows.lookup id = some f)
      (hn : f.reader = some n)
      (ht : ∀ k, k ≠ invalidFlowID → counter t k = counter c.toRelease k +
        if k = id then n else 0) :
      Effect c a ({ c with toRelease := t }.set id { f with reader := none }) []
  /-- Tokens are counted in `toRelease`, and all of `toRelease` is to be sent. -/
  | flush {a : Action} {id n : ℕ} {f : Flw} {t : Table ℕ ℕ} (hf : c.flows.lookup id = some f)
      (hn : f.reader = some n)
      (ht : ∀ k, k ≠ invalidFlowID → counter t k = counter c.toRelease k +
        if k = id then n else 0) :
      Effect c a ({ c with
        toRelease := ∅
        borrowing := []
        releases := c.releases ++ [counters t] }.set id { f with reader := none }) []
  /-- A release message goes out, or is lost. -/
  | sendRelease {a : Action} {i : ℕ} {cs : List (ℕ × ℕ)} {out : List Message}
      (hi : c.releases[i]? = some cs) (hout : out = [] ∨ out = [.release cs]) :
      Effect c a { c with releases := c.releases.eraseIdx i } out
  | handleRelease {counters : List (ℕ × ℕ)} :
      Effect c (.handle (.release counters))
        (counters.foldl (fun c e ↦ c.releaseCounter e.1 e.2) c) []
  /-- A payload arrives for a flow in `c.flows`. -/
  | handleData {id size : ℕ} {closeFlag : Bool} {f : Flw} (hf : c.flows.lookup id = some f)
      (hidle : c.readLoop = .idle) :
      Effect c (.handle (.data id size closeFlag))
        { c with readLoop := .put id size closeFlag } []
  /-- A payload arrives for another flow. -/
  | handleDrop {id size : ℕ} {closeFlag : Bool}
      (hf : ∀ f, c.flows.lookup id = some f → f.inFlows = false) :
      Effect c (.handle (.data id size closeFlag))
        (c.releaseOutstandingBorrowedLocked id (2 ^ 64 - 1)) []
  /-- The peer opens a flow. -/
  | accept {id initialCounters size : ℕ} {closeFlag : Bool} (hnone : c.flows.lookup id = none)
      (hpar : c.nextFid % 2 ≠ id % 2) (hidle : c.readLoop = .idle) :
      Effect c (.handle (.openFlow id initialCounters size closeFlag))
        ({ c with
          toRelease := c.toRelease.insert id defaultBytesBufferedPerFlow
          borrowing := id :: c.borrowing
          readLoop := .put id size closeFlag }.set id
            { newFlow false true with released := initialCounters }) []
  /-- The payload goes into the queue, or is dropped because the queue is closed. -/
  | put {a : Action} {id size q : ℕ} {closeFlag : Bool} {f : Flw} {r : ReadLoop}
      (hf : c.flows.lookup id = some f) (hr : c.readLoop = .put id size closeFlag)
      (hr' : r.incoming = 0) (hq : q = f.qSize ∨ q = size + f.qSize) :
      Effect c a ({ c with readLoop := r }.set id { f with qSize := q }) []

namespace Conn

variable {c c' : Conn} {out : List Message} {id : ℕ}

theorem withFlow_eq_ok {k : Flw → Except Stop (Conn × List Message)}
    {r : Conn × List Message} (h : c.withFlow id k = .ok r) :
    ∃ f, c.flows.lookup id = some f ∧ k f = .ok r := by
  rw [withFlow] at h
  split at h
  · cases h
  · next f hf => exact ⟨f, hf, h⟩

theorem deduct_eq_ok {f : Flw} {n : ℕ} {r : Conn × Flw} (h : c.deduct f n = .ok r) :
    f.borrowing ∧ n ≤ c.lshared ∧
        r = ({ c with lshared := c.lshared - n }, { f with borrowed := f.borrowed + n }) ∨
      f.borrowing = false ∧ n ≤ f.released ∧ r = (c, { f with released := f.released - n }) := by
  rw [deduct] at h
  split at h
  · next hb =>
    split at h <;> cases h
    next hle => exact .inl ⟨hb, not_lt.mp hle, rfl⟩
  · next hb =>
    split at h <;> cases h
    next hle => exact .inr ⟨Bool.eq_false_iff.mpr hb, not_lt.mp hle, rfl⟩

theorem counter_addCounter (t : Table ℕ ℕ) (id n k : ℕ) :
    counter (addCounter t id n) k = counter t k + if k = id then n else 0 := by
  rw [counter, addCounter, Table.lookup_insert_eq_ite]
  split
  · next h =>
    subst h
    rfl
  · rfl

/-- Tokens for a flow that owes nothing. -/
theorem releaseLocked_newFlow (c : Conn) (id tokens : ℕ) :
    c.releaseLocked id (newFlow false true) tokens =
      c.set id { newFlow false true with released := tokens } := by
  have hmin : min tokens 0 = 0 := Nat.min_zero tokens
  change { c with lshared := c.lshared + min tokens 0 }.set id { newFlow false true with
    borrowed := 0 - min tokens 0, released := 0 + (tokens - min tokens 0) } = _
  rw [hmin, Nat.sub_zero, Nat.zero_add]
  rfl

theorem status_of_close (h : (if c.status = .active then .closing else c.status) = .active) :
    c.status = .active := by
  split at h
  · cases h
  · exact h

theorem effect_turn (h : c.turn id = .ok (c', out)) : Effect c (.turn id) c' out := by
  obtain ⟨f, hf, hk⟩ := withFlow_eq_ok h
  split at hk
  · next parts hw =>
    dsimp only at hk
    split at hk
    · cases hk
      exact .noop
    split at hk <;> cases hk
    rename_i d g hd
    have hold : f.writer.pending = 0 := by rw [hw]; rfl
    rcases deduct_eq_ok hd with ⟨hb, hle, heq⟩ | ⟨hb, hle, heq⟩
    · cases heq
      exact .borrow hf hb hle hold rfl (by rw [Flw.opens, hw]; rfl)
    · cases heq
      exact .spend hf hb hle hold rfl (by rw [Flw.opens, hw]; rfl)
  · cases hk

theorem effect_wire {sent err : Bool} (h : c.wire id sent err = .ok (c', out)) :
    Effect c (.wire id sent err) c' out := by
  obtain ⟨f, hf, hk⟩ := withFlow_eq_ok h
  split at hk
  · next opened size closeFlag rest hw =>
    dsimp only at hk
    split at hk <;> cases hk
    refine .wire hf rfl rfl ?_
    rw [Flw.opens, hw]
    obtain _ | _ := sent
    · exact .inl rfl
    · refine .inr ⟨closeFlag, ?_⟩
      obtain _ | _ := opened
      · exact .inr ⟨rfl, rfl⟩
      · exact .inl rfl
  · cases hk

theorem effect_closeSection (h : c.closeSection id = .ok (c', out)) :
    Effect c (.closeSection id) c' out := by
  obtain ⟨f, hf, hk⟩ := withFlow_eq_ok h
  split at hk
  · next remotely hc =>
    have hne : f.closer ≠ .none := by simp [hc]
    split at hk
    · cases hk
      refine .remove hf ⟨rfl, rfl, rfl, rfl, rfl, rfl, rfl, ?_, fun h ↦ h.congr rfl rfl rfl⟩ hne
      exact f.writer.opens_opened_le f.opened
    split at hk
    · cases hk
      refine .quiet hf { Flw.Same.refl f with wf := fun h ↦ ?_ } (.inl rfl) (.inl rfl)
      exact ⟨fun _ ↦ h.closing hne, h.open_⟩
    · cases hk
      exact .remove hf (.refl f) hne
  · cases hk

theorem effect_release (h : c.release id = .ok (c', out)) : Effect c (.release id) c' out := by
  obtain ⟨f, hf, hk⟩ := withFlow_eq_ok h
  split at hk
  · cases hk
  · next count hn =>
    dsimp only at hk
    have ht (k : ℕ) (hk : k ≠ invalidFlowID) : counter (if decide (id ∈ c.borrowing) then
          addCounter (addCounter c.toRelease id count) invalidFlowID count
          else addCounter c.toRelease id count) k =
        counter c.toRelease k + if k = id then count else 0 := by
      split
      · rw [counter_addCounter, if_neg hk, counter_addCounter]
        rfl
      · exact counter_addCounter ..
    generalize (if decide (id ∈ c.borrowing) then
      addCounter (addCounter c.toRelease id count) invalidFlowID count
      else addCounter c.toRelease id count) = t at hk ht
    generalize (if decide (id ∈ c.borrowing) then invalidFlowID else id) = key at hk
    split at hk
    · cases hk
      exact .flush hf hn ht
    · cases hk
      exact .count hf hn ht

theorem effect_handle {m : Message} (h : c.handle m = .ok (c', out)) :
    Effect c (.handle m) c' out := by
  unfold handle at h
  split at h
  · next hidle =>
    obtain ⟨id, init, size, closeFlag⟩ | ⟨id, size, closeFlag⟩ | counters := m
    · dsimp only at h
      split at h
      · cases h
        exact .status (fun hs ↦ status_of_close hs) (.inr rfl)
      split at h
      · cases h
        exact .noop
      split at h <;> cases h
      rename_i hor _ hnone
      rw [releaseLocked_newFlow]
      exact .accept (by simpa using hnone) (not_or.mp hor).1 hidle
    · dsimp only at h
      split at h
      · cases h
        exact .noop
      split at h
      · next hnone =>
        cases h
        refine .handleDrop fun f hf ↦ ?_
        rw [hnone] at hf
        cases hf
      · next f hf =>
        split at h
        · cases h
          exact .handleData hf hidle
        · next hin =>
          cases h
          refine .handleDrop fun g hg ↦ ?_
          rw [hf] at hg
          cases hg
          exact Bool.eq_false_iff.mpr hin
    · cases h
      exact .handleRelease
  · cases h

theorem effect_readPut (h : c.readPut = .ok (c', out)) : Effect c .readPut c' out := by
  rw [readPut] at h
  split at h
  · next id size closeFlag hr =>
    obtain ⟨f, hf, hk⟩ := withFlow_eq_ok h
    split at hk <;> cases hk
    rename_i q hq
    refine .put hf hr ?_ ?_
    · obtain _ | _ := closeFlag <;> rfl
    · rw [putSize] at hq
      split at hq
      · exact .inl (Except.ok.inj hq).symm
      split at hq
      · exact .inl (Except.ok.inj hq).symm
      split at hq
      · cases hq
      · exact .inr (Except.ok.inj hq).symm
  · cases h

theorem effect_readClose (h : c.readClose = .ok (c', out)) : Effect c .readClose c' out := by
  rw [readClose] at h
  split at h
  · obtain ⟨f, hf, hk⟩ := withFlow_eq_ok h
    split at hk
    · cases hk
      exact .status (fun hs ↦ hs) (.inr rfl)
    · next hopen =>
      cases hk
      refine .quiet hf { Flw.Same.refl f with wf := fun h ↦ ?_ } (.inr ?_) (.inl rfl)
      · exact h.flag (Bool.eq_false_iff.mpr hopen)
      · rfl
  · cases h

/-- **Every action has one of the effects.** -/
theorem effect_of_exec {a : Action} (h : c.exec a = .ok (c', out)) : Effect c a c' out := by
  have hquiet {a : Action} {id : ℕ} {f f' : Flw} (hf : c.flows.lookup id = some f)
      (same : f.Same f') : Effect c a (c.set id f') [] := .quiet hf same (.inl rfl) (.inl rfl)
  cases a with
  | dial =>
    rw [exec, Conn.dial] at h
    split at h <;> cases h
    exact .dial
  | startWrite id parts alsoClose noEncrypt =>
    obtain ⟨f, hf, hk⟩ := withFlow_eq_ok h
    split at hk <;> cases hk
    rename_i hw
    refine hquiet hf ⟨rfl, rfl, rfl, rfl, rfl, rfl, ?_, ?_, fun h ↦ h.congr rfl rfl rfl⟩
    · rw [hw.1]
      split <;> rfl
    · rw [Flw.opens, Flw.opens, hw.1]
      split <;> exact le_rfl
  | turn id => exact effect_turn h
  | wire id sent err => exact effect_wire h
  | wired id =>
    obtain ⟨f, hf, hk⟩ := withFlow_eq_ok h
    split at hk <;> cases hk
    rename_i hw
    refine hquiet hf ⟨rfl, rfl, rfl, rfl, rfl, rfl, ?_, ?_, fun h ↦ h.congr rfl rfl rfl⟩
    · rw [hw]
      split <;> rfl
    · rw [Flw.opens]
      split <;> exact Nat.zero_le _
  | cancelWrite id =>
    obtain ⟨f, hf, hk⟩ := withFlow_eq_ok h
    split at hk
    · next hw =>
      split at hk <;> cases hk
      refine hquiet hf ⟨rfl, rfl, rfl, rfl, rfl, rfl, ?_, ?_, fun h ↦ h.congr rfl rfl rfl⟩
      · rw [hw]
        rfl
      · rw [Flw.opens, Flw.opens, hw]
        exact le_rfl
    · cases hk
  | cancelContext id =>
    obtain ⟨f, hf, hk⟩ := withFlow_eq_ok h
    cases hk
    exact hquiet hf { Flw.Same.refl f with wf := fun h ↦ { h with } }
  | close id =>
    obtain ⟨f, hf, hk⟩ := withFlow_eq_ok h
    split at hk
    · cases hk
      exact .noop
    · next hopen =>
      cases hk
      exact hquiet hf { Flw.Same.refl f with wf := fun h ↦ h.flag (Bool.eq_false_iff.mpr hopen) }
  | closeCancel id =>
    obtain ⟨f, hf, hk⟩ := withFlow_eq_ok h
    split at hk <;> cases hk
    rename_i hc
    have hne : f.closer ≠ .none := by simp [hc]
    exact hquiet hf { Flw.Same.refl f with wf := fun h ↦ ⟨fun _ ↦ h.closing hne, h.open_⟩ }
  | closeSection id => exact effect_closeSection h
  | closeWire id sent =>
    obtain ⟨f, hf, hk⟩ := withFlow_eq_ok h
    split at hk <;> cases hk
    rename_i hc
    have hne : f.closer ≠ .none := by simp [hc]
    refine .quiet hf { Flw.Same.refl f with wf := fun h ↦ ⟨fun _ ↦ h.closing hne, h.open_⟩ }
      (.inl rfl) ?_
    obtain _ | _ := sent <;> simp
  | closeFinal id =>
    obtain ⟨f, hf, hk⟩ := withFlow_eq_ok h
    split at hk <;> cases hk
    rename_i hc
    exact .remove hf (.refl f) (by simp [hc])
  | read id n =>
    obtain ⟨f, hf, hk⟩ := withFlow_eq_ok h
    split at hk <;> cases hk
    next hn => exact .read hf hn.1 hn.2
  | release id => exact effect_release h
  | sendRelease i sent =>
    rw [exec, Conn.sendRelease] at h
    split at h <;> cases h
    rename_i cs hcs
    refine .sendRelease hcs ?_
    obtain _ | _ := sent <;> simp
  | handle m => exact effect_handle h
  | readPut => exact effect_readPut h
  | readClose => exact effect_readClose h
  | closeConn =>
    cases h
    exact .status (fun hs ↦ status_of_close hs) (.inl rfl)
  | closedConn =>
    rw [exec, Conn.closedConn] at h
    split at h <;> cases h
    exact .status (fun hs ↦ nomatch hs) (.inl rfl)

end Conn

end Vanadium.Tokens
