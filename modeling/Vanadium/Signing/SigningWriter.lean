import Vanadium.Foundations.FixedWidth
import Vanadium.Foundations.Transition

/-!
# Writing signed data

A `signingWriter` cuts what is written to it into chunks. A chunk goes to the data sink, and its
hash into the hash that is signed when the writer is closed. `committed` and `written` are not
fields of the source: they record the chunks that were hashed and the bytes that `Write` has taken.

As long as the data sink takes what it is given, the chunks hashed and the chunk in the buffer are
what was written. If the sink fails, the rest of the chunk stays in the buffer and becomes part of
another one.
-/

namespace Vanadium.Serialization

open Foundations Transition FixedWidth List
open Option hiding all_eq_true

/-- What the sinks do with a chunk and its hash. -/
inductive Sink where
  | fine
  /-- the data sink takes some bytes only -/
  | dataFails (n : ℕ)
  /-- the hash is not written to the signature sink -/
  | encodeFails
deriving DecidableEq

def Sink.takesData : Sink → Bool
  | .dataFails _ => false
  | _ => true

structure Writer where
  chunkSizeBytes : BitVec 64
  curChunk : List Byte
  /-- what `signatureHash` has been given after the header -/
  hashes : List Digest
  committed : List (List Byte)
  written : List Byte

/-- What `signatureHash` has been given: the header and the hashes. -/
def signatureInput (chunkSizeBytes : BitVec 64) (hashes : List Digest) : List Byte :=
  le64 chunkSizeBytes ++ hashes.flatMap Digest.bytes

theorem signatureInput_inj {c c' : BitVec 64} {hashes hashes' : List Digest}
    (h : signatureInput c hashes = signatureInput c' hashes') : c = c' ∧ hashes = hashes' := by
  rw [signatureInput, signatureInput] at h
  obtain ⟨hsize, hhashes⟩ := append_inj h (by simp)
  exact ⟨le64_injective hsize, flatMap_bytes_inj hhashes⟩

namespace Writer

def newSigningWriteCloser (chunkSizeBytes : BitVec 64) : Writer := ⟨chunkSizeBytes, [], [], [], []⟩

section Steps

variable (sha256 : List Byte → Digest)

/-- The chunk in the buffer is hashed. -/
def commit (w : Writer) : Writer :=
  { w with
    curChunk := []
    hashes := w.hashes ++ [sha256 w.curChunk]
    committed := w.committed ++ [w.curChunk] }

/-- `commitChunk`, and whether it returned no error. -/
def commitChunk (force : Bool) (sink : Sink) (w : Writer) : Writer × Bool :=
  if force = false ∧ (w.curChunk.length : ℤ) < w.chunkSizeBytes.toInt then (w, true)
  else
    match sink with
    | .dataFails n => ({ w with curChunk := w.curChunk.drop n }, false)
    | .encodeFails => (w.commit sha256, false)
    | .fine => (w.commit sha256, true)

/-- The loop of `Write`. It does not return if a slice bound is negative, or if the chunk size is 0,
when it goes on for ever. -/
def writeLoop : ℕ → List Byte → List Sink → Writer → Option Writer
  | 0, p, _, w => if p = [] then some w else none
  | fuel + 1, p, sinks, w =>
    if p = [] then some w
    else
      let free := w.chunkSizeBytes.toInt - w.curChunk.length
      if free < 0 then none
      else
        let q := p.take free.toNat
        let w := { w with curChunk := w.curChunk ++ q, written := w.written ++ q }
        match commitChunk sha256 false (sinks.headD .fine) w with
        | (w, true) => writeLoop fuel (p.drop free.toNat) sinks.tail w
        | (w, false) => some w

/-- Each round takes a byte at least, except the first one if a full chunk is left from an error. -/
def write (p : List Byte) (sinks : List Sink) (w : Writer) : Option Writer :=
  writeLoop sha256 (2 * p.length + 2) p sinks w

/-- `Close` up to the signature, and what is signed. -/
def close (sink : Sink) (w : Writer) : Writer × Option (List Byte) :=
  if w.curChunk = [] then (w, some (signatureInput w.chunkSizeBytes w.hashes))
  else
    match commitChunk sha256 true sink w with
    | (w, true) => (w, some (signatureInput w.chunkSizeBytes w.hashes))
    | (w, false) => (w, none)

inductive Call where
  | write (p : List Byte) (sinks : List Sink)
  | close (sink : Sink)

def step (w : Writer) : Call → Option Writer
  | .write p sinks => w.write sha256 p sinks
  | .close sink => some (w.close sha256 sink).1

end Steps

/-- The data sink takes everything. -/
def Call.takesData : Call → Bool
  | .write _ sinks => sinks.all Sink.takesData
  | .close sink => sink.takesData

/-! ## What is hashed -/

variable {sha256 : List Byte → Digest} {w w' : Writer} {sink : Sink} {m : List Byte}

/-- The chunks hashed and the one in the buffer are what was written. -/
structure Sound (sha256 : List Byte → Digest) (w : Writer) : Prop where
  hashes : w.hashes = w.committed.map sha256
  written : w.committed.flatten ++ w.curChunk = w.written

theorem Sound.commitChunk (force : Bool) (h : w.Sound sha256)
    (hsink : sink.takesData = true) : (w.commitChunk sha256 force sink).1.Sound sha256 := by
  have hcommit : (w.commit sha256).Sound sha256 := by
    refine ⟨?_, ?_⟩
    · rw [commit, h.hashes, map_append, map_singleton]
    · rw [commit, flatten_append, flatten_singleton, append_nil]
      exact h.written
  unfold Writer.commitChunk
  split
  · exact h
  · match sink with
    | .fine => exact hcommit
    | .encodeFails => exact hcommit

theorem Sound.writeLoop {fuel : ℕ} {p : List Byte} {sinks : List Sink} (h : w.Sound sha256)
    (hsinks : sinks.all Sink.takesData = true)
    (hrun : w.writeLoop sha256 fuel p sinks = some w') : w'.Sound sha256 := by
  induction fuel generalizing w p sinks with
  | zero =>
    obtain ⟨-, ⟨⟩⟩ := ite_none_right_eq_some.mp hrun
    exact h
  | succ fuel ih =>
    rw [Writer.writeLoop] at hrun
    split at hrun
    · obtain rfl := some.inj hrun
      exact h
    · dsimp only at hrun
      obtain ⟨-, hrun⟩ := ite_none_left_eq_some.mp hrun
      set q := p.take (w.chunkSizeBytes.toInt - w.curChunk.length).toNat
      have htaken : Sound sha256
          { w with curChunk := w.curChunk ++ q, written := w.written ++ q } := by
        refine ⟨h.hashes, ?_⟩
        rw [← append_assoc, h.written]
      have hhead : (sinks.headD .fine).takesData = true := by
        rcases sinks with _ | ⟨sink, sinks⟩
        · rfl
        · rw [all_cons, Bool.and_eq_true] at hsinks
          exact hsinks.1
      have htail : sinks.tail.all Sink.takesData = true := by
        rcases sinks with _ | ⟨sink, sinks⟩
        · rfl
        · rw [all_cons, Bool.and_eq_true] at hsinks
          exact hsinks.2
      have hcommit := htaken.commitChunk false hhead
      split at hrun
      · next w₁ heq =>
        rw [heq] at hcommit
        exact ih hcommit htail hrun
      · next w₁ heq =>
        rw [heq] at hcommit
        obtain rfl := some.inj hrun
        exact hcommit

theorem Sound.close (h : w.Sound sha256) (hsink : sink.takesData = true) :
    (w.close sha256 sink).1.Sound sha256 := by
  have hcommit := h.commitChunk true hsink
  rw [Writer.close]
  split
  · exact h
  · split
    · next heq =>
      rw [heq] at hcommit
      exact hcommit
    · next heq =>
      rw [heq] at hcommit
      exact hcommit

theorem Sound.step {call : Call} (h : w.Sound sha256) (hcall : call.takesData = true)
    (hstep : w.step sha256 call = some w') : w'.Sound sha256 := by
  match call with
  | .write p sinks => exact h.writeLoop hcall hstep
  | .close sink =>
    obtain rfl := some.inj hstep
    exact h.close hcall

theorem curChunk_of_commitChunk (h : w.commitChunk sha256 true sink = (w', true)) :
    w'.curChunk = [] := by
  unfold commitChunk at h
  rw [if_neg (by simp)] at h
  match sink with
  | .fine =>
    obtain ⟨⟩ := h
    rfl

/-- What is signed at the end is what the closed writer has in its hash. -/
theorem close_eq_some (h : (w.close sha256 sink).2 = some m) :
    m = signatureInput (w.close sha256 sink).1.chunkSizeBytes (w.close sha256 sink).1.hashes ∧
      (w.close sha256 sink).1.curChunk = [] := by
  unfold close at h ⊢
  split at h
  · next hnil =>
    rw [if_pos hnil]
    exact ⟨(some.inj h).symm, hnil⟩
  · next hne =>
    rw [if_neg hne]
    split at h
    · next w₁ heq =>
      refine ⟨(some.inj h).symm, ?_⟩
      exact curChunk_of_commitChunk heq
    · exact nomatch h

theorem sound_of_run {calls : List Call} (h : w.Sound sha256)
    (hcalls : ∀ call ∈ calls, call.takesData = true)
    (hrun : run (step sha256) w calls = some w') : w'.Sound sha256 := by
  induction calls generalizing w with
  | nil =>
    obtain rfl := some.inj hrun
    exact h
  | cons call calls ih =>
    obtain ⟨hcall, hcalls⟩ := forall_mem_cons.mp hcalls
    obtain ⟨w₁, hstep, hrest⟩ := run_cons_eq_some_iff.mp hrun
    exact ih (h.step hcall hstep) hcalls hrest

/-! ## Signed histories -/

/-- A writer that is used and then closed. -/
structure History where
  chunkSizeBytes : BitVec 64
  calls : List Call
  last : Sink

/-- The writer after it was closed, and what was signed then. -/
def History.signed (sha256 : List Byte → Digest) (c : History) : Option (Writer × List Byte) :=
  (Transition.run (step sha256) (newSigningWriteCloser c.chunkSizeBytes) c.calls).bind fun w ↦
    (w.close sha256 c.last).2.map fun m ↦ ((w.close sha256 c.last).1, m)

def History.takesData (c : History) : Bool := c.calls.all Call.takesData && c.last.takesData

/-- What is signed is what was written, if the data sink took it. -/
theorem History.signed_eq_some {c : History} (hdata : c.takesData = true)
    (h : c.signed sha256 = some (w, m)) :
    m = signatureInput w.chunkSizeBytes (w.committed.map sha256) ∧
      w.hashes = w.committed.map sha256 ∧ w.committed.flatten = w.written := by
  rw [takesData, Bool.and_eq_true, all_eq_true] at hdata
  obtain ⟨w₀, hrun, hclose⟩ := bind_eq_some_iff.mp h
  obtain ⟨m, hm, heq⟩ := map_eq_some_iff.mp hclose
  obtain ⟨⟩ := heq
  have hnew : Sound sha256 (newSigningWriteCloser c.chunkSizeBytes) := ⟨rfl, rfl⟩
  have hsound : w₀.Sound sha256 := sound_of_run hnew hdata.1 hrun
  obtain ⟨hm, hnil⟩ := close_eq_some hm
  have hclosed := hsound.close hdata.2
  rw [hm, hclosed.hashes, ← hclosed.written, hnil, append_nil]
  exact ⟨rfl, rfl, rfl⟩

end Writer

end Vanadium.Serialization
