import Vanadium.Signing.SigningWriter

/-!
# Reading signed data

A `verifyingReader` reads the hashes of chunks from a stream with a signature, and then chunk after
chunk from a stream of data. A chunk must have the hash that is next.

What it returns was signed, with two exceptions. If the stream with the signature ends before there
is one, the loop that looks for it ends as well, and nothing was verified. And a chunk that has not
passed its check stays in the buffer, from where the next call of `Read` returns it.
-/

namespace Vanadium.Serialization

open Foundations Transition FixedWidth List

/-! ## Streams -/

/-- What a call of the data stream's `Read` gives. At the end of the list there is nothing more. -/
inductive Piece where
  | bytes (b : List Byte)
  | eof
  | fails

inductive CopyEnd where
  | full
  | eof
  | fails
deriving DecidableEq

/-- `io.CopyN` into a buffer: the bytes copied, why it stopped, and what is left. -/
def copyN : ℕ → List Piece → List Byte × CopyEnd × List Piece
  | 0, data => ([], .full, data)
  | _ + 1, [] => ([], .eof, [])
  | _ + 1, .eof :: data => ([], .eof, data)
  | _ + 1, .fails :: data => ([], .fails, data)
  | n + 1, .bytes b :: data =>
    if b.length ≤ n + 1 then
      let (b', stop, rest) := copyN (n + 1 - b.length) data
      (b ++ b', stop, rest)
    else (b.take (n + 1), .full, .bytes (b.drop (n + 1)) :: data)

/-- A value decoded from the stream with the signature. -/
inductive Record (σ : Type) where
  | hash (h : Digest)
  | signature (s : σ)
  /-- a value of another type -/
  | other
  | undecodable

def Record.isSignature {σ : Type} : Record σ → Bool
  | .signature _ => true
  | _ => false

structure SignatureStream (σ : Type) where
  /-- the chunk size in the header, if that can be decoded -/
  header : Option (BitVec 64)
  records : List (Record σ)
  /-- whether there are bytes left when the records have been read -/
  more : Bool

/-! ## The reader -/

inductive ReadError where
  | cantDecodeHeader
  | cantDecode
  | cantVerifySig
  | badTypeFromSigReader
  | unexpectedDataAfterSig
  | modifiedSinceWritten
  | dataFailed
  | eof
deriving DecidableEq

structure Reader where
  data : List Piece
  chunkSizeBytes : BitVec 64
  curChunk : List Byte
  hashes : List Digest

section Reading

variable {σ : Type} (sha256 : List Byte → Digest) (verify : σ → Digest → Bool)

/-- The loop of `verifySignature`: the hashes before the signature. -/
def verifyLoop (chunkSizeBytes : BitVec 64) :
    List (Record σ) → List Digest → Except ReadError (List Digest)
  -- the stream has ended
  | [], hashes => .ok hashes
  | .hash h :: records, hashes => verifyLoop chunkSizeBytes records (hashes ++ [h])
  | .signature s :: _, hashes =>
    if verify s (sha256 (signatureInput chunkSizeBytes hashes)) then .ok hashes
    else .error .cantVerifySig
  | .other :: _, _ => .error .badTypeFromSigReader
  | .undecodable :: _, _ => .error .cantDecode

def newVerifyingReader (data : List Piece) (signature : SignatureStream σ) :
    Except ReadError Reader :=
  match signature.header with
  | none => .error .cantDecodeHeader
  | some chunkSizeBytes =>
    match verifyLoop sha256 verify chunkSizeBytes signature.records [] with
    | .error err => .error err
    | .ok hashes =>
      if signature.more then .error .unexpectedDataAfterSig
      else .ok ⟨data, chunkSizeBytes, [], hashes⟩

def readChunk (r : Reader) : Reader × Option ReadError :=
  if r.curChunk ≠ [] then (r, none)
  else
    match r.hashes with
    | [] => (r, none)
    | h :: hashes =>
      match copyN r.chunkSizeBytes.toInt.toNat r.data with
      | (b, stop, data) =>
        let r := { r with data := data, curChunk := b, hashes := hashes }
        if stop = .fails then (r, some .dataFailed)
        else if sha256 b = h then (r, none) else (r, some .modifiedSinceWritten)

/-- The loop of `Read` with a buffer of some length. Each round fills a byte at least. -/
def readLoop : ℕ → ℕ → Reader → List Byte × Option ReadError × Reader
  | 0, _, r => ([], none, r)
  | fuel + 1, n, r =>
    if n = 0 then ([], none, r)
    else
      match readChunk sha256 r with
      | (r, some err) => ([], some err, r)
      | (r, none) =>
        if r.curChunk = [] then ([], some .eof, r)
        else
          match readLoop fuel (n - r.curChunk.length) { r with curChunk := r.curChunk.drop n } with
          | (out, err, r') => (r.curChunk.take n ++ out, err, r')

def read (n : ℕ) (r : Reader) : List Byte × Option ReadError × Reader := readLoop sha256 n n r

/-! ## Calls of `Read` one after the other -/

/-- A reader, all that it has returned, and whether a chunk was refused. -/
structure Session where
  reader : Reader
  returned : List Byte
  refused : Bool

def refuses : Option ReadError → Bool
  | none => false
  | some .eof => false
  | some _ => true

def Session.step (s : Session) (n : ℕ) : Option Session :=
  match read sha256 n s.reader with
  | (out, err, r) => some ⟨r, s.returned ++ out, s.refused || refuses err⟩

/-- No chunk was refused before the call. -/
def Trusting (s : Session) (_ : ℕ) : Prop := s.refused = false

instance (s : Session) (n : ℕ) : Decidable (Trusting s n) := inferInstanceAs (Decidable (_ = _))

end Reading

/-! ## What the reader has verified -/

variable {σ : Type} {sha256 : List Byte → Digest} {verify : σ → Digest → Bool} {r : Reader}
  {c : Writer.History} {data : List Piece}

theorem verify_of_verifyLoop {c : BitVec 64} {records : List (Record σ)}
    {hashes hashes' : List Digest} (hsig : records.any Record.isSignature = true)
    (h : verifyLoop sha256 verify c records hashes = .ok hashes') :
    ∃ s, verify s (sha256 (signatureInput c hashes')) = true := by
  induction records generalizing hashes with
  | nil => exact nomatch hsig
  | cons record records ih =>
    match record with
    | .hash d => exact ih hsig h
    | .signature s =>
      rw [verifyLoop] at h
      split at h
      · next hverify =>
        obtain rfl := Except.ok.inj h
        exact ⟨s, hverify⟩
      · exact nomatch h

theorem verify_of_newVerifyingReader {signature : SignatureStream σ}
    (hsig : signature.records.any Record.isSignature = true)
    (h : newVerifyingReader sha256 verify data signature = .ok r) :
    r.curChunk = [] ∧ ∃ s, verify s (sha256 (signatureInput r.chunkSizeBytes r.hashes)) = true := by
  unfold newVerifyingReader at h
  split at h
  · exact nomatch h
  · split at h
    · exact nomatch h
    · next hloop =>
      split at h
      · exact nomatch h
      · obtain rfl := Except.ok.inj h
        exact ⟨rfl, verify_of_verifyLoop hsig hloop⟩

/-- No other bytes have the hash of these. -/
def Binding (sha256 : List Byte → Digest) (y : List Byte) : Prop := ∀ x, sha256 x = sha256 y → x = y

/-- The chunk in the buffer and the chunks of the hashes that are left make up some bytes. -/
def Reader.Awaits (sha256 : List Byte → Digest) (r : Reader) (todo : List Byte) : Prop :=
  ∃ chunks : List (List Byte), todo = r.curChunk ++ chunks.flatten ∧ r.hashes = chunks.map sha256 ∧
    ∀ chunk ∈ chunks, Binding sha256 chunk

theorem Reader.Awaits.readChunk {todo : List Byte} (h : r.Awaits sha256 todo)
    (hok : (readChunk sha256 r).2 = none) : (readChunk sha256 r).1.Awaits sha256 todo := by
  unfold Serialization.readChunk at hok ⊢
  split at hok
  · next hne =>
    rw [if_pos hne]
    exact h
  · next hnil =>
    rw [if_neg hnil]
    obtain ⟨chunks, htodo, hhashes, hbinding⟩ := h
    rw [not_not.mp hnil] at htodo
    rcases chunks with _ | ⟨chunk, chunks⟩
    · rw [hhashes, map_nil]
      refine ⟨[], ?_, hhashes, hbinding⟩
      rw [htodo, not_not.mp hnil]
    · rw [hhashes, map_cons] at hok ⊢
      obtain ⟨hchunk, hchunks⟩ := forall_mem_cons.mp hbinding
      -- the chunk that was read is the chunk that was hashed
      dsimp only at hok ⊢
      split at hok
      · exact nomatch hok
      · next hstop =>
        rw [if_neg hstop]
        split at hok
        · next hhash =>
          rw [if_pos hhash]
          refine ⟨chunks, ?_, rfl, hchunks⟩
          rw [htodo, hchunk _ hhash, nil_append, flatten_cons]
        · exact nomatch hok

theorem refuses_of_readChunk {err : ReadError} (h : (readChunk sha256 r).2 = some err) :
    refuses (some err) = true := by
  unfold readChunk at h
  split at h
  · exact nomatch h
  · split at h
    · exact nomatch h
    · dsimp only at h
      split at h
      · obtain rfl := Option.some.inj h
        rfl
      · split at h
        · exact nomatch h
        · obtain rfl := Option.some.inj h
          rfl

/-- What a call of `Read` returns comes next, and what follows is awaited unless a chunk was
refused. -/
theorem Reader.Awaits.readLoop {fuel n : ℕ} {r r' : Reader} {todo out : List Byte}
    {err : Option ReadError} (h : r.Awaits sha256 todo)
    (hread : readLoop sha256 fuel n r = (out, err, r')) :
    ∃ todo', todo = out ++ todo' ∧ (refuses err = false → r'.Awaits sha256 todo') := by
  induction fuel generalizing n r todo out with
  | zero =>
    obtain ⟨⟩ := hread
    exact ⟨todo, rfl, fun _ ↦ h⟩
  | succ fuel ih =>
    unfold Serialization.readLoop at hread
    split at hread
    · obtain ⟨⟩ := hread
      exact ⟨todo, rfl, fun _ ↦ h⟩
    · split at hread
      · next r₁ err₁ hchunk =>
        obtain ⟨⟩ := hread
        have hrefuses : refuses (some err₁) = true := refuses_of_readChunk (by rw [hchunk])
        refine ⟨todo, rfl, fun hnot ↦ ?_⟩
        rw [hrefuses] at hnot
        exact nomatch hnot
      · next r₁ hchunk =>
        have h₁ := h.readChunk (by rw [hchunk])
        rw [hchunk] at h₁
        split at hread
        · obtain ⟨⟩ := hread
          exact ⟨todo, rfl, fun _ ↦ h₁⟩
        · obtain ⟨chunks, htodo, hhashes, hbinding⟩ := h₁
          have hrest : Reader.Awaits sha256 { r₁ with curChunk := r₁.curChunk.drop n }
              (r₁.curChunk.drop n ++ chunks.flatten) := ⟨chunks, rfl, hhashes, hbinding⟩
          split at hread
          rename_i out' err' r'' hloop
          obtain ⟨⟩ := hread
          obtain ⟨todo', heq, hawaits⟩ := ih hrest hloop
          refine ⟨todo', ?_, hawaits⟩
          rw [htodo, append_assoc, ← heq, ← append_assoc, take_append_drop]

/-! ## What the reader returns -/

/-- What has been returned is the beginning of some bytes, and the reader awaits the rest of them
unless a chunk was refused. -/
structure Session.Follows (sha256 : List Byte → Digest) (written : List Byte) (s : Session) :
    Prop where
  returned : s.returned <+: written
  awaits : s.refused = false → ∃ todo, s.returned ++ todo = written ∧ s.reader.Awaits sha256 todo

theorem Session.Follows.step {written : List Byte} {s s' : Session} {n : ℕ}
    (h : s.Follows sha256 written) (hstep : guarded Trusting (step sha256) s n = some s') :
    s'.Follows sha256 written := by
  obtain ⟨hok, hstep⟩ := guarded_eq_some_iff.mp hstep
  obtain ⟨todo, heq, hawaits⟩ := h.awaits hok
  unfold Session.step at hstep
  split at hstep
  rename_i out err r hread
  obtain rfl := Option.some.inj hstep
  obtain ⟨todo', rfl, hrest⟩ := hawaits.readLoop hread
  rw [← append_assoc] at heq
  refine ⟨⟨todo', heq⟩, fun hrefused ↦ ⟨todo', heq, hrest ?_⟩⟩
  exact (Bool.or_eq_false_iff.mp hrefused).2

/-- The holder of the key closed these writers. Nothing else has the hash of what the holder hashed,
and a signature that verifies is on what the holder signed. -/
structure Holds (sha256 : List Byte → Digest) (verify : σ → Digest → Bool)
    (holder : Set Writer.History) : Prop where
  binding : ∀ c ∈ holder, ∀ w m, c.signed sha256 = some (w, m) →
    ∀ y ∈ m :: w.committed, Binding sha256 y
  unforgeable : ∀ sig digest, verify sig digest = true →
    ∃ c ∈ holder, ∃ w m, c.signed sha256 = some (w, m) ∧ digest = sha256 m

/-- **Only signed data is returned**, if there is a signature, there is no call of `Read` after a
chunk was refused, and the holder's data sinks took what was written. -/
theorem returned_was_written {holder : Set Writer.History} {data : List Piece}
    {signature : SignatureStream σ} {r : Reader} {reads : List ℕ} {s : Session}
    (hholder : Holds sha256 verify holder) (hsinks : ∀ c ∈ holder, c.takesData = true)
    (hsig : signature.records.any Record.isSignature = true)
    (hopen : newVerifyingReader sha256 verify data signature = .ok r)
    (hrun : Transition.run (Transition.guarded Trusting (Session.step sha256))
      ⟨r, [], false⟩ reads = some s) :
    ∃ c ∈ holder, ∃ w m, c.signed sha256 = some (w, m) ∧ s.returned <+: w.written := by
  obtain ⟨hnil, sig, hverify⟩ := verify_of_newVerifyingReader hsig hopen
  obtain ⟨c, hc, w, m, hsigned, hdigest⟩ := hholder.unforgeable sig _ hverify
  have hbinding := hholder.binding c hc w m hsigned
  obtain ⟨hm, -, hwritten⟩ := Writer.History.signed_eq_some (hsinks c hc) hsigned
  have hinput : signatureInput r.chunkSizeBytes r.hashes = m :=
    hbinding m List.mem_cons_self _ hdigest
  obtain ⟨-, hhashes⟩ := signatureInput_inj (hinput.trans hm)
  have hnew : Session.Follows sha256 w.written ⟨r, [], false⟩ := by
    refine ⟨List.nil_prefix, fun _ ↦ ⟨w.written, rfl, w.committed, ?_, hhashes, ?_⟩⟩
    · rw [hnil, List.nil_append, hwritten]
    · exact fun chunk hchunk ↦ hbinding chunk (List.mem_cons_of_mem m hchunk)
  have hend : s.Follows sha256 w.written :=
    Transition.run_invariant (fun _ _ _ h ht ↦ h.step ht) hnew
      hrun
  exact ⟨c, hc, w, m, hsigned, hend.returned⟩

/-! ## Data that was not signed -/

section Samples

def sampleDigest (n : ℕ) : Digest := ⟨List.replicate 32 (BitVec.ofNat 8 n), by simp⟩

/-- What is signed when one byte was written in chunks of two. -/
def sampleInput : List Byte := signatureInput 2 [sampleDigest 1]

def sampleHash (x : List Byte) : Digest :=
  if x = [7] then sampleDigest 1 else if x = sampleInput then sampleDigest 2 else sampleDigest 3

/-- The holder has signed one input. -/
def sampleVerify (_ : Unit) (digest : Digest) : Bool := digest = sampleDigest 2

/-- A byte is written, and the writer is closed. -/
def sampleHistory : Writer.History := ⟨2, [.write [7] []], .fine⟩

/-- The data sink fails with the first chunk, and then takes the second one. -/
def failingHistory : Writer.History := ⟨2, [.write [4, 5] [.dataFails 2], .write [7] []], .fine⟩

theorem sampleHash_binding {y : List Byte} (hy : y = sampleInput ∨ y = [7]) :
    Binding sampleHash y := by
  have h₁₂ : sampleDigest 1 ≠ sampleDigest 2 := by decide
  have h₃₁ : sampleDigest 3 ≠ sampleDigest 1 := by decide
  have h₃₂ : sampleDigest 3 ≠ sampleDigest 2 := by decide
  have hne : sampleInput ≠ [7] := by decide
  intro x hx
  unfold sampleHash at hx
  rcases hy with rfl | rfl
  · rw [if_neg hne, if_pos rfl] at hx
    split at hx
    · exact absurd hx h₁₂
    · split at hx
      · assumption
      · exact absurd hx h₃₂
  · rw [if_pos rfl] at hx
    split at hx
    · assumption
    · split at hx
      · exact absurd hx.symm h₁₂
      · exact absurd hx h₃₁

theorem sample_holds {w : Writer}
    (hsigned : c.signed sampleHash = some (w, sampleInput)) (hcommitted : w.committed = [[7]]) :
    Holds sampleHash sampleVerify {c} := by
  have hall : ∀ c' ∈ ({c} : Set Writer.History), ∀ w' m, c'.signed sampleHash = some (w', m) →
      w' = w ∧ m = sampleInput := by
    rintro _ rfl w' m hm
    rw [hsigned] at hm
    obtain ⟨⟩ := hm
    exact ⟨rfl, rfl⟩
  refine ⟨fun c' hc' w' m hm y hy ↦ ?_, fun _ digest hverify ↦ ?_⟩
  · obtain ⟨rfl, rfl⟩ := hall c' hc' w' m hm
    rw [hcommitted] at hy
    exact sampleHash_binding (by simpa using hy)
  · have hdigest : sampleHash sampleInput = sampleDigest 2 := by decide
    refine ⟨c, rfl, w, sampleInput, hsigned, ?_⟩
    rw [hdigest]
    exact of_decide_eq_true hverify

theorem sampleHistory_signed :
    ∃ w, sampleHistory.signed sampleHash = some (w, sampleInput) ∧ w.committed = [[7]] ∧
      w.written = [7] :=
  ⟨⟨2, [], [sampleDigest 1], [[7]], [7]⟩, by rfl, rfl, rfl⟩

theorem failingHistory_signed :
    ∃ w, failingHistory.signed sampleHash = some (w, sampleInput) ∧ w.committed = [[7]] ∧
      w.written = [4, 5, 7] :=
  ⟨⟨2, [], [sampleDigest 1], [[7]], [4, 5, 7]⟩, by rfl, rfl, rfl⟩

/-- The signature stream of the writers above. -/
def sampleStream : SignatureStream Unit := ⟨some 2, [.hash (sampleDigest 1), .signature ()], false⟩

/-- Two calls of `Read` give the byte that was written, and then the end. -/
theorem returned_was_written_sample :
    Holds sampleHash sampleVerify {sampleHistory} ∧ ∃ r s,
      newVerifyingReader sampleHash sampleVerify [.bytes [7]] sampleStream = .ok r ∧
      Transition.run (Transition.guarded Trusting (Session.step sampleHash)) ⟨r, [], false⟩ [1, 1] =
        some s ∧ s.returned = [7] ∧
      ∃ c ∈ ({sampleHistory} : Set Writer.History), ∃ w m,
        c.signed sampleHash = some (w, m) ∧ s.returned <+: w.written := by
  obtain ⟨w, hsigned, hcommitted, -⟩ := sampleHistory_signed
  have hholds := sample_holds hsigned hcommitted
  have hsinks : ∀ c ∈ ({sampleHistory} : Set Writer.History), c.takesData = true := by
    rintro _ rfl
    rfl
  have hopen : newVerifyingReader sampleHash sampleVerify [.bytes [7]] sampleStream =
      .ok ⟨[.bytes [7]], 2, [], [sampleDigest 1]⟩ := by rfl
  have hrun : Transition.run (Transition.guarded Trusting (Session.step sampleHash))
      ⟨⟨[.bytes [7]], 2, [], [sampleDigest 1]⟩, [], false⟩ [1, 1] =
        some ⟨⟨[], 2, [], []⟩, [7], false⟩ := by rfl
  exact ⟨hholds, _, _, hopen, hrun, rfl, returned_was_written hholds hsinks rfl hopen hrun⟩

/-- A reader opens, and what it returns is nothing that the holder has written. -/
def Leaks (holder : Set Writer.History) (data : List Piece) (signature : SignatureStream Unit)
    (reads : List ℕ) : Prop :=
  ∃ r s, newVerifyingReader sampleHash sampleVerify data signature = .ok r ∧
    Transition.run (Session.step sampleHash) ⟨r, [], false⟩ reads = some s ∧
    ¬∃ c ∈ holder, ∃ w m, c.signed sampleHash = some (w, m) ∧ s.returned <+: w.written

theorem leaks_of_returned {w : Writer} {m : List Byte} {signature : SignatureStream Unit}
    {reads : List ℕ} {s : Session} (hsigned : c.signed sampleHash = some (w, m))
    (hopen : newVerifyingReader sampleHash sampleVerify data signature = .ok r)
    (hrun : run (Session.step sampleHash) ⟨r, [], false⟩ reads = some s)
    (hnot : ¬s.returned <+: w.written) : Leaks {c} data signature reads := by
  refine ⟨r, s, hopen, hrun, ?_⟩
  rintro ⟨_, rfl, w', m', hsigned', hprefix⟩
  rw [hsigned] at hsigned'
  obtain ⟨⟩ := hsigned'
  exact hnot hprefix

/-- **Data that was never written.** There is no signature; the chunk was refused before; or a chunk
of the writer was lost. -/
theorem unwritten_data_returned :
    (Holds sampleHash sampleVerify {sampleHistory} ∧
      Leaks {sampleHistory} [.bytes [9]] ⟨some 2, [.hash (sampleDigest 3)], false⟩ [1] ∧
      Leaks {sampleHistory} [.bytes [9]] sampleStream [1, 1]) ∧
    Holds sampleHash sampleVerify {failingHistory} ∧
      Leaks {failingHistory} [.bytes [7]] sampleStream [1] := by
  obtain ⟨w, hsigned, hcommitted, hwritten⟩ := sampleHistory_signed
  obtain ⟨w', hsigned', hcommitted', hwritten'⟩ := failingHistory_signed
  refine ⟨⟨sample_holds hsigned hcommitted, ?_, ?_⟩, sample_holds hsigned' hcommitted', ?_⟩
  · refine leaks_of_returned (r := ⟨[.bytes [9]], 2, [], [sampleDigest 3]⟩)
      hsigned rfl rfl ?_
    rw [hwritten]
    decide
  · refine leaks_of_returned (r := ⟨[.bytes [9]], 2, [], [sampleDigest 1]⟩)
      hsigned rfl rfl ?_
    rw [hwritten]
    decide
  · refine leaks_of_returned (r := ⟨[.bytes [7]], 2, [], [sampleDigest 1]⟩)
      hsigned' rfl rfl ?_
    rw [hwritten']
    decide

end Samples

end Vanadium.Serialization
