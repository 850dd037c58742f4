import Vanadium.Blob.Crc64Window

/-!
# Content-defined chunks

`chunker.go`: `Advance` moves a window over a byte stream until the hash of the window marks the end
of a chunk. With `bufferChunks` the whole next chunk is read into the buffer first, so that `Value`
can return it; without, the buffer is refilled on the way and only the position of the end is kept.

The buffer is the list of the bytes that are valid in it, so that `bufEnd` is derived. Offsets in
the stream are natural numbers; what is computed from them and from the parameters is an `int64` and
wraps.
-/

namespace Vanadium.Chunker

open Crc64Window

/-- `crc64window.ECMA`. -/
def ecma : Word := 0xc96c5795d7870f42

structure Param where
  windowWidth : ℕ
  minChunk : ℕ
  maxChunk : ℕ
  primary : ℕ
  secondary : ℕ

/-- The value of an `int64` to which this number is assigned. -/
def int64 (n : ℤ) : ℤ := Int.bmod n (2 ^ 64)

/-! ## Readers -/

/-- An `io.Reader` with the bytes that it has not delivered yet and, for each of the next calls, how
many bytes it is willing to return and whether it reports the end of the stream together with the
last of them. After these calls it returns as much as fits. -/
structure Reader where
  rest : List Byte
  calls : List (ℕ × Bool)

namespace Reader

/-- `Read` into a buffer of the given length: the bytes, whether there was an error (the end of the
stream), and the reader afterwards. -/
def read (r : Reader) (len : ℕ) : List Byte × Bool × Reader :=
  match r.calls with
  | [] => (r.rest.take len, decide (r.rest.length ≤ len), ⟨r.rest.drop len, []⟩)
  | (n, eof) :: calls =>
    (r.rest.take (min n len), eof && decide (r.rest.length ≤ min n len),
      ⟨r.rest.drop (min n len), calls⟩)

/-- More than the number of calls until the end of the stream is reported. -/
def patience (r : Reader) : ℕ := r.calls.length + r.rest.length + 1

end Reader

/-! ## Streams -/

structure Stream where
  param : Param
  window : Window
  bufSize : ℕ
  buf : List Byte
  rd : Reader
  err : Bool
  cancelled : Bool
  bufferChunks : Bool
  bufStart : ℕ
  chunkStart : ℕ
  chunkEnd : ℕ
  windowEnd : ℕ
  hash : Word

/-- The loop that chooses the size of the buffer. -/
def growBuf : ℕ → ℤ → ℤ → Option ℤ
  | 0, _, _ => none
  | k + 1, bufSize, need =>
    if bufSize < need then growBuf k (int64 (bufSize * 2)) need else some bufSize

/-- The size of the buffer. After 64 rounds of the loop it would be zero for ever. -/
def Param.bufSize (param : Param) (bufferChunks : Bool) : Option ℕ :=
  if bufferChunks then (growBuf 64 8192 (int64 (4 * param.maxChunk))).map Int.toNat else some 8192

def newStream (tables : Tables) (param : Param) (rd : Reader) (bufferChunks : Bool) :
    Option Stream :=
  match new tables ecma param.windowWidth, param.bufSize bufferChunks with
  | none, _ => none
  | _, none => none
  | some (w, _), some bufSize => some
    { param := param
      window := w
      bufSize := bufSize
      buf := []
      rd := rd
      err := false
      cancelled := false
      bufferChunks := bufferChunks
      bufStart := 0
      chunkStart := 0
      chunkEnd := 0
      windowEnd := 0
      hash := 0 }

namespace Stream

/-- The offset of the first byte after those in the buffer. -/
def bufEnd (s : Stream) : ℕ := s.bufStart + s.buf.length

/-- Both the minimum size is reached and a primary boundary is found. -/
def atBreak (s : Stream) (minChunk : ℤ) : Bool :=
  minChunk ≤ s.windowEnd ∧ s.hash.toNat % s.param.primary = 1

/-- Read into the buffer behind what is there. -/
def readMore (s : Stream) (len : ℕ) : Stream :=
  let (bytes, err, rd) := s.rd.read len
  { s with buf := s.buf ++ bytes, err := err, rd := rd }

/-- The loop that fills the buffer. -/
def fill : ℕ → Stream → Option Stream
  | 0, _ => none
  | k + 1, s =>
    if s.err ∨ int64 (s.bufStart + s.bufSize) ≤ s.bufEnd ∨ s.cancelled then some s
    else fill k (s.readMore (s.bufSize - s.buf.length))

/-- Move what is left of the buffered data to the start of the buffer. -/
def compact (s : Stream) : Stream :=
  if s.bufStart < s.chunkEnd then
    { s with buf := s.buf.drop (s.chunkEnd - s.bufStart), bufStart := s.chunkEnd }
  else s

/-- The first part of `Advance`: if entire chunks are buffered, have enough data for the next
one. -/
def prepare (s : Stream) : Option Stream :=
  if s.bufferChunks ∧ s.bufEnd < int64 (s.chunkEnd + s.param.maxChunk) ∧ ¬s.err then
    fill (s.rd.patience + 1) s.compact
  else some s

/-- Fill the buffer if it is empty and there is more data to read. This panics if entire chunks are
buffered. -/
def refill (s : Stream) : Option Stream :=
  if s.windowEnd = s.bufEnd ∧ ¬s.err then
    if s.bufferChunks then none
    else some ({ s with bufStart := s.bufEnd, buf := [] }.readMore s.bufSize)
  else some s

/-- Advance the window by one byte. -/
def pushByte (s : Stream) (b : Byte) : Stream :=
  let (hash, window) := s.window.advance b
  { s with hash := hash, window := window, windowEnd := s.windowEnd + 1 }

/-- The inner loop, over the bytes of the buffer from the end of the window on. The last argument is
`lastSecondaryBreak`. The result is `none` if the loop goes on behind the bytes that were read. -/
def advanceWindow (minChunk bufLimit : ℤ) : List Byte → Stream → ℤ → Option (Stream × ℤ)
  | [], s, lastSecondaryBreak =>
    if s.windowEnd = bufLimit ∨ s.atBreak minChunk ∨ s.cancelled then some (s, lastSecondaryBreak)
    else none
  | b :: bytes, s, lastSecondaryBreak =>
    if s.windowEnd = bufLimit ∨ s.atBreak minChunk ∨ s.cancelled then some (s, lastSecondaryBreak)
    else
      let s := s.pushByte b
      advanceWindow minChunk bufLimit bytes s
        (if s.hash.toNat % s.param.secondary = 1 then s.windowEnd else lastSecondaryBreak)

/-- The outer loop, until the end of the chunk. -/
def findBreak (minChunk maxChunk : ℤ) : ℕ → Stream → ℤ → Option (Stream × ℤ)
  | 0, _, _ => none
  | k + 1, s, lastSecondaryBreak =>
    if s.windowEnd = maxChunk ∨ s.atBreak minChunk ∨ (s.windowEnd = s.bufEnd ∧ s.err) ∨
        s.cancelled then
      some (s, lastSecondaryBreak)
    else
      match s.refill with
      | none => none
      | some s =>
        match advanceWindow minChunk (min maxChunk s.bufEnd)
            (s.buf.drop (s.windowEnd - s.bufStart)) s lastSecondaryBreak with
        | none => none
        | some (s, lastSecondaryBreak) => findBreak minChunk maxChunk k s lastSecondaryBreak

/-- The second part of `Advance`: find the end of the chunk. -/
def search (minChunk maxChunk : ℤ) (s : Stream) : Option (Bool × Stream) :=
  match findBreak minChunk maxChunk (s.rd.patience + 2) s maxChunk with
  | none => none
  | some (s, lastSecondaryBreak) =>
    let chunkEnd :=
      if s.windowEnd = maxChunk ∧ s.hash.toNat % s.param.primary ≠ 1 ∧
          lastSecondaryBreak ≠ maxChunk then lastSecondaryBreak.toNat
      else s.windowEnd
    some (!s.cancelled && decide (s.chunkStart ≠ chunkEnd), { s with chunkEnd := chunkEnd })

/-- `Advance`. The result is `none` if it panics. -/
def advance (s : Stream) : Option (Bool × Stream) :=
  s.prepare.bind fun s ↦ search (int64 (s.chunkEnd + s.param.minChunk))
    (int64 (s.chunkEnd + s.param.maxChunk)) { s with chunkStart := s.chunkEnd }

def value (s : Stream) : List Byte :=
  (s.buf.drop (s.chunkStart - s.bufStart)).take (s.chunkEnd - s.chunkStart)

/-- Call `Advance` until it returns false, and collect a value after each call. -/
def collect {α : Type} (get : Stream → α) : ℕ → Stream → Option (List α)
  | 0, _ => none
  | k + 1, s =>
    match s.advance with
    | none => none
    | some (false, _) => some []
    | some (true, s') => (collect get k s').map (get s' :: ·)

end Stream

/-- All chunks of a new `Stream`. -/
def chunks (tables : Tables) (param : Param) (rd : Reader) : Option (List (List Byte)) :=
  (newStream tables param rd true).bind (Stream.collect Stream.value (rd.rest.length + 1))

/-- All values of a new `PosStream`: the ends of the chunks. -/
def positions (tables : Tables) (param : Param) (rd : Reader) : Option (List ℕ) :=
  (newStream tables param rd false).bind (Stream.collect Stream.chunkEnd (rd.rest.length + 1))

end Vanadium.Chunker
