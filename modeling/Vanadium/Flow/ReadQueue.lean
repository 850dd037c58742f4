import Vanadium.Foundations.CircularArray

/-!
# The read queue of a flow

`readq` holds the slices that have arrived on a flow and have not been read yet, in a circular array
that grows when it is full. A reader takes the first slice (`get`) or a part of it (`read`).

`Represents` says which slices a queue holds; there is one lemma for each operation in these terms.
-/

namespace Vanadium.Flow

open Foundations List CircularArray

abbrev Byte := BitVec 8

def defaultBytesBufferedPerFlow : ℕ := 2 ^ 20

def initialReadqBufferSize : ℕ := 10

/-- The number of bytes in some slices. -/
def byteCount (bufs : List (List Byte)) : ℕ := (bufs.map List.length).sum

theorem byteCount_cons (buf : List Byte) (bufs : List (List Byte)) :
    byteCount (buf :: bufs) = buf.length + byteCount bufs := rfl

theorem byteCount_append (bufs bufs' : List (List Byte)) :
    byteCount (bufs ++ bufs') = byteCount bufs + byteCount bufs' := by
  rw [byteCount, map_append, sum_append]
  rfl

/-- `readq`, without the channel that wakes a waiting reader. -/
structure Readq where
  bufs : List (List Byte)
  b : ℕ
  e : ℕ
  closed : Bool
  size : ℕ
  nbufs : ℕ
deriving DecidableEq

/-- `ErrCounterOverflow`. -/
inductive PutError
  | counterOverflow
deriving DecidableEq

def newReadQ : Readq where
  bufs := List.replicate initialReadqBufferSize []
  b := 0
  e := 0
  closed := false
  size := 0
  nbufs := 0

namespace Readq

/-- `reserveLocked`: make room for `n` slices. -/
def reserveLocked (r : Readq) (n : ℕ) : Readq :=
  if n < r.bufs.length then r
  else
    let copied := CircularArray.pieces r.bufs r.b r.e
    { r with
      bufs := copied ++ List.replicate (2 * n - copied.length) []
      b := 0
      e := copied.length }

/-- Store one slice at the end. -/
def push (r : Readq) (buf : List Byte) : Readq :=
  { r with bufs := r.bufs.set r.e buf, e := (r.e + 1) % r.bufs.length }

def put (r : Readq) (bufs : List (List Byte)) : Except PutError Readq :=
  if byteCount bufs = 0 then .ok r
  else if r.closed then .ok r
  else if defaultBytesBufferedPerFlow < byteCount bufs + r.size then .error .counterOverflow
  else
    let newBufs := r.nbufs + bufs.length
    .ok { bufs.foldl push (r.reserveLocked newBufs) with
      nbufs := newBufs
      size := byteCount bufs + r.size }

/-- `waitLocked`: whether there is something to read, or `io.EOF`. The wait is not over (`none`) if
the queue is empty, unless it ended because the queue was closed or the context was done (`eof`). -/
def waitLocked (r : Readq) (eof : Bool) : Option Bool :=
  if r.size = 0 ∧ eof = false then none else some (!eof || decide (0 < r.nbufs))

/-- `read` into a buffer of length `len`: the bytes, or `none` for `io.EOF`. -/
def read (r : Readq) (len : ℕ) (eof : Bool) : Option (Option (List Byte) × Readq) :=
  match r.waitLocked eof with
  | none => none
  | some false => some (none, r)
  | some true =>
    match r.bufs[r.b]? with
    | none => none
    | some buf =>
      let n := min len buf.length
      let r' :=
        if 0 < (buf.drop n).length then { r with bufs := r.bufs.set r.b (buf.drop n) }
        else { r with nbufs := r.nbufs - 1, b := (r.b + 1) % r.bufs.length }
      some (some (buf.take n), { r' with size := r.size - n })

/-- `get`: the first slice, or `none` for `io.EOF`. -/
def get (r : Readq) (eof : Bool) : Option (Option (List Byte) × Readq) :=
  match r.waitLocked eof with
  | none => none
  | some false => some (none, r)
  | some true =>
    match r.bufs[r.b]? with
    | none => none
    | some out =>
      some (some out,
        { r with
          b := (r.b + 1) % r.bufs.length, size := r.size - out.length, nbufs := r.nbufs - 1 })

def close (r : Readq) : Readq := { r with closed := true }

/-! ## The slices of a queue -/

/-- The queue holds these slices, in this order. -/
structure Represents (r : Readq) (slices : List (List Byte)) : Prop where
  nbufs : r.nbufs = slices.length
  size : r.size = byteCount slices
  contents : CircularArray.contents r.bufs r.b r.nbufs = slices
  b_lt : r.b < r.bufs.length
  nbufs_lt : r.nbufs < r.bufs.length
  e_eq : r.e = (r.b + r.nbufs) % r.bufs.length

variable {r : Readq} {slices : List (List Byte)} {n : ℕ}

theorem represents_newReadQ : newReadQ.Represents [] :=
  ⟨rfl, rfl, rfl, by decide, by decide, rfl⟩

theorem Represents.close (h : r.Represents slices) : r.close.Represents slices :=
  ⟨h.nbufs, h.size, h.contents, h.b_lt, h.nbufs_lt, h.e_eq⟩

/-- **Growth keeps every slice.** -/
theorem Represents.reserveLocked (h : r.Represents slices) (hn : 0 < n) :
    (r.reserveLocked n).Represents slices ∧ n < (r.reserveLocked n).bufs.length := by
  rw [Readq.reserveLocked]
  split
  · next hlt => exact ⟨h, hlt⟩
  · next hge =>
    have hcopied : CircularArray.pieces r.bufs r.b r.e = slices := by
      rw [h.e_eq, CircularArray.pieces_eq_contents h.b_lt h.nbufs_lt, h.contents]
    have hlt := h.nbufs_lt
    rw [h.nbufs] at hlt
    have hlen : (slices ++ replicate (2 * n - slices.length) ([] : List Byte)).length = 2 * n := by
      rw [length_append, length_replicate]
      omega
    simp only [hcopied]
    refine ⟨⟨h.nbufs, h.size, ?_, ?_, ?_, ?_⟩, ?_⟩
    · rw [h.nbufs, CircularArray.contents, rotate_zero, take_left]
    · exact (Nat.mul_pos Nat.two_pos hn).trans_eq hlen.symm
    · rw [hlen, h.nbufs]
      omega
    · rw [hlen, h.nbufs, Nat.zero_add, Nat.mod_eq_of_lt (by omega)]
    · rw [hlen]
      omega

theorem contents_foldl_push (bufs : List (List Byte)) {r : Readq} (hb : r.b < r.bufs.length)
    (he : r.e = (r.b + n) % r.bufs.length) (hn : n + bufs.length < r.bufs.length) :
    (bufs.foldl push r).b = r.b ∧ (bufs.foldl push r).bufs.length = r.bufs.length ∧
      (bufs.foldl push r).closed = r.closed ∧
      (bufs.foldl push r).e = (r.b + (n + bufs.length)) % r.bufs.length ∧
      contents (bufs.foldl push r).bufs r.b (n + bufs.length) = contents r.bufs r.b n ++ bufs := by
  induction bufs generalizing r n with
  | nil => exact ⟨rfl, rfl, rfl, he, (append_nil _).symm⟩
  | cons buf bufs ih =>
    rw [length_cons] at hn
    have hlen : (r.push buf).bufs.length = r.bufs.length := length_set
    have he' : (r.push buf).e = (r.b + (n + 1)) % (r.push buf).bufs.length := by
      rw [hlen, push, he, Nat.mod_add_mod, Nat.add_assoc]
    obtain ⟨hb', hlen', hclosed, hend, hcontents⟩ := ih (r := r.push buf) (by rw [hlen]; exact hb)
      he' (by rw [hlen]; omega)
    rw [hlen] at hlen' hend
    rw [foldl_cons, length_cons, Nat.add_comm bufs.length, ← Nat.add_assoc n]
    refine ⟨hb', hlen', hclosed, hend, hcontents.trans ?_⟩
    change contents (r.bufs.set r.e buf) r.b (n + 1) ++ bufs = _
    rw [he, contents_set_end (by omega), append_assoc, singleton_append]

variable {r' : Readq} {eof : Bool} {buf out : List Byte} {len : ℕ}

/-- **`put` adds the slices at the end**, unless they are empty, the queue is closed or they are too
large. -/
theorem Represents.put (h : r.Represents slices) {bufs : List (List Byte)}
    (hput : r.put bufs = .ok r') :
    r'.closed = r.closed ∧ (byteCount bufs = 0 ∧ r' = r ∨ r.closed ∧ r' = r ∨
      byteCount bufs ≠ 0 ∧ r.closed = false ∧ r'.Represents (slices ++ bufs)) := by
  rw [Readq.put] at hput
  split at hput
  · next hzero =>
    cases hput
    exact ⟨rfl, .inl ⟨hzero, rfl⟩⟩
  split at hput
  · next hclosed =>
    cases hput
    exact ⟨rfl, .inr (.inl ⟨hclosed, rfl⟩)⟩
  split at hput
  · cases hput
  · next hzero hopen _ =>
    have hpos : 0 < r.nbufs + bufs.length := by
      obtain _ | ⟨buf, bufs⟩ := bufs
      · exact absurd rfl hzero
      · rw [length_cons]
        omega
    obtain ⟨hres, hroom⟩ := h.reserveLocked hpos
    have hn : (r.reserveLocked (r.nbufs + bufs.length)).nbufs = r.nbufs := by
      rw [hres.nbufs, h.nbufs]
    have hcl : (r.reserveLocked (r.nbufs + bufs.length)).closed = r.closed := by
      rw [Readq.reserveLocked]
      split <;> rfl
    dsimp only at hput
    generalize r.reserveLocked (r.nbufs + bufs.length) = r₀ at hput hres hroom hn hcl
    obtain ⟨hb, hlen, hclosed, hend, hcontents⟩ :=
      contents_foldl_push bufs hres.b_lt hres.e_eq (by rw [hn]; exact hroom)
    cases hput
    refine ⟨hclosed.trans hcl, .inr (.inr ⟨hzero, Bool.eq_false_iff.mpr hopen, ?_⟩)⟩
    rw [hn] at hend hcontents
    refine ⟨?_, ?_, ?_, ?_, ?_, ?_⟩
    · rw [length_append, h.nbufs]
    · rw [byteCount_append, h.size, Nat.add_comm]
    · rw [hb, hcontents, ← hn, hres.contents]
    · exact hb.trans_lt (hres.b_lt.trans_eq hlen.symm)
    · exact hroom.trans_eq hlen.symm
    · rw [hend, hb, hlen]

theorem Represents.waitLocked (h : r.Represents slices)
    (hwait : r.waitLocked eof = some true) : slices ≠ [] := by
  rintro rfl
  obtain ⟨hne, hwait⟩ := Option.ite_none_left_eq_some.mp hwait
  have hn : r.nbufs = 0 := h.nbufs
  have hsize : r.size = 0 := h.size
  rw [hn] at hwait
  obtain rfl : eof = true := by
    obtain _ | _ := eof
    · exact absurd ⟨hsize, rfl⟩ hne
    · rfl
  exact absurd hwait (by decide)

theorem read_eof (h : r.read len eof = some (none, r')) : r' = r := by
  rw [Readq.read] at h
  split at h
  · cases h
  · cases h
    rfl
  · split at h <;> cases h

theorem get_eof (h : r.get eof = some (none, r')) : r' = r := by
  rw [Readq.get] at h
  split at h
  · cases h
  · cases h
    rfl
  · split at h <;> cases h

theorem Represents.front (h : r.Represents (buf :: slices)) :
    r.bufs[r.b]? = some buf ∧ r.nbufs = slices.length + 1 ∧
      CircularArray.contents r.bufs ((r.b + 1) % r.bufs.length) slices.length = slices := by
  have hlt := h.nbufs_lt
  have hn : r.nbufs = slices.length + 1 := h.nbufs
  have hcontents := h.contents
  rw [hn, CircularArray.contents_eq_cons (getElem?_eq_getElem h.b_lt) (by omega)] at hcontents
  obtain ⟨hbuf, htail⟩ := cons_eq_cons.mp hcontents
  exact ⟨by rw [getElem?_eq_getElem h.b_lt, hbuf], hn, htail⟩

theorem Represents.tail (h : r.Represents (buf :: slices)) :
    { r with b := (r.b + 1) % r.bufs.length, size := r.size - buf.length,
             nbufs := r.nbufs - 1 : Readq }.Represents slices := by
  obtain ⟨-, hn, htail⟩ := h.front
  have hlt := h.nbufs_lt
  refine ⟨?_, ?_, ?_, ?_, ?_, ?_⟩
  · change r.nbufs - 1 = slices.length
    omega
  · rw [h.size, byteCount_cons, Nat.add_sub_cancel_left]
  · rw [hn, Nat.add_sub_cancel, htail]
  · exact Nat.mod_lt _ (by omega)
  · change r.nbufs - 1 < r.bufs.length
    omega
  · change r.e = ((r.b + 1) % r.bufs.length + (r.nbufs - 1)) % r.bufs.length
    rw [h.e_eq, Nat.mod_add_mod, hn]
    congr 1
    omega

theorem Represents.consume (h : r.Represents (buf :: slices)) (hn : n ≤ buf.length) :
    { r with bufs := r.bufs.set r.b (buf.drop n), size := r.size - n : Readq }.Represents
      (buf.drop n :: slices) := by
  obtain ⟨-, hnbufs, htail⟩ := h.front
  have hlt := h.nbufs_lt
  have hlen : (r.bufs.set r.b (buf.drop n)).length = r.bufs.length := length_set
  refine ⟨h.nbufs, ?_, ?_, h.b_lt.trans_eq hlen.symm, hlt.trans_eq hlen.symm, ?_⟩
  · change r.size - n = byteCount (buf.drop n :: slices)
    rw [h.size, byteCount_cons, byteCount_cons, length_drop]
    omega
  · rw [hnbufs, contents_set_front h.b_lt (by omega), htail]
  · rw [hlen, h.e_eq]

/-- The slices that are left when a reader takes at most `len` bytes of the first one. -/
def consumeFront (len : ℕ) : List (List Byte) → List (List Byte)
  | [] => []
  | buf :: slices => if len < buf.length then buf.drop len :: slices else slices

/-- **`read` takes bytes from the front**, if it does not report `io.EOF`. -/
theorem Represents.read (h : r.Represents slices) (hread : r.read len eof = some (some out, r')) :
    r'.Represents (consumeFront len slices) ∧ r'.closed = r.closed ∧
      out ++ (consumeFront len slices).flatten = slices.flatten := by
  rw [Readq.read] at hread
  split at hread
  · cases hread
  · cases hread
  rename_i hwait
  obtain ⟨buf, slices, rfl⟩ := exists_cons_of_ne_nil (h.waitLocked hwait)
  rw [h.front.1] at hread
  cases hread
  rw [consumeFront]
  by_cases hlen : len < buf.length
  · have hdrop : 0 < (buf.drop (min len buf.length)).length := by
      rw [length_drop]
      omega
    rw [if_pos hlen, if_pos hdrop, Nat.min_eq_left hlen.le, flatten_cons, flatten_cons,
      ← append_assoc, take_append_drop]
    exact ⟨h.consume hlen.le, rfl, rfl⟩
  · have hdrop : ¬0 < (buf.drop (min len buf.length)).length := by
      rw [length_drop]
      omega
    rw [if_neg hlen, if_neg hdrop, Nat.min_eq_right (not_lt.mp hlen), take_length]
    exact ⟨h.tail, rfl, rfl⟩

/-- **`get` takes the first slice**, if it does not report `io.EOF`. -/
theorem Represents.get (h : r.Represents slices)
    (hget : r.get eof = some (some out, r')) :
    r'.Represents slices.tail ∧ r'.closed = r.closed ∧
    out ++ slices.tail.flatten = slices.flatten := by
  rw [Readq.get] at hget
  split at hget
  · cases hget
  · cases hget
  rename_i hwait
  obtain ⟨buf, slices, rfl⟩ := exists_cons_of_ne_nil (h.waitLocked hwait)
  rw [h.front.1] at hget
  cases hget
  exact ⟨h.tail, rfl, rfl⟩

end Readq

end Vanadium.Flow
