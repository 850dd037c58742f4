import Vanadium.Foundations.Table
import Vanadium.Foundations.XorLinear

/-!
# CRCs over a rolling window

`crc64window.go`: the CRC-64 of the last bytes that were pushed, updated with two table lookups for
each byte. The state of a window is the remainder of its bytes without conditioning. The byte that
leaves the window is taken out with the table `crcTableRear`, and what the conditioning adds is the
same for all windows of one size.

The value that `Advance` returns is compared with `crc64`, which computes the same CRC from the
bytes of the window alone, the way `hash/crc64` does.
-/

namespace Vanadium.Crc64Window

open Foundations List

abbrev Byte : Type := BitVec 8

abbrev Word : Type := BitVec 64

/-! ## The CRC of `hash/crc64` -/

/-- Multiply by `x`: the loop body that fills a CRC table, `(crc >> 1) ^ zeroOrPoly[crc & 1]`. -/
def bitStep (poly crc : Word) : Word := (crc >>> 1) ^^^ if crc.getLsbD 0 then poly else 0

/-- `crc64.MakeTable`. -/
def makeTable (poly : Word) : List Word :=
  (List.range 256).map fun i ↦ (bitStep poly)^[8] (BitVec.ofNat 64 i)

/-- The loop body of `crc64.Update`. -/
def updateByte (tab : List Word) (crc : Word) (v : Byte) : Word :=
  entry tab (crc.setWidth 8 ^^^ v) ^^^ (crc >>> 8)

/-- `crc64.Update(0, crc64.MakeTable(poly), p)`. -/
def crc64 (poly : Word) (p : List Byte) : Word := ~~~(p.foldl (updateByte (makeTable poly)) (~~~0))

/-! ## Tables -/

structure CrcData where
  conditioning : Word
  crcTableFront : List Word
  crcTableRear : List Word

/-- Take in a zero byte: `crcTableFront[byte(crc)] ^ (crc >> 8)`. -/
def shiftByte (front : List Word) (crc : Word) : Word :=
  entry front (crc.setWidth 8) ^^^ (crc >>> 8)

/-- The loop that fills `crcTableFront`. -/
def front (poly : Word) : List Word :=
  doubling (fun i ↦ (bitStep poly)^[8] (BitVec.ofNat 64 i)) 8

/-- The loop that fills `crcTableRear`. -/
def rear (front : List Word) (size : ℕ) : List Word :=
  doubling (fun i ↦ (shiftByte front)^[size - 1] (front.getD i 0)) 8

/-- The tables for one polynomial and window size. -/
def computeCRCData (poly : Word) (size : ℕ) : CrcData where
  conditioning := (shiftByte (front poly))^[size] (~~~0)
  crcTableFront := front poly
  crcTableRear := rear (front poly) size

/-- The global `tables`, by polynomial and window size. -/
abbrev Tables : Type := Table (Word × ℕ) CrcData

/-- `getCRCData`: the tables for a polynomial and a window size, from the cache if they are
there. -/
def getCRCData (tables : Tables) (poly : Word) (size : ℕ) : CrcData × Tables :=
  match AList.lookup (poly, size) tables with
  | some c => (c, tables)
  | none => (computeCRCData poly size, AList.insert (poly, size) (computeCRCData poly size) tables)

/-! ## Windows -/

structure Window where
  crc : Word
  window : List Byte
  pos : ℕ
  crcData : CrcData

/-- `New`, which panics for a size of zero. -/
def new (tables : Tables) (poly : Word) (size : ℕ) : Option (Window × Tables) :=
  if size = 0 then none
  else
    let (c, tables) := getCRCData tables poly size
    some (⟨0, List.replicate size 0, 0, c⟩, tables)

namespace Window

def advance (w : Window) (b : Byte) : Word × Window :=
  let c := w.crcData
  let crc := w.crc ^^^ entry c.crcTableRear (w.window.getD w.pos 0)
  let crc := entry c.crcTableFront (crc.setWidth 8 ^^^ b) ^^^ (crc >>> 8)
  (~~~(c.conditioning ^^^ crc),
    { w with
      crc := crc
      window := w.window.set w.pos b
      pos := if w.pos + 1 = w.window.length then 0 else w.pos + 1 })

/-- Push some bytes. -/
def push (w : Window) (bs : List Byte) : Window := bs.foldl (fun w b ↦ (w.advance b).2) w

/-- The bytes of the window, oldest first. -/
def bytes (w : Window) : List Byte := w.window.drop w.pos ++ w.window.take w.pos

end Window

/-! ## The tables hold what they should -/

/-- The CRC of one byte. -/
def byteCrc (poly : Word) (b : Byte) : Word := (bitStep poly)^[8] (b.setWidth 64)

theorem xorLinear_byteCrc (poly : Word) : XorLinear (byteCrc poly) :=
  (((XorLinear.ushiftRight 1).xor (XorLinear.select 0 poly)).iterate 8).comp (XorLinear.setWidth 64)

theorem setWidth_ofNat_byte {i : ℕ} (hi : i < 256) :
    (BitVec.ofNat 8 i).setWidth 64 = BitVec.ofNat 64 i := by
  apply BitVec.eq_of_toNat_eq
  rw [BitVec.toNat_setWidth, BitVec.toNat_ofNat, BitVec.toNat_ofNat, Nat.mod_eq_of_lt hi]

theorem entry_front (poly : Word) (b : Byte) : entry (front poly) b = byteCrc poly b := by
  apply entry_doubling (xorLinear_byteCrc poly)
  intro k hk
  rw [byteCrc, setWidth_ofNat_byte (Nat.pow_lt_pow_right (by decide) hk)]

theorem entry_makeTable (poly : Word) (b : Byte) : entry (makeTable poly) b = byteCrc poly b := by
  rw [entry, makeTable, getD_eq_getElem?_getD, getElem?_map,
    getElem?_range b.isLt, Option.map_some, Option.getD_some, byteCrc,
    ← setWidth_ofNat_byte b.isLt, BitVec.ofNat_toNat, BitVec.setWidth_eq]

/-- Take in a zero byte. -/
def zeroByte (poly crc : Word) : Word := byteCrc poly (crc.setWidth 8) ^^^ (crc >>> 8)

theorem xorLinear_zeroByte (poly : Word) : XorLinear (zeroByte poly) :=
  ((xorLinear_byteCrc poly).comp (XorLinear.setWidth 8)).xor (XorLinear.ushiftRight 8)

theorem shiftByte_front (poly : Word) : shiftByte (front poly) = zeroByte poly := by
  funext crc
  rw [shiftByte, entry_front, zeroByte]

theorem entry_rear (poly : Word) (size : ℕ) (b : Byte) :
    entry (rear (front poly) size) b = (zeroByte poly)^[size - 1] (byteCrc poly b) := by
  apply entry_doubling (((xorLinear_zeroByte poly).iterate (size - 1)).comp
    (xorLinear_byteCrc poly))
  intro k hk
  have hlt : 2 ^ k < 2 ^ 8 := Nat.pow_lt_pow_right (by decide) hk
  have hentry : (front poly).getD (2 ^ k) 0 = byteCrc poly (BitVec.ofNat 8 (2 ^ k)) := by
    rw [← entry_front, entry, BitVec.toNat_ofNat, Nat.mod_eq_of_lt hlt]
  rw [shiftByte_front, hentry]
  rfl

theorem feedback_eq_lookup {t : List Word} {poly : Word} (ht : ∀ b, entry t b = byteCrc poly b)
    (crc : Word) (b : Byte) :
    entry t (crc.setWidth 8 ^^^ b) ^^^ (crc >>> 8) =
      feedback (zeroByte poly) (byteCrc poly) crc b := by
  rw [ht, (xorLinear_byteCrc poly) (crc.setWidth 8) b, feedback, zeroByte]
  ac_rfl

/-- The remainder of a byte string, without conditioning. -/
def remainder (poly : Word) (bs : List Byte) : Word :=
  bs.foldl (feedback (zeroByte poly) (byteCrc poly)) 0

theorem crc64_eq (poly : Word) (p : List Byte) :
    crc64 poly p = ~~~((zeroByte poly)^[p.length] (~~~0) ^^^ remainder poly p) := by
  have hstep : updateByte (makeTable poly) = feedback (zeroByte poly) (byteCrc poly) := by
    funext crc b
    rw [updateByte, feedback_eq_lookup (entry_makeTable poly)]
  rw [crc64, hstep, foldl_feedback (xorLinear_zeroByte poly), remainder]

/-! ## The invariant of a window -/

namespace Window

variable {w : Window} {poly : Word} {size : ℕ}

/-- What a window is: the remainder is that of its bytes. -/
structure Valid (poly : Word) (size : ℕ) (w : Window) : Prop where
  crcData : w.crcData = computeCRCData poly size
  length : w.window.length = size
  pos : w.pos < size
  crc : w.crc = remainder poly w.bytes

/-- The ring buffer drops its oldest byte and takes in the new one. -/
theorem bytes_advance (hpos : w.pos < w.window.length) (b : Byte) :
    (w.advance b).2.bytes = w.bytes.tail ++ [b] := by
  have hbytes : w.bytes.tail = w.window.drop (w.pos + 1) ++ w.window.take w.pos := by
    rw [bytes, drop_eq_getElem_cons hpos]
    rfl
  rw [hbytes, bytes]
  change (w.window.set w.pos b).drop (if w.pos + 1 = w.window.length then 0 else w.pos + 1) ++
    (w.window.set w.pos b).take (if w.pos + 1 = w.window.length then 0 else w.pos + 1) = _
  have hset : w.window.set w.pos b = w.window.take w.pos ++ b :: w.window.drop (w.pos + 1) :=
    set_eq_take_cons_drop b hpos
  have hlen : (w.window.take w.pos ++ [b]).length = w.pos + 1 := by
    rw [length_append, length_take_of_le hpos.le]
    rfl
  have hsplit : w.window.set w.pos b = (w.window.take w.pos ++ [b]) ++ w.window.drop
    (w.pos + 1) := by
    rw [hset, append_assoc]
    rfl
  split
  · next hend =>
    rw [drop_zero, take_zero, append_nil, hsplit, hend, drop_length, append_nil, nil_append]
  · rw [hsplit, ← hlen, drop_left, take_left, hlen, append_assoc]

theorem length_bytes (hpos : w.pos < w.window.length) : w.bytes.length = w.window.length := by
  rw [bytes, length_append, length_drop, length_take_of_le hpos.le]
  omega

/-- **`Advance` keeps the remainder of the window** and returns its CRC. -/
theorem Valid.advance (h : w.Valid poly size) (b : Byte) :
    (w.advance b).2.Valid poly size ∧
      (w.advance b).2.bytes = w.bytes.tail ++ [b] ∧
      (w.advance b).1 = crc64 poly (w.bytes.tail ++ [b]) := by
  have hpos : w.pos < w.window.length := h.length ▸ h.pos
  have hnext := bytes_advance hpos b
  have hlen := length_bytes hpos
  obtain ⟨a, bs, hbytes⟩ : ∃ a bs, w.bytes = a :: bs := exists_cons_of_length_pos (by omega)
  have hold : w.window.getD w.pos 0 = a := by
    rw [bytes, drop_eq_getElem_cons hpos, cons_append] at hbytes
    rw [getD_eq_getElem _ _ hpos]
    exact (cons.inj hbytes).1
  have hsize : size - 1 = bs.length := by
    rw [hbytes, length_cons, h.length] at hlen
    omega
  have hcrc : (w.advance b).2.crc = remainder poly (bs ++ [b]) := by
    have hfront : ∀ b, entry w.crcData.crcTableFront b = byteCrc poly b := by
      rw [h.crcData]
      exact entry_front poly
    have hrear : entry w.crcData.crcTableRear a = (zeroByte poly)^[bs.length] (byteCrc poly a) := by
      rw [h.crcData, ← hsize]
      exact entry_rear poly size a
    change entry w.crcData.crcTableFront
      ((w.crc ^^^ entry w.crcData.crcTableRear (w.window.getD w.pos 0)).setWidth 8 ^^^ b) ^^^
        ((w.crc ^^^ entry w.crcData.crcTableRear (w.window.getD w.pos 0)) >>> 8) = _
    rw [feedback_eq_lookup hfront, hold, hrear, h.crc, hbytes, remainder,
      feedback_roll (xorLinear_zeroByte poly), remainder]
  rw [hbytes, tail_cons] at hnext ⊢
  refine ⟨⟨h.crcData, ?_, ?_, by rw [hcrc, hnext]⟩, hnext, ?_⟩
  · exact (length_set).trans h.length
  · change (if w.pos + 1 = w.window.length then 0 else w.pos + 1) < size
    have hlt := h.pos
    rw [h.length]
    split <;> omega
  · have hlast : (bs ++ [b]).length = size := by
      rw [length_append, length_singleton, ← hsize]
      have hlt := h.pos
      omega
    change ~~~(w.crcData.conditioning ^^^ (w.advance b).2.crc) = _
    rw [hcrc, crc64_eq, hlast, h.crcData, computeCRCData, shiftByte_front]

end Window

/-! ## Every window from `New` -/

/-- The cache holds what would be computed. -/
def Tables.Valid (tables : Tables) : Prop :=
  ∀ poly size c, AList.lookup (poly, size) tables = some c → c = computeCRCData poly size

variable {tables : Tables}

theorem Tables.Valid.getCRCData (h : tables.Valid) (poly : Word) (size : ℕ) :
    (getCRCData tables poly size).1 = computeCRCData poly size ∧
      Tables.Valid (getCRCData tables poly size).2 := by
  rw [Crc64Window.getCRCData]
  rcases hc : tables.lookup (poly, size) with _ | c
  · refine ⟨rfl, fun poly' size' c hc' ↦ ?_⟩
    rw [Table.lookup_insert_eq_ite] at hc'
    split at hc'
    · next heq =>
      obtain ⟨rfl, rfl⟩ := Prod.mk.inj heq
      exact (Option.some.inj hc').symm
    · exact h poly' size' c hc'
  · exact ⟨h poly size c hc, h⟩

/-- The cache after some calls of `New`. -/
def tablesAfter (calls : List (Word × ℕ)) : Tables :=
  calls.foldl (fun tables c ↦ ((new tables c.1 c.2).map Prod.snd).getD tables) ∅

variable (calls : List (Word × ℕ)) {pushed : List Byte}

theorem valid_tablesAfter : (tablesAfter calls).Valid := by
  have hstep : ∀ (calls : List (Word × ℕ)) (tables : Tables), tables.Valid →
      Tables.Valid (calls.foldl (fun tables c ↦ ((new tables c.1 c.2).map Prod.snd).getD tables)
        tables) := by
    intro calls
    induction calls with
    | nil => exact fun _ h ↦ h
    | cons c calls ih =>
      intro tables h
      apply ih
      change Tables.Valid (((new tables c.1 c.2).map Prod.snd).getD tables)
      unfold new
      split
      · exact h
      · exact (h.getCRCData c.1 c.2).2
  exact hstep calls ∅ fun _ _ _ hc ↦ nomatch hc

theorem valid_new (h : tables.Valid) {poly : Word} {size : ℕ} (hsize : 0 < size) :
    ∃ w tables', new tables poly size = some (w, tables') ∧ w.Valid poly size ∧
      w.bytes = replicate size 0 := by
  -- the remainder of a string of zeros is zero
  have hzero : ∀ n, remainder poly (replicate n 0) = 0 := by
    intro n
    induction n with
    | zero => rfl
    | succ n ih =>
      rw [replicate_succ, remainder, foldl_cons, feedback_zero (xorLinear_zeroByte poly),
        (xorLinear_byteCrc poly).zero]
      exact ih
  have hbytes : ∀ c, (⟨0, replicate size 0, 0, c⟩ : Window).bytes = replicate size 0 :=
    fun _ ↦ append_nil _
  refine ⟨_, _, if_neg hsize.ne', ⟨(h.getCRCData poly size).1, length_replicate, hsize, ?_⟩,
    hbytes _⟩
  rw [hbytes, hzero]

/-- The last bytes of what was pushed into a new window, where the bytes before the first are
zero. -/
def lastBytes (size : ℕ) (pushed : List Byte) : List Byte :=
  (List.replicate size 0 ++ pushed).rtake size

theorem lastBytes_concat {size : ℕ} (hsize : 0 < size) (pushed : List Byte) (b : Byte) :
    lastBytes size (pushed ++ [b]) = (lastBytes size pushed).tail ++ [b] := by
  have hlen : (replicate size (0 : Byte) ++ (pushed ++ [b])).length - size =
      (replicate size (0 : Byte) ++ pushed).length - size + 1 := by
    simp only [length_append, length_replicate, length_singleton]
    omega
  have hle : (replicate size (0 : Byte) ++ pushed).length - size + 1 ≤
      (replicate size (0 : Byte) ++ pushed).length := by
    rw [length_append, length_replicate]
    omega
  rw [lastBytes, lastBytes, rtake, rtake, hlen, tail_drop, ← append_assoc,
    drop_append_of_le_length hle]

/-- A window into which the given bytes were pushed since it was made. -/
structure Window.Holds (poly : Word) (size : ℕ) (pushed : List Byte) (w : Window) : Prop where
  valid : w.Valid poly size
  bytes : w.bytes = lastBytes size pushed

/-- **`Advance` returns the CRC of the last bytes that were pushed.** -/
theorem Window.Holds.advance {w : Window} {poly : Word} {size : ℕ}
    (h : w.Holds poly size pushed) (b : Byte) :
    (w.advance b).2.Holds poly size (pushed ++ [b]) ∧
      (w.advance b).1 = crc64 poly (lastBytes size (pushed ++ [b])) := by
  have hsize : 0 < size := by
    have hpos := h.valid.pos
    omega
  obtain ⟨hvalid, hbytes, hvalue⟩ := h.valid.advance b
  rw [h.bytes, ← lastBytes_concat hsize] at hbytes hvalue
  exact ⟨⟨hvalid, hbytes⟩, hvalue⟩

theorem Window.Holds.push {poly : Word} {size : ℕ} (bs : List Byte) {w : Window}
    (h : w.Holds poly size pushed) :
    (w.push bs).Holds poly size (pushed ++ bs) := by
  induction bs generalizing w pushed with
  | nil =>
    rw [append_nil]
    exact h
  | cons b bs ih =>
    have hrest := ih (h.advance b).1
    rw [append_assoc] at hrest
    exact hrest

theorem holds_new (poly : Word) {size : ℕ} (hsize : 0 < size) :
    ∃ w tables, new (tablesAfter calls) poly size = some (w, tables) ∧ w.Holds poly size [] := by
  obtain ⟨w, tables, hnew, hvalid, hbytes⟩ := valid_new (valid_tablesAfter calls) hsize
  refine ⟨w, tables, hnew, hvalid, ?_⟩
  rw [hbytes, lastBytes, append_nil, rtake, length_replicate, Nat.sub_self, drop_zero]

/-- **The rolling checksum equals the direct one.** Whatever windows were made before, and whatever
was pushed into a new window, `Advance` returns the CRC of the last `size` bytes, where the bytes
before the first are zero. -/
theorem advance_eq_crc64 (calls : List (Word × ℕ)) (poly : Word) {size : ℕ} (hsize : 0 < size)
    (bs : List Byte) (b : Byte) :
    ∃ w tables, new (tablesAfter calls) poly size = some (w, tables) ∧
      ((w.push bs).advance b).1 =
        crc64 poly ((List.replicate size 0 ++ bs ++ [b]).rtake size) := by
  obtain ⟨w, tables, hnew, hholds⟩ := holds_new calls poly hsize
  refine ⟨w, tables, hnew, ?_⟩
  rw [((hholds.push bs).advance b).2, lastBytes, List.nil_append, List.append_assoc]

/-- The example of the package documentation: with a window of three bytes, `0x17` is rolled out. -/
theorem advance_eq_crc64_ecma : ∃ w tables,
    new (tablesAfter [(0xc96c5795d7870f42, 3)]) 0xc96c5795d7870f42 3 = some (w, tables) ∧
      ((w.push [0x17, 0x92, 0x04]).advance 0x28).1 =
        crc64 0xc96c5795d7870f42 [0x92, 0x04, 0x28] :=
  advance_eq_crc64 [(0xc96c5795d7870f42, 3)] 0xc96c5795d7870f42 (by decide) [0x17, 0x92, 0x04] 0x28

end Vanadium.Crc64Window
