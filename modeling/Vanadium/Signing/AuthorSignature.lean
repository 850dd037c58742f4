import Vanadium.Foundations.FixedWidth

/-!
# What an author signs

The author of a `DataWithSignature` signs a hash of its items and of the hash of its blessings. An
item enters as a hash: `SumByteVectorWithLength` of its data, or the bytes of an `ItemHash` as they
are. The number of items and the length of the blessings hash are written before them, but not the
lengths of the items. So two values with the same signature hash have the same items exactly if
their item hashes have the same lengths; an `ItemHash` whose bytes are not a SHA-256 sum can take
bytes from the next one.

The hash function is a parameter. That it is free of collisions is assumed only for the two byte
strings that are compared.
-/

namespace Vanadium.Signing

open Foundations.FixedWidth List

/-- A slice: its length fits an `int`. -/
abbrev Slice (α : Type) : Type := { l : List α // l.length < 2 ^ 63 }

def digestSlice (d : Digest) : Slice Byte := ⟨d.bytes, by rw [d.length_bytes]; decide⟩

/-- Data, or the hash of data that is not shown. Data that is corrupted is neither. -/
inductive Item where
  | data (value : Slice Byte)
  | hash (value : Slice Byte)
  | corrupted

/-- The fields that the author signs. -/
structure DataWithSignature where
  data : Slice Item
  blessingsHash : Slice Byte

section Hashes

variable (sha256 : List Byte → Digest)

/-- What `hashByteVectorWithLength` writes. -/
def byteVectorWithLength (b : Slice Byte) : List Byte := le64 (lengthWord b.1) ++ b.1

def sumByteVectorWithLength (b : Slice Byte) : Digest := sha256 (byteVectorWithLength b)

/-- What is written for an item. -/
def Item.written : Item → List Byte
  | .data value => (sumByteVectorWithLength sha256 value).bytes
  | .hash value => value.1
  | .corrupted => "no data".toList.map fun c ↦ BitVec.ofNat 8 c.toNat

namespace DataWithSignature

variable (d e : DataWithSignature)

/-- The item hashes, in order. -/
def itemHashes : List (List Byte) := d.data.1.map (Item.written sha256)

/-- What is written to the hasher of `authorSignatureHash`. -/
def authorInput : List Byte :=
  le64 (lengthWord d.data.1) ++ (d.itemHashes sha256).flatten ++
    byteVectorWithLength d.blessingsHash

def authorSignatureHash : Digest := sha256 (d.authorInput sha256)

/-- The same number of items, the same item hash at every index, the same blessings hash. -/
structure SameSigned : Prop where
  length_eq : d.data.1.length = e.data.1.length
  itemHash_eq : ∀ i : ℕ,
    (d.data.1[i]?).map (Item.written sha256) = (e.data.1[i]?).map (Item.written sha256)
  blessingsHash_eq : d.blessingsHash = e.blessingsHash

/-- The item hashes have the same lengths. -/
def SameLengths : Prop :=
  (d.itemHashes sha256).map List.length = (e.itemHashes sha256).map List.length

/-- Some items are replaced by their hashes. -/
def hide (hidden : ℕ → Bool) : DataWithSignature where
  data := ⟨d.data.1.mapIdx fun i item ↦
    match hidden i, item with
    | true, .data value => .hash (digestSlice (sumByteVectorWithLength sha256 value))
    | _, item => item, by rw [List.length_mapIdx]; exact d.data.2⟩
  blessingsHash := d.blessingsHash

end DataWithSignature

end Hashes

/-! ## Taking apart what is written -/

variable {sha256 : List Byte → Digest} {d e : DataWithSignature}

theorem byteVectorWithLength_append_inj {b b' : Slice Byte} {rest rest' : List Byte}
    (h : byteVectorWithLength b ++ rest = byteVectorWithLength b' ++ rest') :
    b = b' ∧ rest = rest' := by
  rw [byteVectorWithLength, byteVectorWithLength, append_assoc, append_assoc] at h
  obtain ⟨hlength, hbytes⟩ := append_inj h (by simp)
  have hlength' := lengthWord_inj b.2 b'.2 (le64_injective hlength)
  obtain ⟨hb, hrest⟩ := append_inj hbytes hlength'
  exact ⟨Subtype.ext hb, hrest⟩

open DataWithSignature

theorem length_eq_of_authorInput_eq (h : d.authorInput sha256 = e.authorInput sha256) :
    d.data.1.length = e.data.1.length := by
  rw [authorInput, authorInput, append_assoc, append_assoc] at h
  obtain ⟨hlength, -⟩ := append_inj h (by simp)
  exact lengthWord_inj d.data.2 e.data.2 (le64_injective hlength)

theorem itemHashes_eq_of_authorInput_eq (hlengths : d.SameLengths sha256 e)
    (h : d.authorInput sha256 = e.authorInput sha256) :
    d.itemHashes sha256 = e.itemHashes sha256 ∧ d.blessingsHash = e.blessingsHash := by
  rw [authorInput, authorInput, append_assoc, append_assoc] at h
  obtain ⟨-, hrest⟩ := append_inj h (by simp)
  have hflatten : (d.itemHashes sha256).flatten.length = (e.itemHashes sha256).flatten.length := by
    rw [length_flatten, length_flatten, hlengths]
  obtain ⟨hitems, hblessings⟩ := append_inj hrest hflatten
  refine ⟨eq_iff_flatten_eq.mpr ⟨hitems, hlengths⟩, ?_⟩
  rw [← append_nil (byteVectorWithLength d.blessingsHash),
    ← append_nil (byteVectorWithLength e.blessingsHash)] at hblessings
  exact (byteVectorWithLength_append_inj hblessings).1

theorem DataWithSignature.SameSigned.itemHashes_eq (h : d.SameSigned sha256 e) :
    d.itemHashes sha256 = e.itemHashes sha256 := by
  refine ext_getElem? fun i ↦ ?_
  rw [itemHashes, itemHashes, getElem?_map, getElem?_map]
  exact h.itemHash_eq i

theorem itemHashes_hide (hidden : ℕ → Bool) :
    (d.hide sha256 hidden).itemHashes sha256 = d.itemHashes sha256 := by
  rw [itemHashes, itemHashes, hide]
  refine ext_getElem? fun i ↦ ?_
  rw [getElem?_map, getElem?_map, getElem?_mapIdx, Option.map_map]
  congr 1
  funext item
  dsimp only [Function.comp]
  split
  · rfl
  · rfl

theorem authorSignatureHash_hide (hidden : ℕ → Bool) :
    (d.hide sha256 hidden).authorSignatureHash sha256 = d.authorSignatureHash sha256 := by
  have hlength : lengthWord (d.hide sha256 hidden).data.1 = lengthWord d.data.1 := by
    rw [lengthWord, lengthWord, hide, length_mapIdx]
  rw [authorSignatureHash, authorSignatureHash, authorInput, authorInput, itemHashes_hide, hlength]
  rfl

/-! ## What is bound -/

/-- **What an author signature binds.** Items may be replaced by their hashes. Two values with one
signature hash have the same items, at the same positions, and the same blessings hash exactly when
their item hashes have the same lengths. -/
theorem author_signature_binds_iff
    (hfree : sha256 (d.authorInput sha256) = sha256 (e.authorInput sha256) →
      d.authorInput sha256 = e.authorInput sha256) :
    (∀ hidden, (d.hide sha256 hidden).authorSignatureHash sha256 = d.authorSignatureHash sha256) ∧
      (d.authorSignatureHash sha256 = e.authorSignatureHash sha256 →
        (d.SameSigned sha256 e ↔ d.SameLengths sha256 e)) := by
  refine ⟨authorSignatureHash_hide, fun hhash ↦ ⟨fun hsame ↦ ?_, fun hlengths ↦ ?_⟩⟩
  · rw [DataWithSignature.SameLengths, hsame.itemHashes_eq]
  · have hinput := hfree hhash
    obtain ⟨hitems, hblessings⟩ := itemHashes_eq_of_authorInput_eq hlengths hinput
    refine ⟨length_eq_of_authorInput_eq hinput, fun i ↦ ?_, hblessings⟩
    have := congrArg (fun l ↦ l[i]?) hitems
    simpa only [itemHashes, List.getElem?_map] using this

/-- Every hash of an item is as long as a SHA-256 sum. -/
def DataWithSignature.ProperHashes (d : DataWithSignature) : Prop :=
  ∀ item ∈ d.data.1, match item with
    | .data _ => True
    | .hash value => value.1.length = 32
    | .corrupted => False

theorem lengths_of_properHashes (h : d.ProperHashes) :
    (d.itemHashes sha256).map List.length = List.replicate d.data.1.length 32 := by
  rw [itemHashes, map_map, eq_replicate_iff, length_map]
  refine ⟨rfl, forall_mem_map.mpr fun item hitem ↦ ?_⟩
  have hproper := h item hitem
  cases item with
  | data value => exact Digest.length_bytes _
  | hash value => exact hproper
  | corrupted => exact hproper.elim

/-- Lists of data and of SHA-256 sums, equally long, have item hashes of the same lengths. -/
theorem sameLengths_of_properHashes (hd : d.ProperHashes) (he : e.ProperHashes)
    (hlength : d.data.1.length = e.data.1.length) : d.SameLengths sha256 e := by
  rw [DataWithSignature.SameLengths, lengths_of_properHashes hd,
    lengths_of_properHashes he, hlength]

/-- Two pieces of data. -/
def twoData : DataWithSignature :=
  ⟨⟨[.data ⟨[1], by decide⟩, .data ⟨[2, 3], by decide⟩], show 2 < 2 ^ 63 by decide⟩,
    ⟨[7], by decide⟩⟩

/-- A stand-in for the hash: the first 32 bytes. -/
def firstBytes (l : List Byte) : Digest := ⟨(l ++ replicate 32 0).take 32, by simp⟩

/-- The first item is shown as a hash in one value and as data in the other; they have one signature
hash, and the theorem gives that they agree in both items. -/
theorem shown_and_hidden_agree :
    (twoData.hide firstBytes (· == 0)).data ≠ twoData.data ∧
      (twoData.hide firstBytes (· == 0)).SameSigned firstBytes twoData := by
  have hinput : (twoData.hide firstBytes (· == 0)).authorInput firstBytes
      = twoData.authorInput firstBytes := by decide +kernel
  refine ⟨fun h ↦ (by cases congrArg Subtype.val h), ?_⟩
  refine ((author_signature_binds_iff fun _ ↦ hinput).2 (congrArg firstBytes hinput)).mpr ?_
  have hdata : twoData.ProperHashes := forall_mem_cons.mpr ⟨trivial,
    forall_mem_singleton.mpr trivial⟩
  have hhidden : (twoData.hide firstBytes (· == 0)).ProperHashes :=
    forall_mem_cons.mpr ⟨rfl, forall_mem_singleton.mpr trivial⟩
  exact sameLengths_of_properHashes hhidden hdata rfl

/-- Two hashes. -/
def twoHashes (h h' : Slice Byte) : DataWithSignature :=
  ⟨⟨[.hash h, .hash h'], show 2 < 2 ^ 63 by decide⟩, ⟨[], by decide⟩⟩

/-- The same bytes are cut at another place, whatever the hash function is. -/
theorem author_signature_shifts :
    (twoHashes ⟨[1, 2], by decide⟩ ⟨[], by decide⟩).data ≠
        (twoHashes ⟨[1], by decide⟩ ⟨[2], by decide⟩).data ∧
      ∀ sha256 : List Byte → Digest,
        (twoHashes ⟨[1, 2], by decide⟩ ⟨[], by decide⟩).authorSignatureHash sha256 =
            (twoHashes ⟨[1], by decide⟩ ⟨[2], by decide⟩).authorSignatureHash sha256 ∧
          ¬(twoHashes ⟨[1, 2], by decide⟩ ⟨[], by decide⟩).SameSigned sha256
            (twoHashes ⟨[1], by decide⟩ ⟨[2], by decide⟩) :=
  ⟨fun h ↦ (nomatch congrArg Subtype.val h), fun _ ↦ ⟨rfl, fun h ↦ nomatch h.itemHash_eq 0⟩⟩

end Vanadium.Signing
