import Mathlib

/-!
# Encodings of fixed width

Bytes that are written one after the other can be told apart again if it is known how many bytes
each part has. This file has the words of eight bytes that `binary.LittleEndian` writes, and the
rules for taking concatenations apart.
-/

namespace Vanadium.Foundations.FixedWidth

open List

abbrev Byte : Type := BitVec 8

/-- The bytes of a word, the lowest first. -/
def le64 (w : BitVec 64) : List Byte := (List.range 8).map fun i ↦ w.extractLsb' (8 * i) 8

@[simp] theorem length_le64 (w : BitVec 64) : (le64 w).length = 8 := by
  rw [le64, length_map, length_range]

theorem le64_injective : Function.Injective le64 := by
  intro v w h
  refine BitVec.eq_of_getLsbD_eq fun i hi ↦ ?_
  -- bit `i` is bit `i % 8` of byte `i / 8`
  have hbyte : v.extractLsb' (8 * (i / 8)) 8 = w.extractLsb' (8 * (i / 8)) 8 :=
    map_inj_left.mp h (i / 8) (mem_range.mpr (by omega))
  have hbit := congrArg (fun b ↦ b.getLsbD (i % 8)) hbyte
  simp only [BitVec.getLsbD_extractLsb'] at hbit
  rw [Nat.div_add_mod, decide_eq_true (Nat.mod_lt i (by decide)), Bool.true_and,
    Bool.true_and] at hbit
  exact hbit

/-- A SHA-256 sum. -/
@[ext]
structure Digest where
  bytes : List Byte
  length_bytes : bytes.length = 32
deriving DecidableEq

/-- The number of elements of a slice, as an unsigned word. -/
def lengthWord {α : Type} (l : List α) : BitVec 64 := BitVec.ofNat 64 l.length

theorem lengthWord_inj {α β : Type} {l : List α} {l' : List β} (hl : l.length < 2 ^ 63)
    (hl' : l'.length < 2 ^ 63) (h : lengthWord l = lengthWord l') : l.length = l'.length := by
  have := congrArg BitVec.toNat h
  rw [lengthWord, lengthWord, BitVec.toNat_ofNat, BitVec.toNat_ofNat, Nat.mod_eq_of_lt (by omega),
    Nat.mod_eq_of_lt (by omega)] at this
  exact this

/-- Digests, one after the other. -/
theorem flatMap_bytes_inj {ds ds' : List Digest}
    (h : ds.flatMap Digest.bytes = ds'.flatMap Digest.bytes) : ds = ds' := by
  have hlength : ds.length = ds'.length := by
    have := congrArg length h
    simp only [length_flatMap, Digest.length_bytes, map_const', sum_replicate_nat] at this
    omega
  have hmap : ds.map Digest.bytes = ds'.map Digest.bytes := by
    refine eq_iff_flatten_eq.mpr (And.symm ⟨?_, ?_⟩)
    · simp only [map_map, Function.comp_def, Digest.length_bytes, map_const', hlength]
    · rwa [← flatMap_def, ← flatMap_def]
  exact map_injective_iff.mpr (fun _ _ ↦ Digest.ext) hmap

end Vanadium.Foundations.FixedWidth
