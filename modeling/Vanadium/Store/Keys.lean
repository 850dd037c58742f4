import Vanadium.Foundations.Bits
import Vanadium.Foundations.PrefixOrder

/-!
# Keys of the storage engine

Keys are byte strings, ordered as `bytes.Compare` orders them. A key is made of parts, joined by a
separator byte; its first part says what kind of entry it belongs to.

A range of keys is given by a start and a limit, and an empty limit stands for no limit
(`InRange`).
-/

namespace Vanadium.Store

open Foundations List

/-- A Go `[]byte` or `string`. -/
abbrev Bytes : Type := List (Fin 256)

/-! ## Key parts -/

/-- `KeyPartSep`, the byte `\xfe`. -/
def keyPartSep : Fin 256 := 254

/-- `LogPrefix`, the string `"l"`. -/
def logPrefix : Bytes := [108]

/-- `VersionPrefix`, the string `"v"`. -/
def versionPrefix : Bytes := [118]

def joinKeyParts (parts : List Bytes) : Bytes := [keyPartSep].intercalate parts

/-- `FirstKeyPart`: what stands before the first separator. -/
def firstKeyPart (key : Bytes) : Bytes := key.takeWhile (· ≠ keyPartSep)

/-- `StripFirstKeyPartOrDie`: what stands after the first separator. The process ends if there is
none. -/
def stripFirstKeyPartOrDie (key : Bytes) : Option Bytes :=
  match key.dropWhile (· ≠ keyPartSep) with
  | [] => none
  | _ :: rest => some rest

theorem joinKeyParts_pair (a b : Bytes) : joinKeyParts [a, b] = a ++ keyPartSep :: b := by
  simp [joinKeyParts, intercalate]

theorem joinKeyParts_eq_append (a b : Bytes) : joinKeyParts [a, b] = (a ++ [keyPartSep]) ++ b := by
  rw [joinKeyParts_pair, append_assoc, singleton_append]

theorem firstKeyPart_join (a b : Bytes) : firstKeyPart (joinKeyParts [a, b]) = firstKeyPart a := by
  rw [joinKeyParts_pair, firstKeyPart, firstKeyPart]
  induction a with
  | nil => simp
  | cons c a ih => rw [cons_append, takeWhile_cons, takeWhile_cons, ih]

theorem stripFirstKeyPartOrDie_join {a b : Bytes} (ha : keyPartSep ∉ a) :
    stripFirstKeyPartOrDie (joinKeyParts [a, b]) = some b := by
  have hdrop : (a ++ keyPartSep :: b).dropWhile (· ≠ keyPartSep) = keyPartSep :: b := by
    rw [dropWhile_append_of_pos]
    · simp
    · intro c hc
      have hne : c ≠ keyPartSep := fun h ↦ ha (h ▸ hc)
      simpa using hne
  rw [joinKeyParts_pair, stripFirstKeyPartOrDie, hdrop]

/-- The last separator of a key splits it into what was joined, if the last part has none. -/
theorem join_inj_of_notMem {a a' b b' : Bytes} (hb : keyPartSep ∉ b) (hb' : keyPartSep ∉ b')
    (h : joinKeyParts [a, b] = joinKeyParts [a', b']) : a = a' ∧ b = b' := by
  rw [joinKeyParts_pair, joinKeyParts_pair, append_eq_append_iff] at h
  rcases h with ⟨c, rfl, hc⟩ | ⟨c, rfl, hc⟩
  · rcases c with _ | ⟨x, c⟩
    · exact ⟨(append_nil a).symm, (cons.inj hc).2⟩
    · -- otherwise the separator in front of `b'` would lie inside `b`
      have hmem : keyPartSep ∈ b := by
        rw [cons_append] at hc
        rw [(cons.inj hc).2]
        simp
      exact absurd hmem hb
  · rcases c with _ | ⟨x, c⟩
    · exact ⟨append_nil a', (cons.inj hc).2.symm⟩
    · have hmem : keyPartSep ∈ b' := by
        rw [cons_append] at hc
        rw [(cons.inj hc).2]
        simp
      exact absurd hmem hb'

theorem join_right_inj {a b b' : Bytes} (h : joinKeyParts [a, b] = joinKeyParts [a, b']) :
    b = b' := by
  rw [joinKeyParts_pair, joinKeyParts_pair] at h
  exact (cons.inj (append_cancel_left h)).2

/-! ## Ranges -/

/-- The key lies in `[start, limit)`; an empty limit means no limit. -/
def InRange (start limit key : Bytes) : Prop := start ≤ key ∧ (limit = [] ∨ key < limit)

instance (start limit : Bytes) : DecidablePred (InRange start limit) := fun key ↦
  inferInstanceAs (Decidable (start ≤ key ∧ (limit = [] ∨ key < limit)))

/-- `PrefixRangeLimit` of the client library. The range of a prefix holds exactly the keys that have
the prefix. -/
class PrefixRange where
  prefixRangeLimit : Bytes → Bytes
  inRange_prefixRangeLimit : ∀ p k, InRange p (prefixRangeLimit p) k ↔ p <+: k

export PrefixRange (prefixRangeLimit inRange_prefixRangeLimit)

/-- Add one to the string as a number in base 256 and drop trailing zeros. -/
def nextPrefix : Bytes → Bytes
  | [] => []
  | b :: p =>
    match nextPrefix p with
    | [] => if b = 255 then [] else [b + 1]
    | c :: q => b :: c :: q

variable (a : Bytes) (n : ℕ)

theorem lt_iff_append_lt {b c : Bytes} : a ++ b < a ++ c ↔ b < c := by
  induction a with
  | nil => rfl
  | cons x a ih => rw [cons_append, cons_append, cons_lt_cons_iff, ih]; simp

theorem join_lt_join_iff {b c : Bytes} :
    joinKeyParts [a, b] < joinKeyParts [a, c] ↔ b < c := by
  rw [joinKeyParts_eq_append, joinKeyParts_eq_append, lt_iff_append_lt]

theorem join_le_join_iff {b c : Bytes} :
    joinKeyParts [a, b] ≤ joinKeyParts [a, c] ↔ b ≤ c := by
  rw [← not_lt, join_lt_join_iff, not_lt]

/-- A key between two keys with the same first part has that part as well. -/
theorem exists_join_of_le_of_le {a b c key : Bytes} (hb : joinKeyParts [a, b] ≤ key)
    (hc : key ≤ joinKeyParts [a, c]) : ∃ k, key = joinKeyParts [a, k] := by
  have hstart : a ++ [keyPartSep] ≤ joinKeyParts [a, b] := by
    rw [joinKeyParts_eq_append]
    exact prefix_le (prefix_append _ _)
  have hlimit : a ++ [keyPartSep] <+: joinKeyParts [a, c] := by
    rw [joinKeyParts_eq_append]
    exact prefix_append _ _
  obtain ⟨k, rfl⟩ := prefix_of_le_of_le hlimit (hstart.trans hb) hc
  exact ⟨k, (joinKeyParts_eq_append a k).symm⟩

theorem nil_le (k : Bytes) : [] ≤ k := prefix_le nil_prefix

theorem cons_le_iff {a b : Fin 256} {p q : Bytes} : a :: p ≤ b :: q ↔ a < b ∨ a = b ∧ p ≤ q := by
  rw [← not_lt, cons_lt_cons_iff, not_or, not_and, not_lt, not_lt]
  constructor
  · rintro ⟨hab, h⟩
    rcases hab.lt_or_eq with hlt | rfl
    · exact .inl hlt
    · exact .inr ⟨rfl, h rfl⟩
  · rintro (hlt | ⟨rfl, h⟩)
    · exact ⟨hlt.le, fun heq ↦ absurd heq hlt.ne'⟩
    · exact ⟨le_rfl, fun _ ↦ h⟩

theorem lt_singleton_succ_iff {b c : Fin 256} {k : Bytes} (hb : b ≠ 255) :
    c :: k < [b + 1] ↔ c ≤ b := by
  have hval : (b + 1).val = b.val + 1 := Fin.val_add_one_of_lt (Fin.lt_last_iff_ne_last.mpr hb)
  rw [cons_lt_cons_iff, Fin.lt_def, hval, Fin.le_def]
  have hnil : ¬k < [] := not_lt_nil k
  constructor
  · rintro (h | ⟨-, h⟩)
    · omega
    · exact absurd h hnil
  · intro h
    exact .inl (by omega)

theorem inRange_nextPrefix (p k : Bytes) : InRange p (nextPrefix p) k ↔ p <+: k := by
  induction p generalizing k with
  | nil => exact iff_of_true ⟨nil_le k, .inl rfl⟩ nil_prefix
  | cons b p ih =>
    rcases k with _ | ⟨c, k⟩
    · refine iff_of_false (fun h ↦ ?_) (fun h ↦ ?_)
      · exact absurd (nil_lt_cons b p) (not_lt.mpr h.1)
      · exact absurd (prefix_nil.mp h) (cons_ne_nil b p)
    · rw [cons_prefix_cons, ← ih, InRange, InRange, cons_le_iff, nextPrefix]
      rcases nextPrefix p with _ | ⟨d, q⟩
      · -- the rest has no limit, so the first byte decides
        by_cases hb : b = 255
        · have hc : ¬b < c := by rw [hb]; exact not_lt.mpr (Fin.le_last c)
          simp only [if_pos hb, true_or, and_true, hc, false_or]
        · simp only [if_neg hb, cons_ne_nil, false_or, true_or, and_true, lt_singleton_succ_iff hb]
          constructor
          · rintro ⟨hlt | h, hle⟩
            · exact absurd hlt (not_lt.mpr hle)
            · exact h
          · rintro ⟨rfl, h⟩
            exact ⟨Or.inr ⟨rfl, h⟩, le_rfl⟩
      · simp only [cons_ne_nil, false_or, cons_lt_cons_iff]
        constructor
        · rintro ⟨hlt | ⟨rfl, h⟩, hlt' | ⟨heq, h'⟩⟩
          · exact absurd hlt hlt'.not_gt
          · exact absurd heq hlt.ne'
          · exact absurd hlt' (lt_irrefl _)
          · exact ⟨rfl, h, h'⟩
        · rintro ⟨rfl, h, h'⟩
          exact ⟨Or.inr ⟨rfl, h⟩, .inr ⟨rfl, h'⟩⟩

/-- A limit for the keys with a prefix. -/
@[reducible] def PrefixRange.next : PrefixRange := ⟨nextPrefix, inRange_nextPrefix⟩

/-! ## Log keys -/

/-- The character of a hexadecimal digit. -/
def hexDigit (d : ℕ) : Fin 256 := Fin.ofNat 256 (if d < 10 then 48 + d else 87 + d)

/-- A number in hexadecimal, padded with zeros to the given width. -/
def fmtHex : ℕ → ℕ → Bytes
  | 0, _ => []
  | w + 1, n => hexDigit (n / 16 ^ w) :: fmtHex w (n % 16 ^ w)

/-- `logEntryKey`: the number is printed with `%016x`. -/
def logEntryKey (seq : ℕ) : Bytes := joinKeyParts [logPrefix, fmtHex 16 seq]

/-- The limit that `ScanPrefixArgs` returns for `LogPrefix` and an empty prefix. -/
def logLimit [PrefixRange] : Bytes := prefixRangeLimit (joinKeyParts [logPrefix, []])

theorem hexDigit_lt {d e : ℕ} (hde : d < e) (he : e < 16) : hexDigit d < hexDigit e := by
  have key : ∀ e < 16, ∀ d < e, hexDigit d < hexDigit e := by decide
  exact key e he d hde

/-- **Numbers of one width are ordered as their digits.** -/
theorem fmtHex_lt {w m n : ℕ} (hmn : m < n) (hn : n < 16 ^ w) : fmtHex w m < fmtHex w n := by
  induction w generalizing m n with
  | zero => omega
  | succ w ih =>
    have hpos : 0 < 16 ^ w := Nat.pow_pos (by decide)
    have hdigit : n / 16 ^ w < 16 := by
      rw [Nat.div_lt_iff_lt_mul hpos, ← Nat.pow_succ']
      exact hn
    rw [fmtHex, fmtHex, cons_lt_cons_iff]
    rcases (Nat.div_le_div_right (c := 16 ^ w) hmn.le).lt_or_eq with hlt | heq
    · exact .inl (hexDigit_lt hlt hdigit)
    · -- equal leading digits: the remainders decide
      refine .inr ⟨by rw [heq], ih ?_ (Nat.mod_lt n hpos)⟩
      have hm := Nat.div_add_mod m (16 ^ w)
      have hn' := Nat.div_add_mod n (16 ^ w)
      rw [heq] at hm
      omega

theorem logEntryKey_lt_iff {m n : ℕ} (hm : m < 16 ^ 16) (hn : n < 16 ^ 16) :
    logEntryKey m < logEntryKey n ↔ m < n := by
  rw [logEntryKey, logEntryKey, join_lt_join_iff]
  constructor
  · intro h
    by_contra hle
    rcases (not_lt.mp hle).lt_or_eq with hlt | rfl
    · exact absurd h (fmtHex_lt hlt hm).not_gt
    · exact absurd h (lt_irrefl _)
  · intro h
    exact fmtHex_lt h hn

theorem logEntryKey_inj {m n : ℕ} (hm : m < 16 ^ 16) (hn : n < 16 ^ 16)
    (h : logEntryKey m = logEntryKey n) : m = n := by
  rcases lt_trichotomy m n with hlt | heq | hgt
  · exact absurd h ((logEntryKey_lt_iff hm hn).mpr hlt).ne
  · exact heq
  · exact absurd h.symm ((logEntryKey_lt_iff hn hm).mpr hgt).ne

theorem logLimit_ne_nil [PrefixRange] : logLimit ≠ [] := by
  intro hnil
  have hpre := (inRange_prefixRangeLimit (joinKeyParts [logPrefix, []]) [109]).mp
    ⟨by decide, .inl hnil⟩
  exact absurd hpre (by decide)

theorem logEntryKey_lt_logLimit [PrefixRange] : logEntryKey n < logLimit := by
  have hmem : InRange (joinKeyParts [logPrefix, []]) logLimit (logEntryKey n) := by
    rw [logLimit, inRange_prefixRangeLimit, logEntryKey, joinKeyParts_eq_append,
      joinKeyParts_eq_append, append_nil]
    exact prefix_append _ _
  exact hmem.2.resolve_left logLimit_ne_nil

theorem firstKeyPart_logEntryKey : firstKeyPart (logEntryKey n) = logPrefix :=
  firstKeyPart_join _ _

end Vanadium.Store
