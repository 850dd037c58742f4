import Vanadium.Foundations.Bits

/-!
# Blob names and blob files

A blob is a text file below the directory `blob` that lists the fragments of the blob, a line each,
and ends with the line of its hash once it is finalized. Fragments are files below the directory
`cas` named after the hash of their contents. The scanning functions of the standard library are
modelled as far as `fileNameToHash`, `stringToHash` and `getBlob` use them. Strings are lists of
characters.
-/

namespace Vanadium.Blob

open List

abbrev Str : Type := List Char
abbrev Byte : Type := Fin 256

/-- A hash has 16 bytes. -/
structure Hash where
  bytes : List Byte
  length_eq : bytes.length = 16
deriving DecidableEq

def blobDir : Str := ['b', 'l', 'o', 'b']
def casDir : Str := ['c', 'a', 's']
def tmpDir : Str := ['t', 'm', 'p']

/-- The maximum number of bytes placed in a fragment. -/
def maxFragmentSize : ℤ := 1024 * 1024

/-! ## Printing hashes -/

/-- The verb `%02x` of a byte. -/
def hex2 (b : Byte) : Str := [(b.val / 16).digitChar, (b.val % 16).digitChar]

def hashToString (hash : Hash) : Str := hash.bytes.flatMap hex2

def hashToFileName (dir : Str) (hash : Hash) : Str :=
  ['/'].intercalate
    [dir, (hash.bytes.take 1).flatMap hex2, ((hash.bytes.drop 1).take 1).flatMap hex2,
      ((hash.bytes.drop 2).take 1).flatMap hex2, (hash.bytes.drop 3).flatMap hex2]

/-- A new name is made of 16 random bytes. -/
def newBlobName (random : Hash) : Str := hashToFileName blobDir random

/-! ## `Sscanf` with the verb `%02x` -/

def hexVal (c : Char) : Option ℕ :=
  if '0' ≤ c ∧ c ≤ '9' then some (c.toNat - 48)
  else if 'a' ≤ c ∧ c ≤ 'f' then some (c.toNat - 87)
  else if 'A' ≤ c ∧ c ≤ 'F' then some (c.toNat - 55)
  else none

/-- The white space of package `fmt`. -/
def isSpace (c : Char) : Bool :=
  let n := c.toNat
  (9 ≤ n && n ≤ 13) || n == 0x20 || n == 0x85 || n == 0xa0 || n == 0x1680 ||
    (0x2000 ≤ n && n ≤ 0x200a) || n == 0x2028 || n == 0x2029 || n == 0x202f || n == 0x205f ||
    n == 0x3000

/-- Spaces before a verb are skipped; a newline is an error. -/
def skipSpace : Str → Option Str
  | [] => some []
  | c :: s => if c = '\n' then none else if isSpace c then skipSpace s else some (c :: s)

/-- One verb `%02x`: at most two hexadecimal digits, and at least one. -/
def scanHex (s : Str) : Option (Byte × Str) :=
  match skipSpace s with
  | some (c :: s) =>
    match hexVal c, s with
    | none, _ => none
    | some d, [] => some (Fin.ofNat 256 d, [])
    | some d, c' :: s' =>
      match hexVal c' with
      | none => some (Fin.ofNat 256 d, c' :: s')
      | some e => some (Fin.ofNat 256 (d * 16 + e), s')
  | _ => none

inductive Directive where
  | hex
  | lit (c : Char)

/-- What follows the last directive in the input is not looked at. -/
def sscanf : List Directive → Str → Option (List Byte)
  | [], _ => some []
  | .hex :: ds, s => do
    let (b, s') ← scanHex s
    let bs ← sscanf ds s'
    some (b :: bs)
  | .lit _ :: _, [] => none
  | .lit c :: ds, x :: s => if x = c then sscanf ds s else none

/-- `Sscanf` into a hash. -/
def scanHash (ds : List Directive) (s : Str) : Option Hash :=
  match sscanf ds s with
  | none => none
  | some bs => if h : bs.length = 16 then some ⟨bs, h⟩ else none

def hashFormat : List Directive := List.replicate 16 .hex

def fileNameFormat : List Directive :=
  [.hex, .lit '/', .hex, .lit '/', .hex, .lit '/'] ++ List.replicate 13 .hex

def stringToHash (s : Str) : Option Hash := scanHash hashFormat s

def trimPrefix (p s : Str) : Str := if p.isPrefixOf s then s.drop p.length else s

def fileNameToHash (dir s : Str) : Option Hash :=
  scanHash fileNameFormat (trimPrefix (dir ++ ['/']) s)

variable {d : ℕ}

theorem hexVal_digitChar (h : d < 16) : hexVal d.digitChar = some d := by
  interval_cases d <;> rfl

variable {c : Char} (n : ℕ) {z : ℤ} (bs : List Byte)

theorem skipSpace_of_hexVal {s : Str} (h : hexVal c = some d) :
    skipSpace (c :: s) = some (c :: s) := by
  have hc : 48 ≤ c.toNat ∧ c.toNat ≤ 102 := by
    unfold hexVal at h
    change (if 48 ≤ c.toNat ∧ c.toNat ≤ 57 then _ else if 97 ≤ c.toNat ∧ c.toNat ≤ 102 then _ else
      if 65 ≤ c.toNat ∧ c.toNat ≤ 70 then _ else _) = _ at h
    split at h
    · omega
    · split at h
      · omega
      · split at h
        · omega
        · exact nomatch h
  have hnl : c ≠ '\n' := by
    rintro rfl
    exact absurd hc.1 (by decide)
  have hsp : isSpace c = false := by
    have := hc.1
    have := hc.2
    simp [isSpace]
    omega
  rw [skipSpace, if_neg hnl, hsp]
  rfl

theorem scanHex_hex2 (b : Byte) (s : Str) : scanHex (hex2 b ++ s) = some (b, s) := by
  have hd : b.val / 16 < 16 := by omega
  have he : b.val % 16 < 16 := by omega
  have hb : Fin.ofNat 256 (b.val / 16 * 16 + b.val % 16) = b := by
    apply Fin.ext
    rw [Fin.val_ofNat]
    omega
  unfold scanHex
  rw [hex2, cons_append, skipSpace_of_hexVal (hexVal_digitChar hd)]
  simp only [cons_append, nil_append, hexVal_digitChar hd, hexVal_digitChar he, hb]

theorem sscanf_flatMap_hex2 :
    sscanf (replicate bs.length .hex) (bs.flatMap hex2) = some bs := by
  induction bs with
  | nil => rfl
  | cons b bs ih =>
    rw [length_cons, replicate_succ, flatMap_cons, sscanf, scanHex_hex2]
    simp only [Option.bind_eq_bind, Option.bind_some, ih]

theorem stringToHash_hashToString (hash : Hash) : stringToHash (hashToString hash) = some hash := by
  have h := sscanf_flatMap_hex2 hash.bytes
  rw [hash.length_eq] at h
  rw [stringToHash, scanHash, hashFormat, hashToString, h]
  exact dif_pos hash.length_eq

/-! ## Numbers -/

/-- The verb `%d`. -/
def fmtInt (z : ℤ) : Str :=
  if z < 0 then '-' :: Nat.toDigits 10 z.natAbs else Nat.toDigits 10 z.natAbs

def digitVal (c : Char) : Option ℕ :=
  if '0' ≤ c ∧ c ≤ '9' then some (c.toNat - 48)
  else if 'a' ≤ c ∧ c ≤ 'z' then some (c.toNat - 87)
  else if 'A' ≤ c ∧ c ≤ 'Z' then some (c.toNat - 55)
  else none

def parseDigits (base : ℕ) : ℕ → Str → Option ℕ
  | n, [] => some n
  | n, c :: s =>
    match digitVal c with
    | none => none
    | some d => if d < base then parseDigits base (n * base + d) s else none

/-- The base is told from the first digits. `none` is a syntax error. -/
def parseUint : Str → Option ℕ
  | [] => none
  | '0' :: 'x' :: s => if s = [] then none else parseDigits 16 0 s
  | '0' :: 'X' :: s => if s = [] then none else parseDigits 16 0 s
  | '0' :: s => parseDigits 8 0 s
  | s => parseDigits 10 0 s

/-- `ParseInt` with base 0 and 64 bits: the number, and whether it could be parsed. A number that is
out of range is replaced by the nearest one. -/
def parseInt (s : Str) : ℤ × Bool :=
  let neg : Bool := s.head? = some '-'
  let digits := if s.head? = some '-' ∨ s.head? = some '+' then s.tail else s
  match parseUint digits with
  | none => (0, false)
  | some n =>
    if neg then if 2 ^ 63 < n then (-2 ^ 63, false) else (-n, true)
    else if 2 ^ 63 ≤ n then (2 ^ 63 - 1, false) else (n, true)

theorem digitVal_digitChar (h : d < 16) : digitVal d.digitChar = some d := by
  interval_cases d <;> rfl

theorem parseDigits_append (base n : ℕ) (s t : Str) :
    parseDigits base n (s ++ t) = (parseDigits base n s).bind fun m ↦ parseDigits base m t := by
  induction s generalizing n with
  | nil => rfl
  | cons c s ih =>
    rw [cons_append, parseDigits, parseDigits]
    cases digitVal c with
    | none => rfl
    | some d =>
      dsimp only
      split
      · exact ih _
      · rfl

theorem parseDigits_toDigits : parseDigits 10 0 (Nat.toDigits 10 n) = some n := by
  induction n using Nat.strong_induction_on with
  | _ n ih =>
    by_cases hn : n < 10
    · rw [Nat.toDigits_of_lt_base hn, parseDigits, digitVal_digitChar (by omega)]
      simp [hn, parseDigits]
    · have hmod : n % 10 < 10 := Nat.mod_lt _ (by decide)
      rw [Nat.toDigits_of_base_le (by decide) (by omega), parseDigits_append, ih _ (by omega),
        Option.bind_some, parseDigits, digitVal_digitChar (by omega)]
      simp only [if_pos hmod, parseDigits]
      rw [Nat.div_add_mod' n 10]

/-- A decimal number does not start with a sign, and not with the digit 0 unless it is 0. -/
theorem toDigits_eq_cons : ∃ d s, Nat.toDigits 10 n = Nat.digitChar d :: s ∧ d < 10 ∧
    (d = 0 → n = 0) := by
  induction n using Nat.strong_induction_on with
  | _ n ih =>
    by_cases hn : n < 10
    · exact ⟨n, [], Nat.toDigits_of_lt_base hn, hn, id⟩
    · obtain ⟨d, s, hs, hd, hzero⟩ := ih (n / 10) (by omega)
      refine ⟨d, s ++ [(n % 10).digitChar], ?_, hd, fun h0 ↦ ?_⟩
      · rw [Nat.toDigits_of_base_le (by decide) (by omega), hs, cons_append]
      · have := hzero h0
        omega

theorem parseUint_toDigits : parseUint (Nat.toDigits 10 n) = some n := by
  by_cases hn : n = 0
  · subst hn
    rfl
  · obtain ⟨d, s, hs, hd, hzero⟩ := toDigits_eq_cons n
    have hd0 : d.digitChar ≠ '0' := by
      rw [Ne, Nat.digitChar_eq_zero]
      exact fun h ↦ hn (hzero h)
    rw [hs]
    unfold parseUint
    split
    · next h => exact nomatch h
    · next h => exact absurd (cons.inj h).1 hd0
    · next h => exact absurd (cons.inj h).1 hd0
    · next h => exact absurd (cons.inj h).1 hd0
    · rw [← hs, parseDigits_toDigits]

theorem parseInt_fmtInt (h0 : 0 ≤ z) (h : z < 2 ^ 63) : parseInt (fmtInt z) = (z, true) := by
  obtain ⟨n, rfl⟩ := Int.eq_ofNat_of_zero_le h0
  obtain ⟨d, s, hs, hd, -⟩ := toDigits_eq_cons n
  have hhead (c : Char) (hc : c.isDigit = false) : d.digitChar ≠ c := by
    rintro rfl
    rw [Nat.isDigit_digitChar, decide_eq_false_iff_not] at hc
    exact hc hd
  have hminus : (Nat.toDigits 10 n).head? ≠ some '-' := by
    rw [hs, head?_cons, Ne, Option.some.injEq]
    exact hhead '-' rfl
  have hplus : (Nat.toDigits 10 n).head? ≠ some '+' := by
    rw [hs, head?_cons, Ne, Option.some.injEq]
    exact hhead '+' rfl
  rw [fmtInt, if_neg (by omega), Int.natAbs_natCast, parseInt]
  simp [hminus, hplus, parseUint_toDigits]
  omega

/-! ## The file of a blob -/

/-- A fragment of a blob. -/
structure BlobFragment where
  pos : ℤ
  size : ℤ
  offset : ℤ
  fileName : Str
deriving DecidableEq

/-- What `getBlob` reads of a blob. -/
structure BlobDesc where
  fragment : List BlobFragment
  size : ℤ
  finalized : Bool
  hash : Option Hash
deriving DecidableEq

namespace BlobDesc

def empty : BlobDesc := ⟨[], 0, false, none⟩

/-- One line. A field that cannot be parsed makes no difference to the error that `getBlob` returns,
which is that of the scanner. -/
def readLine (desc : BlobDesc) (line : Str) : BlobDesc :=
  match line.splitOn ' ' with
  | [['d'], size, offset, fileName] =>
    let fragSize := parseInt size
    let fragOffset := parseInt offset
    { desc with
      fragment :=
        if fragSize.2 && fragOffset.2 then
          desc.fragment ++ [⟨desc.size, fragSize.1, fragOffset.1, fileName⟩]
        else desc.fragment
      size := desc.size + fragSize.1 }
  | [['f'], hash] => { desc with finalized := true, hash := stringToHash hash }
  | _ => desc

end BlobDesc

/-- The lines of a text. The last one need not end with a newline. -/
def scanLines (text : Str) : List Str :=
  let lines := text.splitOn '\n'
  if lines.getLast? = some [] then lines.dropLast else lines

def dropCR (line : Str) : Str := if line.getLast? = some '\r' then line.dropLast else line

/-- The loop of `getBlob`. The scanner stops with an error at a line that is too long. -/
def readDesc (text : Str) : Option BlobDesc :=
  if (scanLines text).any fun line ↦ 65536 ≤ line.length then none
  else some (((scanLines text).map dropCR).foldl BlobDesc.readLine BlobDesc.empty)

/-- What a `BlobWriter` writes in the file of its blob. -/
inductive Record where
  | fragment (size offset : ℤ) (fileName : Str)
  | finalize (hash : Hash)

namespace Record

/-- A record without the newline at its end. -/
def line : Record → Str
  | .fragment size offset fileName => [' '].intercalate [['d'], fmtInt size,
      fmtInt offset, fileName]
  | .finalize hash => [' '].intercalate [['f'], hashToString hash]

def text (r : Record) : Str := r.line ++ ['\n']

/-- What a record says. -/
def apply (desc : BlobDesc) : Record → BlobDesc
  | .fragment size offset fileName =>
    { desc with
      fragment := desc.fragment ++ [⟨desc.size, size, offset, fileName⟩]
      size := desc.size + size }
  | .finalize hash => { desc with finalized := true, hash := some hash }

/-- A record of the store lists a part of a fragment. -/
def Sound : Record → Prop
  | .fragment size offset fileName =>
    0 < size ∧ 0 ≤ offset ∧ offset + size ≤ maxFragmentSize ∧
      ∃ hash, fileName = hashToFileName casDir hash
  | .finalize _ => True

end Record

/-! ### Reading back what was written -/

/-- A character that ends neither a field nor a line. -/
def Plain (c : Char) : Prop := c ≠ ' ' ∧ c ≠ '\n' ∧ c ≠ '\r'

theorem plain_digitChar (h : d < 16) : Plain d.digitChar := by
  unfold Plain
  interval_cases d <;> decide

theorem plain_of_mem_flatMap_hex2 {bs : List Byte} (h : c ∈ bs.flatMap hex2) :
    Plain c := by
  obtain ⟨b, -, hc⟩ := mem_flatMap.mp h
  simp only [hex2, mem_cons, not_mem_nil, or_false] at hc
  rcases hc with rfl | rfl <;> exact plain_digitChar (by omega)

theorem plain_of_mem_hashToFileName {hash : Hash} (h : c ∈ hashToFileName casDir hash) :
    Plain c := by
  have hslash : Plain '/' := by unfold Plain; decide
  have hcas (h : c ∈ casDir) : Plain c := by
    simp only [casDir, mem_cons, not_mem_nil, or_false] at h
    rcases h with rfl | rfl | rfl <;> (unfold Plain; decide)
  simp only [hashToFileName, intercalate_cons_cons, intercalate_singleton,
    mem_append, mem_singleton] at h
  rcases h with (h | rfl) | (h | rfl) | (h | rfl) | (h | rfl) | h
  · exact hcas h
  all_goals first | exact hslash | exact plain_of_mem_flatMap_hex2 h

theorem plain_of_mem_fmtInt (h0 : 0 ≤ z) (h : c ∈ fmtInt z) : Plain c := by
  rw [fmtInt, if_neg (by omega)] at h
  have hdigit := Nat.isDigit_of_mem_toDigits (by decide) (by decide) h
  refine ⟨?_, ?_, ?_⟩ <;> rintro rfl <;> exact nomatch hdigit

theorem length_fmtInt_le (h0 : 0 ≤ z) (h : z ≤ maxFragmentSize) : (fmtInt z).length ≤ 19 := by
  rw [fmtInt, if_neg (by omega), Nat.length_toDigits_le_iff (by decide) (by decide)]
  rw [maxFragmentSize] at h
  omega

theorem length_flatMap_hex2 : (bs.flatMap hex2).length = 2 * bs.length := by
  induction bs with
  | nil => rfl
  | cons b bs ih =>
    rw [flatMap_cons, length_append, ih, length_cons]
    simp only [hex2, length_cons, length_nil]
    omega

theorem length_hashToFileName (hash : Hash) : (hashToFileName casDir hash).length = 39 := by
  simp only [hashToFileName, intercalate_cons_cons, intercalate_singleton,
    length_append, length_flatMap_hex2, length_take, length_drop, hash.length_eq]
  rfl

namespace Record

variable {r : Record} {rs : List Record}

theorem not_mem_line (h : r.Sound) : '\n' ∉ r.line ∧ '\r' ∉ r.line := by
  have key (c : Char) (hc : c ∈ r.line) : c ≠ '\n' ∧ c ≠ '\r' := by
    cases r with
    | fragment size offset fileName =>
      obtain ⟨hsize, hoffset, -, hash, rfl⟩ := h
      simp only [line, intercalate_cons_cons, intercalate_singleton, mem_append,
        mem_singleton] at hc
      rcases hc with (rfl | rfl) | (hc | rfl) | (hc | rfl) | hc
      · decide
      · decide
      · exact (plain_of_mem_fmtInt hsize.le hc).2
      · decide
      · exact (plain_of_mem_fmtInt hoffset hc).2
      · decide
      · exact (plain_of_mem_hashToFileName hc).2
    | finalize hash =>
      simp only [line, intercalate_cons_cons, intercalate_singleton, mem_append,
        mem_singleton] at hc
      rcases hc with (rfl | rfl) | hc
      · decide
      · decide
      · exact (plain_of_mem_flatMap_hex2 hc).2
  exact ⟨fun hc ↦ (key _ hc).1 rfl, fun hc ↦ (key _ hc).2 rfl⟩

theorem length_line_lt (h : r.Sound) : r.line.length < 65536 := by
  cases r with
  | fragment size offset fileName =>
    obtain ⟨hsize, hoffset, hle, hash, rfl⟩ := h
    have h1 := length_fmtInt_le hsize.le (by omega)
    have h2 := length_fmtInt_le hoffset (by omega)
    simp only [line, intercalate_cons_cons, intercalate_singleton, length_append,
      length_hashToFileName, length_cons, length_nil]
    omega
  | finalize hash =>
    simp only [line, intercalate_cons_cons, intercalate_singleton, length_append,
      hashToString, length_flatMap_hex2, hash.length_eq, length_cons, length_nil]
    omega

theorem readLine_line (h : r.Sound) (desc : BlobDesc) : desc.readLine r.line = r.apply desc := by
  cases r with
  | fragment size offset fileName =>
    obtain ⟨hsize, hoffset, hle, hash, rfl⟩ := h
    rw [maxFragmentSize] at hle
    have hsplit : (Record.fragment size offset (hashToFileName casDir hash)).line.splitOn ' ' =
        [['d'], fmtInt size, fmtInt offset, hashToFileName casDir hash] := by
      refine splitOn_intercalate ' ' (fun l hl ↦ ?_) (by simp)
      simp only [mem_cons, not_mem_nil, or_false] at hl
      rcases hl with rfl | rfl | rfl | rfl
      · decide
      · exact fun hc ↦ (plain_of_mem_fmtInt hsize.le hc).1 rfl
      · exact fun hc ↦ (plain_of_mem_fmtInt hoffset hc).1 rfl
      · exact fun hc ↦ (plain_of_mem_hashToFileName hc).1 rfl
    rw [BlobDesc.readLine, hsplit]
    simp only [parseInt_fmtInt hsize.le (by omega), parseInt_fmtInt hoffset (by omega),
      Bool.and_self, if_true, apply]
  | finalize hash =>
    have hsplit : (Record.finalize hash).line.splitOn ' ' = [['f'], hashToString hash] := by
      refine splitOn_intercalate ' ' (fun l hl ↦ ?_) (by simp)
      simp only [mem_cons, not_mem_nil, or_false] at hl
      rcases hl with rfl | rfl
      · decide
      · exact fun hc ↦ (plain_of_mem_flatMap_hex2 hc).1 rfl
    rw [BlobDesc.readLine, hsplit]
    simp only [stringToHash_hashToString, apply]

theorem scanLines_text (h : ∀ r ∈ rs, r.Sound) : scanLines (rs.flatMap text) = rs.map line := by
  have hsplit : ∀ rs : List Record, (∀ r ∈ rs, r.Sound) →
      (rs.flatMap text).splitOn '\n' = rs.map line ++ [[]] := by
    intro rs
    induction rs with
    | nil => exact fun _ ↦ rfl
    | cons r rs ih =>
      intro h
      obtain ⟨hr, hrest⟩ := forall_mem_cons.mp h
      rw [flatMap_cons, text, append_assoc, singleton_append,
        splitOn_append_cons_self_of_not_mem (not_mem_line hr).1, ih hrest, map_cons, cons_append]
  rw [scanLines, hsplit rs h]
  simp

/-- **Blob files can be read back.** -/
theorem readDesc_text (h : ∀ r ∈ rs, r.Sound) :
    readDesc (rs.flatMap text) = some (rs.foldl apply BlobDesc.empty) := by
  have hshort : ((rs.map line).any fun line ↦ 65536 ≤ line.length) = false := by
    rw [any_eq_false]
    intro l hl
    obtain ⟨r, hr, rfl⟩ := mem_map.mp hl
    have := length_line_lt (h r hr)
    simpa using this
  have hcr : (rs.map line).map dropCR = rs.map line := by
    rw [map_map]
    refine map_congr_left fun r hr ↦ if_neg fun hlast ↦ ?_
    exact (not_mem_line (h r hr)).2 (mem_of_getLast? hlast)
  have hfold : ∀ (rs : List Record) (desc : BlobDesc), (∀ r ∈ rs, r.Sound) →
      (rs.map line).foldl BlobDesc.readLine desc = rs.foldl apply desc := by
    intro rs
    induction rs with
    | nil => exact fun _ _ ↦ rfl
    | cons r rs ih =>
      intro desc h
      obtain ⟨hr, hrest⟩ := forall_mem_cons.mp h
      rw [map_cons, foldl_cons, foldl_cons, readLine_line hr, ih _ hrest]
  rw [readDesc, scanLines_text h, hshort, hcr, hfold rs _ h]
  rfl

end Record

end Vanadium.Blob
