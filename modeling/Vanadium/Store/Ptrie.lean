import Vanadium.Foundations.BitTrie
import Vanadium.Foundations.OrderedMap
import Vanadium.Store.PtrieUtil

/-!
# The trie of a transaction's writes

Package `ptrie`: a map from byte strings to values as a path-contracted binary trie. The bits on an
arc are kept in whole bytes, aligned as they are in the keys below it: the first byte of an arc that
starts at bit `i` of a key holds `i % 8` bits that belong to the arcs above, and its last byte may
hold bits past its end.

A `*pchild` and the `*pnode` it leads to are one value here (`PNode.node`), and so is the root with
the empty arc; `nil` stands for both nil pointers. The operations return the changed trie. With
`makeCopy` the code copies what it changes and without it changes in place; no arc's bytes are ever
written to once they are in the trie, so that both give the trie that is returned here.

The trie is compared with `BitTrie`, its labels read off the aligned bytes (`PNode.abs`).
-/

namespace Vanadium.Ptrie

open Foundations Store List BitTrie

/-! ## The trie -/

/-- `pchild` with the `pnode` it leads to: the bytes of the arc, its length in bits, and the value
and the children of the node. -/
inductive PNode (α : Type) where
  | nil
  | node (bitstr : Bytes) (bitlen : ℕ) (value : Option α) (child0 child1 : PNode α)
  deriving DecidableEq

/-- The ways a call can panic. -/
inductive Panic where
  | nilDereference
  /-- `subtree has no nodes with values` -/
  | noValue
  /-- `the number of bytes in a key is not an integer` -/
  | partialByte
  /-- `nothing staged` -/
  | nothingStaged
  deriving DecidableEq

namespace PNode

variable {α : Type}

/-- Whether the pointer is nil. -/
def isNil : PNode α → Bool
  | nil => true
  | node .. => false

/-- The `bitlen` of an arc. -/
def arcLen : PNode α → ℕ
  | nil => 0
  | node _ n _ _ _ => n

/-- The `bitstr` of an arc. -/
def arcBytes : PNode α → Bytes
  | nil => []
  | node bitstr _ _ _ _ => bitstr

/-- The value of the node an arc leads to. -/
def value : PNode α → Option α
  | nil => none
  | node _ _ v _ _ => v

def bitLCP (child : PNode α) (slice : Bytes) (skipbits : ℕ) : ℕ :=
  match child with
  | nil => 0
  | node bitstr n _ _ _ => min (sliceBitLCP skipbits bitstr slice) n

/-- `child != nil && lcp == child.bitlen`. -/
def agrees (child : PNode α) (key : Bytes) (bitIndex : ℕ) : Bool :=
  !child.isNil && child.bitLCP (key.drop (bitIndex / 8)) (bitIndex % 8) == child.arcLen

/-- What `putInternal` puts in the place of a child whose arc does not agree with the key: the new
child alone, or a node in the middle of the arc. -/
def splitArc (key : Bytes) (value : α) (bitIndex : ℕ) (child : PNode α) : PNode α :=
  let lcp := child.bitLCP (key.drop (bitIndex / 8)) (bitIndex % 8)
  let newChild := node (key.drop (u32 (bitIndex + lcp) / 8))
    (u32 (Ptrie.bitlen key + 2 ^ 33 - bitIndex - lcp)) (some value) nil nil
  match child with
  | nil => newChild
  | node bitstr n v c0 c1 =>
    let upper := bitstr.take (u32 (bitIndex % 8 + lcp + 7) / 8)
    let lower := node (bitstr.drop (u32 (bitIndex % 8 + lcp) / 8)) (n - lcp) v c0 c1
    -- the first bit on the path to the new child is not the one the old child goes on with
    let nextBit := !getBit bitstr (u32 (bitIndex % 8 + lcp))
    if u32 (bitIndex + lcp) < Ptrie.bitlen key then
      if nextBit then node upper lcp none lower newChild else node upper lcp none newChild lower
    else
      if nextBit then node upper lcp (some value) lower nil
      else node upper lcp (some value) nil lower

/-- `putInternal`. The node exists. -/
def putInternal (key : Bytes) (value : α) : PNode α → ℕ → PNode α
  | nil, _ => nil
  | node bitstr n v c0 c1, bitIndex =>
    if Ptrie.bitlen key = bitIndex then node bitstr n (some value) c0 c1
    else if getBit key bitIndex then
      node bitstr n v c0 (if c1.agrees key bitIndex
        then putInternal key value c1 (u32 (bitIndex + c1.arcLen))
        else splitArc key value bitIndex c1)
    else
      node bitstr n v (if c0.agrees key bitIndex
        then putInternal key value c0 (u32 (bitIndex + c0.arcLen))
        else splitArc key value bitIndex c0) c1

/-- `getInternal`. The node exists. -/
def getInternal (key : Bytes) : PNode α → ℕ → Option α
  | nil, _ => none
  | node _ _ v c0 c1, bitIndex =>
    if bitIndex < Ptrie.bitlen key then
      if getBit key bitIndex then
        if c1.agrees key bitIndex then getInternal key c1 (u32 (bitIndex + c1.arcLen)) else none
      else
        if c0.agrees key bitIndex then getInternal key c0 (u32 (bitIndex + c0.arcLen)) else none
    else v

/-- What becomes of the child in which `deleteInternal` has deleted the key: it is gone, or has a
new node, which is contracted if it has no value and one child only. -/
def contractChild (bitIndex : ℕ) : PNode α → Except Panic (PNode α)
  | nil => .ok nil
  | node bitstr n v c0 c1 =>
    if v.isNone && (c0.isNil || c1.isNil) then
      match if c0.isNil then c1 else c0 with
      | nil => .error .nilDereference
      | node bitstr' n' v' c0' c1' =>
        .ok (node (appendBits bitstr (u32 (bitIndex % 8 + n)) bitstr') (u32 (n + n')) v' c0' c1')
    else .ok (node bitstr n v c0 c1)

/-- The step of `deleteInternal` to a child, given what it returns for the child's node. Nothing is
returned if the key was not found. -/
def deleteChild (key : Bytes) (bitIndex : ℕ) (child : PNode α)
    (deeper : Except Panic (PNode α × Bool)) : Except Panic (Option (PNode α)) :=
  if child.agrees key bitIndex then
    match deeper with
    | .ok (newNode, true) => (contractChild bitIndex newNode).map some
    | .ok (_, false) => .ok none
    | .error e => .error e
  else .ok none

/-- `deleteInternal`: the new node, and whether the key was found. -/
def deleteInternal (key : Bytes) : PNode α → ℕ → Except Panic (PNode α × Bool)
  | nil, _ => .error .nilDereference
  | node bitstr n v c0 c1, bitIndex =>
    if Ptrie.bitlen key = bitIndex then
      if c0.isNil && c1.isNil then .ok (nil, true) else .ok (node bitstr n none c0 c1, true)
    else if getBit key bitIndex then
      (deleteChild key bitIndex c1 (deleteInternal key c1 (u32 (bitIndex + c1.arcLen)))).map
        fun r ↦ (node bitstr n v c0 (r.getD c1), r.isSome)
    else
      (deleteChild key bitIndex c0 (deleteInternal key c0 (u32 (bitIndex + c0.arcLen)))).map
        fun r ↦ (node bitstr n v (r.getD c0) c1, r.isSome)

/-- `delete` on a root. -/
def delete (root : PNode α) (key : Bytes) : Except Panic (PNode α) :=
  match root with
  | nil => .ok nil
  | root => do
    let (newNode, _) ← deleteInternal key root 0
    match newNode with
    | nil => .error .nilDereference
    | node _ _ none nil nil => return nil
    | newNode => return newNode

/-- `put` on a root. A nil value deletes the key. -/
def put (root : PNode α) (key : Bytes) : Option α → Except Panic (PNode α)
  | none => root.delete key
  | some value =>
    match root with
    | nil => .ok (putInternal key value (node [] 0 none nil nil) 0)
    | root => .ok (putInternal key value root 0)

/-- `get` on a root. -/
def get (root : PNode α) (key : Bytes) : Option α :=
  match root with
  | nil => none
  | root => getInternal key root 0

/-! ## Reading the labels -/

/-- The bits of an arc that starts at bit `i` of the keys below it. -/
def label (i : ℕ) (bitstr : Bytes) (n : ℕ) : List Bool := ((bits bitstr).drop (i % 8)).take n

/-- The trie with the bits of its arcs. -/
def abs : ℕ → PNode α → BitTrie α
  | _, nil => .nil
  | i, node bitstr n v c0 c1 => .arc (label i bitstr n) v (c0.abs (i + n)) (c1.abs (i + n))

/-- Every arc has the bytes that hold its bits and no more, and ends within the longest key. -/
def Aligned : ℕ → PNode α → Prop
  | _, nil => True
  | i, node bitstr n _ c0 c1 =>
    i + n ≤ 2 ^ 32 - 8 ∧ bitstr.length = (i % 8 + n + 7) / 8 ∧
      c0.Aligned (i + n) ∧ c1.Aligned (i + n)

/-- A subtree at bit `i` whose labels read as the given trie. -/
structure Reads (i : ℕ) (t : BitTrie α) (c : PNode α) : Prop where
  abs : c.abs i = t
  aligned : c.Aligned i

/-- A child on the side of the bit `b`, at bit `i`. -/
structure Shape (b : Bool) (i : ℕ) (c : PNode α) : Prop where
  aligned : c.Aligned i
  wf : (c.abs i).WF b

/-- A node with its children in place. The arc to it may be the empty one of the root. -/
structure Rooted (i : ℕ) (c : PNode α) : Prop where
  aligned : c.Aligned i
  sides : (c.abs i).Sides

/-- The label of an arc at bit `i`. -/
def arcBits (i : ℕ) : PNode α → List Bool
  | nil => []
  | node bitstr n _ _ _ => label i bitstr n

theorem abs_eq_nil_iff {i : ℕ} {c : PNode α} : c.abs i = .nil ↔ c = nil := by
  cases c <;> simp [abs]

variable {bitstr bitstr' : Bytes} {i n n' p : ℕ}

theorem length_label (h : bitstr.length = (i % 8 + n + 7) / 8) : (label i bitstr n).length = n := by
  rw [label, length_take, length_drop, length_bits]
  omega

theorem label_take (hp : p ≤ n) :
    label i (bitstr.take ((i % 8 + p + 7) / 8)) p = (label i bitstr n).take p := by
  rw [label, label, bits_take, drop_take, take_take, take_take,
    min_eq_left (by omega), min_eq_left hp]

theorem label_drop :
    label (i + p) (bitstr.drop ((i % 8 + p) / 8)) (n - p) = (label i bitstr n).drop p := by
  rw [label, label, bits_drop, drop_drop, drop_take, drop_drop]
  congr 2
  omega

theorem label_key (key : Bytes) :
    label i (key.drop (i / 8)) ((bits key).length - i) = (bits key).drop i := by
  rw [label, bits_drop, drop_drop, Nat.div_add_mod, take_of_length_le]
  rw [length_drop]

theorem label_appendBits (h : bitstr.length = (i % 8 + n + 7) / 8) (h' : bitstr' ≠ []) :
    label i (appendBits bitstr (i % 8 + n) bitstr') (n + n') =
      label i bitstr n ++ label (i + n) bitstr' n' := by
  have hn : i % 8 + n ≤ (bits bitstr).length := by rw [length_bits]; omega
  have htake : ((bits bitstr).take (i % 8 + n)).drop (i % 8) = label i bitstr n := by
    rw [drop_take, Nat.add_sub_cancel_left, label]
  rw [label, bits_appendBits hn h', drop_append_of_le_length, htake,
    show n + n' = (label i bitstr n).length + n' by rw [length_label h],
    take_length_add_append, label]
  · congr 3
    omega
  · rw [length_take]
    omega

/-! ## The operations on the labels

A key is shorter than `2 ^ 29` bytes here, so that its length in bits does not wrap around. -/

section Simulation

variable {key : Bytes} {b : Bool} {v : Option α} {c c0 c1 : PNode α}

theorem Shape.arcLen_pos (h : (node bitstr n v c0 c1).Shape b i) : 0 < n := by
  have hhead := h.wf.1
  obtain _ | n := n
  · cases hhead
  · exact Nat.succ_pos n

theorem Rooted.child0 (h : (node bitstr n v c0 c1).Rooted i) : c0.Shape false (i + n) :=
  ⟨h.aligned.2.2.1, h.sides.1⟩

theorem Rooted.child1 (h : (node bitstr n v c0 c1).Rooted i) : c1.Shape true (i + n) :=
  ⟨h.aligned.2.2.2, h.sides.2⟩

theorem drop_eq_label_append (h : bitstr.length = (i % 8 + n + 7) / 8)
    (hpre : label i bitstr n <+: (bits key).drop i) :
    (bits key).drop i = label i bitstr n ++ (bits key).drop (i + n) := by
  obtain ⟨r, hr⟩ := hpre
  have hdrop := congrArg (drop n) hr
  rw [drop_left' (length_label h), drop_drop] at hdrop
  rw [← hr, hdrop]

theorem add_le_of_prefix (h : bitstr.length = (i % 8 + n + 7) / 8) (hi : i < (bits key).length)
    (hpre : label i bitstr n <+: (bits key).drop i) : i + n ≤ (bits key).length := by
  have hle := hpre.length_le
  rw [length_label h, length_drop] at hle
  omega

theorem Shape.rooted (h : c.Shape b i) (hc : c ≠ nil) : c.Rooted i :=
  ⟨h.aligned, h.wf.sides fun hnil ↦ hc (abs_eq_nil_iff.mp hnil)⟩

theorem abs_node (i : ℕ) : (node bitstr n v c0 c1).abs i =
    .arc (label i bitstr n) v (c0.abs (i + n)) (c1.abs (i + n)) := rfl

/-- The bit an arc goes on with after its first `p` bits. -/
theorem getBit_label {d : Bool} {lower : List Bool} (hlen : bitstr.length = (i % 8 + n + 7) / 8)
    (h : (label i bitstr n).drop p = d :: lower) : getBit bitstr (i % 8 + p) = d := by
  have hp : p < n := by
    have hl := congrArg length h
    rw [length_drop, length_label hlen, length_cons] at hl
    omega
  have hhead := @head?_drop_bits bitstr (i % 8 + p) (by rw [length_bits]; omega)
  have hlabel : (label i bitstr n).drop p = ((bits bitstr).drop (i % 8 + p)).take (n - p) := by
    rw [label, drop_take, drop_drop]
  rw [hlabel] at h
  have htake := congrArg head? h
  rw [head?_take, if_neg (by omega), hhead, head?_cons] at htake
  exact Option.some.inj htake

theorem isNil_iff : c.isNil = true ↔ c = nil := by
  cases c <;> simp [isNil]

theorem not_isNil_iff : (!c.isNil) = true ↔ c ≠ nil := by
  cases c <;> simp [isNil]

theorem getD_of_isSome {r : Option (PNode α)} (h : r.isSome = false) : r.getD c = c := by
  rw [Option.isSome_eq_false_iff, Option.isNone_iff_eq_none] at h
  rw [h]
  rfl

variable (hkey : key.length < 2 ^ 29)
include hkey

theorem bitLCP_eq (hi : i < (bits key).length) (h : (node bitstr n v c0 c1).Shape b i) :
    (node bitstr n v c0 c1).bitLCP (key.drop (i / 8)) (i % 8) =
      lcp (label i bitstr n) ((bits key).drop i) := by
  have hpos := h.arcLen_pos
  obtain ⟨hend, hlen, -, -⟩ := h.aligned
  rw [length_bits] at hi
  have hstr : bitstr ≠ [] := by
    rintro rfl
    rw [length_nil] at hlen
    omega
  have hslice : key.drop (i / 8) ≠ [] := by
    rw [Ne, drop_eq_nil_iff]
    omega
  rw [bitLCP, sliceBitLCP_eq (Nat.mod_lt i (by decide)) hstr hslice (by omega), bits_drop,
    drop_drop, Nat.div_add_mod, label, lcp_take, min_comm]

theorem agrees_iff (hi : i < (bits key).length) (h : (node bitstr n v c0 c1).Shape b i) :
    (node bitstr n v c0 c1).agrees key i = true ↔ label i bitstr n <+: (bits key).drop i := by
  rw [← lcp_eq_length_iff, length_label h.aligned.2.1, ← bitLCP_eq hkey hi h]
  simp [agrees, isNil, arcLen]

theorem bitlen_eq_iff_drop (hi : i ≤ (bits key).length) :
    Ptrie.bitlen key = i ↔ (bits key).drop i = [] := by
  rw [bitlen_of_lt hkey, drop_eq_nil_iff]
  omega

theorem drop_cases (hi : i ≤ (bits key).length) :
    (Ptrie.bitlen key = i ∧ (bits key).drop i = []) ∨
      (i < (bits key).length ∧ Ptrie.bitlen key ≠ i ∧
        ∃ rest, (bits key).drop i = getBit key i :: rest) := by
  rcases hi.eq_or_lt with heq | hlt
  · left
    rw [bitlen_eq_iff_drop hkey hi, and_self, drop_eq_nil_iff]
    exact heq.ge
  · right
    have hhead := head?_drop_bits hlt
    obtain ⟨rest, hrest⟩ := head?_eq_some_iff.mp hhead
    refine ⟨hlt, ?_, rest, hrest⟩
    rw [Ne, bitlen_eq_iff_drop hkey hi, hrest]
    exact cons_ne_nil _ _

theorem of_agrees (hi : i < (bits key).length) (hc : c.Shape b i) (h : c.agrees key i = true) :
    c.Rooted i ∧ i + c.arcLen ≤ (bits key).length ∧ u32 (i + c.arcLen) = i + c.arcLen ∧
      (bits key).drop i = c.arcBits i ++ (bits key).drop (i + c.arcLen) := by
  obtain _ | ⟨bitstr, n, v, c0, c1⟩ := c
  · cases h
  · have hpre := (agrees_iff hkey hi hc).mp h
    have hlen := hc.aligned.2.1
    exact ⟨hc.rooted nofun, add_le_of_prefix hlen hi hpre,
      u32_of_lt (lt_of_le_of_lt hc.aligned.1 (by decide)), drop_eq_label_append hlen hpre⟩

/-! ### Lookups -/

/-- The lookup in a child, given the lookup below it. -/
theorem getChild_eq (hi : i < (bits key).length) (hc : c.Shape b i)
    (ih : c.Rooted i → i + c.arcLen ≤ (bits key).length → getInternal key c (i + c.arcLen) =
      (c.abs i).get (c.arcBits i ++ (bits key).drop (i + c.arcLen))) :
    (if c.agrees key i then getInternal key c (u32 (i + c.arcLen)) else none) =
      (c.abs i).get ((bits key).drop i) := by
  by_cases h : c.agrees key i = true
  · obtain ⟨hroot, hend, hu32, hdrop⟩ := of_agrees hkey hi hc h
    rw [if_pos h, hu32, ih hroot hend, ← hdrop]
  · rw [if_neg h]
    obtain _ | ⟨bitstr, n, v, c0, c1⟩ := c
    · rfl
    · rw [abs, get_arc_of_not fun hpre ↦ h ((agrees_iff hkey hi hc).mpr hpre)]

/-- **`getInternal` finds what the labels say.** -/
theorem getInternal_eq (hc : c.Rooted i)
    (hend : i + c.arcLen ≤ (bits key).length) : getInternal key c (i + c.arcLen) =
      (c.abs i).get (c.arcBits i ++ (bits key).drop (i + c.arcLen)) := by
  induction c generalizing i with
  | nil => exact hc.sides.elim
  | node bitstr n v c0 c1 ih0 ih1 =>
    have h0 := hc.child0
    have h1 := hc.child1
    rw [abs, arcBits, get_arc_append]
    rw [arcLen] at hend ⊢
    rcases drop_cases hkey hend with ⟨hbit, hdrop⟩ | ⟨hlt, -, rest, hdrop⟩
    · rw [getInternal, if_neg (by omega), hdrop]
      rfl
    · rw [getInternal, bitlen_of_lt hkey, if_pos hlt, hdrop]
      obtain hbit | hbit := Bool.eq_false_or_eq_true (getBit key (i + n))
      · rw [hbit, if_pos rfl, getChild_eq hkey hlt h1 ih1, hdrop, hbit]
        rfl
      · rw [hbit, if_neg (by decide), getChild_eq hkey hlt h0 ih0, hdrop, hbit]
        rfl

/-! ### Writes -/

theorem newChild_eq (hi : i ≤ (bits key).length) (value : α) :
    (node (key.drop (i / 8)) ((bits key).length - i) (some value) nil nil).Reads i
      (.arc ((bits key).drop i) (some value) .nil .nil) := by
  refine ⟨by rw [abs_node, label_key key]; rfl, ?_, ?_, trivial, trivial⟩
  · rw [length_bits] at hi ⊢
    omega
  · rw [length_bits] at hi ⊢
    rw [length_drop]
    omega

theorem u32_newLen {p : ℕ} (hi : i + p ≤ (bits key).length) :
    u32 (Ptrie.bitlen key + 2 ^ 33 - i - p) = (bits key).length - (i + p) := by
  have hbits : (bits key).length ≤ 2 ^ 32 - 8 := by rw [length_bits]; omega
  rw [bitlen_of_lt hkey, show (bits key).length + 2 ^ 33 - i - p =
    (bits key).length - (i + p) + 2 * 2 ^ 32 by omega, u32, Nat.add_mul_mod_self_right,
    Nat.mod_eq_of_lt (by omega)]

theorem splitArc_nil (hi : i < (bits key).length) (value : α) :
    splitArc key value i nil =
      node (key.drop (i / 8)) ((bits key).length - i) (some value) nil nil := by
  have hbits : (bits key).length ≤ 2 ^ 32 - 8 := by rw [length_bits]; omega
  have hlen := u32_newLen hkey (p := 0) hi.le
  simp only [splitArc, bitLCP]
  rw [hlen, Nat.add_zero, u32_of_lt (by omega)]

/-- **An arc is split where the key leaves it.** -/
theorem splitArc_eq (hi : i < (bits key).length) (hc : c.Shape b i)
    (hnot : c.agrees key i = false) (value : α) :
    (splitArc key value i c).Reads i ((c.abs i).put ((bits key).drop i) value) := by
  obtain _ | ⟨bitstr, n, v, c0, c1⟩ := c
  · rw [splitArc_nil hkey hi]
    exact newChild_eq hkey hi.le value
  · have hpre : ¬label i bitstr n <+: (bits key).drop i := fun h ↦ by
      rw [(agrees_iff hkey hi hc).mpr h] at hnot
      cases hnot
    obtain ⟨hend, hlen, h0, h1⟩ := hc.aligned
    obtain ⟨upper, lower, rest, d, hlabel, hdrop, hd, hp, hput⟩ :=
      put_arc_of_not hpre v (c0.abs (i + n)) (c1.abs (i + n)) value
    rw [← bitLCP_eq hkey hi hc] at hp
    generalize hlcp : (node bitstr n v c0 c1).bitLCP (key.drop (i / 8)) (i % 8) = p at hp
    -- the three arcs of the result: above the new node, below it, and to the new child
    have hpn : p < n := by
      have hl := congrArg length hlabel
      rw [length_label hlen, length_append, length_cons] at hl
      omega
    have hpkey : i + p ≤ (bits key).length := by
      have hl := congrArg length hdrop
      rw [length_drop, length_append] at hl
      omega
    have hupper : label i (bitstr.take ((i % 8 + p + 7) / 8)) p = upper := by
      rw [label_take hpn.le, hlabel, take_left' hp]
    have hbelow : (label i bitstr n).drop p = d :: lower := by rw [hlabel, drop_left' hp]
    have hlower : (node (bitstr.drop ((i % 8 + p) / 8)) (n - p) v c0 c1).Reads (i + p)
        (.arc (d :: lower) v (c0.abs (i + n)) (c1.abs (i + n))) := by
      have hadd : i + p + (n - p) = i + n := by omega
      refine ⟨by rw [abs_node, label_drop, hbelow, hadd], ?_⟩
      rw [Aligned, length_drop, hlen, hadd]
      exact ⟨hend, by omega, h0, h1⟩
    have hrest : (bits key).drop (i + p) = rest := by rw [← drop_drop, hdrop, drop_left' hp]
    have hnew := newChild_eq hkey hpkey value
    rw [hrest] at hnew
    obtain ⟨hlong, hshort⟩ : i + p ≤ 2 ^ 32 - 8 ∧
        (bitstr.take ((i % 8 + p + 7) / 8)).length = (i % 8 + p + 7) / 8 := by
      rw [length_take, hlen]
      omega
    have hbit : getBit bitstr (i % 8 + p) = d := getBit_label hlen hbelow
    have hlast : i + p < Ptrie.bitlen key ↔ rest ≠ [] := by
      rw [bitlen_of_lt hkey, ← hrest, Ne, drop_eq_nil_iff]
      omega
    rw [abs_node, hput, splitArc]
    simp only [hlcp]
    rw [u32_newLen hkey hpkey, u32_of_lt (show i + p < 2 ^ 32 by omega),
      u32_of_lt (show i % 8 + p + 7 < 2 ^ 32 by omega),
      u32_of_lt (show i % 8 + p < 2 ^ 32 by omega), hbit]
    simp only [hlast]
    obtain _ | ⟨a, rest⟩ := rest <;> obtain _ | _ := d
    · simp only [ne_eq, not_true_eq_false, if_false, Bool.not_false, if_true]
      exact ⟨by rw [abs_node, hupper, hlower.abs]; rfl, hlong, hshort, hlower.aligned, trivial⟩
    · simp only [ne_eq, not_true_eq_false, if_false, Bool.not_true, Bool.false_eq_true]
      exact ⟨by rw [abs_node, hupper, hlower.abs]; rfl, hlong, hshort, trivial, hlower.aligned⟩
    · simp only [ne_eq, reduceCtorEq, not_false_eq_true, if_true, Bool.not_false]
      exact ⟨by rw [abs_node, hupper, hlower.abs, hnew.abs]; rfl, hlong, hshort, hlower.aligned,
        hnew.aligned⟩
    · simp only [ne_eq, reduceCtorEq, not_false_eq_true, if_true, Bool.not_true,
        Bool.false_eq_true, if_false]
      exact ⟨by rw [abs_node, hupper, hlower.abs, hnew.abs]; rfl, hlong, hshort, hnew.aligned,
        hlower.aligned⟩

/-- **`putInternal` writes as the labels say.** -/
theorem putInternal_eq (value : α) (hc : c.Rooted i) (hend : i + c.arcLen ≤ (bits key).length) :
    (putInternal key value c (i + c.arcLen)).Reads i
      ((c.abs i).put (c.arcBits i ++ (bits key).drop (i + c.arcLen)) value) := by
  -- the write in a child, given the write below it
  have hchild : ∀ {c : PNode α} {b : Bool} {j : ℕ}, j < (bits key).length → c.Shape b j →
      (c.Rooted j → j + c.arcLen ≤ (bits key).length →
        (putInternal key value c (j + c.arcLen)).Reads j
          ((c.abs j).put (c.arcBits j ++ (bits key).drop (j + c.arcLen)) value)) →
      (if c.agrees key j then putInternal key value c (u32 (j + c.arcLen))
        else splitArc key value j c).Reads j ((c.abs j).put ((bits key).drop j) value) := by
    intro c b j hj hshape ih
    by_cases h : c.agrees key j = true
    · obtain ⟨hroot, hend, hu32, hdrop⟩ := of_agrees hkey hj hshape h
      rw [if_pos h, hu32, hdrop]
      exact ih hroot hend
    · rw [if_neg h]
      exact splitArc_eq hkey hj hshape (Bool.eq_false_iff.mpr h) value
  induction c generalizing i with
  | nil => exact hc.sides.elim
  | node bitstr n v c0 c1 ih0 ih1 =>
    have h0 := hc.child0
    have h1 := hc.child1
    obtain ⟨hlong, hlen, ha0, ha1⟩ := hc.aligned
    rw [abs, arcBits, put_arc_append]
    rw [arcLen] at hend ⊢
    rcases drop_cases hkey hend with ⟨hbit, hdrop⟩ | ⟨hlt, hne, rest, hdrop⟩
    · rw [putInternal, if_pos hbit, hdrop]
      exact ⟨rfl, hlong, hlen, ha0, ha1⟩
    · rw [putInternal, if_neg hne, hdrop]
      obtain hbit | hbit := Bool.eq_false_or_eq_true (getBit key (i + n))
      · have hnew := hchild hlt h1 ih1
        rw [hbit, if_pos rfl]
        refine ⟨?_, hlong, hlen, ha0, hnew.aligned⟩
        rw [abs_node, hnew.abs, hdrop, hbit]
        rfl
      · have hnew := hchild hlt h0 ih0
        rw [hbit, if_neg (by decide)]
        refine ⟨?_, hlong, hlen, hnew.aligned, ha1⟩
        rw [abs_node, hnew.abs, hdrop, hbit]
        rfl

/-! ### Deletions -/

omit hkey in
/-- Joining an arc with the only one below it. -/
theorem join_eq {v' : Option α} (hend : i + n ≤ 2 ^ 32 - 8)
    (hlen : bitstr.length = (i % 8 + n + 7) / 8) (h : (node bitstr' n' v' c0 c1).Shape b (i + n)) :
    (node (appendBits bitstr (u32 (i % 8 + n)) bitstr') (u32 (n + n')) v' c0 c1).Reads i
      (.arc (label i bitstr n ++ label (i + n) bitstr' n') v' (c0.abs (i + n + n'))
        (c1.abs (i + n + n'))) := by
  have hpos := h.arcLen_pos
  obtain ⟨hend', hlen', h0, h1⟩ := h.aligned
  have hstr : bitstr' ≠ [] := by
    rintro rfl
    rw [length_nil] at hlen'
    omega
  rw [u32_of_lt (by omega), u32_of_lt (by omega)]
  refine ⟨by rw [abs_node, label_appendBits hlen hstr, ← Nat.add_assoc], ?_⟩
  rw [Aligned, length_appendBits (by rw [length_bits]; omega) hstr, hlen', ← Nat.add_assoc]
  exact ⟨hend', by omega, h0, h1⟩

omit hkey in
/-- A new node is contracted as its labels are. -/
theorem contractChild_eq (hc : c = nil ∨ c.Rooted i) (hne : c = nil ∨ (c.abs i).contract ≠ .nil) :
    ∃ c', contractChild i c = .ok c' ∧ c'.Reads i (c.abs i).contract := by
  obtain _ | ⟨bitstr, n, v, c0, c1⟩ := c
  · exact ⟨nil, rfl, rfl, trivial⟩
  · have hroot := hc.resolve_left nofun
    have h0 := hroot.child0
    have h1 := hroot.child1
    obtain ⟨hend, hlen, ha0, ha1⟩ := hroot.aligned
    have hkeep : (v = none → c0 ≠ nil ∧ c1 ≠ nil) →
        contractChild i (node bitstr n v c0 c1) = .ok (node bitstr n v c0 c1) →
        ∃ c', contractChild i (node bitstr n v c0 c1) = .ok c' ∧
          c'.Reads i ((node bitstr n v c0 c1).abs i).contract := fun hfull hok ↦
      ⟨_, hok, (contract_of_children fun hv ↦ by
        rw [Ne, Ne, abs_eq_nil_iff, abs_eq_nil_iff]; exact hfull hv).symm, hend, hlen, ha0, ha1⟩
    obtain _ | v := v
    · obtain _ | ⟨s0, n0, v0, d0, e0⟩ := c0 <;> obtain _ | ⟨s1, n1, v1, d1, e1⟩ := c1
      · exact absurd rfl (hne.resolve_left nofun)
      · exact ⟨_, rfl, join_eq hend hlen h1⟩
      · exact ⟨_, rfl, join_eq hend hlen h0⟩
      · exact hkeep (fun _ ↦ ⟨nofun, nofun⟩) rfl
    · exact hkeep nofun rfl

/-- What `deleteInternal` does to a node: it is dropped if it is the key's and has no children. -/
structure Deleted (key : Bytes) (i : ℕ) (c : PNode α) (r : PNode α × Bool) : Prop where
  aligned : r.1.Aligned i
  unchanged : r.2 = false → r.1 = c
  below : r.1 = nil ∧ (bits key).drop (i + c.arcLen) = [] ∧
      ((c.abs i).deleteAt ((bits key).drop (i + c.arcLen))).contract = .nil ∨
    r.1.abs i = (c.abs i).deleteAt ((bits key).drop (i + c.arcLen)) ∧
      ((c.abs i).Full → (r.1.abs i).contract ≠ .nil)

omit hkey in
theorem delete_arcBits (hc : c.Rooted i) (k : List Bool) :
    (c.abs i).delete (c.arcBits i ++ k) = ((c.abs i).deleteAt k).contract := by
  obtain _ | ⟨bitstr, n, v, c0, c1⟩ := c
  · exact hc.sides.elim
  · exact delete_arc_append k

/-- The deletion in a child, given the deletion below it. -/
theorem deleteChild_eq (hi : i < (bits key).length)
    (hc : c.Shape b i)
    (ih : c.Rooted i → i + c.arcLen ≤ (bits key).length →
      ∃ r, deleteInternal key c (i + c.arcLen) = .ok r ∧ Deleted key i c r) :
    ∃ r, deleteChild key i c (deleteInternal key c (u32 (i + c.arcLen))) = .ok r ∧
      (r.getD c).Reads i ((c.abs i).delete ((bits key).drop i)) := by
  unfold deleteChild
  by_cases h : c.agrees key i = true
  · obtain ⟨hroot, hend, hu32, hdrop⟩ := of_agrees hkey hi hc h
    obtain ⟨⟨newNode, deleted⟩, hok, haligned, hsame, hbelow⟩ := ih hroot hend
    rw [if_pos h, hu32, hok, hdrop, delete_arcBits hroot]
    obtain rfl | rfl := Bool.eq_false_or_eq_true deleted
    · -- the key was found: the new node is contracted
      have hnew : newNode = nil ∨ newNode.Rooted i := by
        rcases hbelow with ⟨hnil, -, -⟩ | ⟨habs, -⟩
        · exact Or.inl hnil
        · exact Or.inr ⟨haligned, habs ▸ sides_deleteAt hroot.sides _⟩
      have hne : newNode = nil ∨ (newNode.abs i).contract ≠ .nil :=
        hbelow.imp (fun h ↦ h.1) fun h ↦ h.2 hc.wf.full
      obtain ⟨c', hcontract, habs', haligned'⟩ := contractChild_eq hnew hne
      refine ⟨some c', by simp only [hcontract]; rfl, ?_, haligned'⟩
      rw [Option.getD_some, habs']
      rcases hbelow with ⟨hnil, -, hgone⟩ | ⟨habs, -⟩
      · rw [hgone]
        rw [show newNode = nil from hnil]
        rfl
      · rw [habs]
    · -- the key was not found below: nothing changes, and nothing is to be contracted
      refine ⟨none, rfl, ?_, hc.aligned⟩
      have hold : newNode = c := hsame rfl
      rcases hbelow with ⟨hnil, -, -⟩ | ⟨habs, -⟩
      · rw [← hold, show newNode = nil from hnil] at hroot
        exact hroot.sides.elim
      · rw [← habs, Option.getD_none]
        rw [hold]
        obtain _ | ⟨bitstr, n, v, c0, c1⟩ := c
        · rfl
        · exact (contract_of_children hc.wf.full).symm
  · refine ⟨none, by rw [if_neg h], ?_, hc.aligned⟩
    obtain _ | ⟨bitstr, n, v, c0, c1⟩ := c
    · rfl
    · rw [Option.getD_none, abs_node,
        delete_arc_of_not fun hpre ↦ h ((agrees_iff hkey hi hc).mpr hpre)]

/-- **`deleteInternal` deletes as the labels say.** -/
theorem deleteInternal_eq (hc : c.Rooted i) (hend : i + c.arcLen ≤ (bits key).length) :
    ∃ r, deleteInternal key c (i + c.arcLen) = .ok r ∧ Deleted key i c r := by
  induction c generalizing i with
  | nil => exact hc.sides.elim
  | node bitstr n v c0 c1 ih0 ih1 =>
    have h0 := hc.child0
    have h1 := hc.child1
    obtain ⟨hlong, hlen, ha0, ha1⟩ := hc.aligned
    rw [arcLen] at hend
    rcases drop_cases hkey hend with ⟨hbit, hdrop⟩ | ⟨hlt, hne, rest, hdrop⟩
    · by_cases hleaf : c0 = nil ∧ c1 = nil
      · obtain ⟨rfl, rfl⟩ := hleaf
        refine ⟨(nil, true), ?_, trivial, nofun, Or.inl ⟨rfl, hdrop, ?_⟩⟩
        · change deleteInternal key (node bitstr n v nil nil) (i + n) = _
          rw [deleteInternal, if_pos hbit, if_pos (by rfl)]
        · rw [arcLen, hdrop]
          rfl
      · refine ⟨(node bitstr n none c0 c1, true), ?_, ⟨hlong, hlen, ha0, ha1⟩, nofun,
          Or.inr ⟨?_, fun _ ↦ ?_⟩⟩
        · rw [deleteInternal, arcLen, if_pos hbit, if_neg]
          rwa [Bool.and_eq_true, isNil_iff, isNil_iff]
        · rw [arcLen, hdrop]
          rfl
        · apply contract_ne_nil
          intro _
          rwa [Ne, Ne, abs_eq_nil_iff, abs_eq_nil_iff, ← not_and_or]
    · obtain hbit | hbit := Bool.eq_false_or_eq_true (getBit key (i + n))
      · obtain ⟨r, hok, habs, haligned⟩ := deleteChild_eq hkey hlt h1 ih1
        refine ⟨(node bitstr n v c0 (r.getD c1), r.isSome), ?_, ⟨hlong, hlen, ha0, haligned⟩, ?_,
          Or.inr ⟨?_, fun hfull ↦ ?_⟩⟩
        · rw [deleteInternal, arcLen, if_neg hne, hbit, if_pos rfl, hok]
          rfl
        · exact fun hr ↦ congrArg (node bitstr n v c0) (getD_of_isSome hr)
        · rw [abs_node, habs, arcLen, hdrop, hbit]
          rfl
        · exact contract_ne_nil fun hv ↦ Or.inl (hfull hv).1
      · obtain ⟨r, hok, habs, haligned⟩ := deleteChild_eq hkey hlt h0 ih0
        refine ⟨(node bitstr n v (r.getD c0) c1, r.isSome), ?_, ⟨hlong, hlen, haligned, ha1⟩, ?_,
          Or.inr ⟨?_, fun hfull ↦ ?_⟩⟩
        · rw [deleteInternal, arcLen, if_neg hne, hbit, if_neg (by decide), hok]
          rfl
        · exact fun hr ↦ congrArg (node bitstr n v · c1) (getD_of_isSome hr)
        · rw [abs_node, habs, arcLen, hdrop, hbit]
          rfl
        · exact contract_ne_nil fun hv ↦ Or.inr (hfull hv).2

/-! ### Whole tries -/

/-- A trie from its root. -/
structure IsRoot (root : PNode α) : Prop where
  aligned : root.Aligned 0
  abs : (root.abs 0).Root

omit hkey in
theorem isRoot_nil : (nil : PNode α).IsRoot := ⟨trivial, trivial⟩

variable {root : PNode α}

omit hkey in
theorem IsRoot.rooted (h : root.IsRoot) (hne : root ≠ nil) :
    root.Rooted 0 ∧ root.arcLen = 0 ∧ root.arcBits 0 = [] := by
  obtain _ | ⟨bitstr, n, v, c0, c1⟩ := root
  · exact absurd rfl hne
  · obtain ⟨haligned, hlabel, hz, ho, -⟩ := h
    have hn := length_label haligned.2.1
    rw [hlabel] at hn
    exact ⟨⟨haligned, hz, ho⟩, hn.symm, hlabel⟩

theorem get_eq (h : root.IsRoot) : root.get key = (root.abs 0).get (bits key) := by
  by_cases hne : root = nil
  · subst hne
    rfl
  · obtain ⟨hroot, hlen, hbits⟩ := h.rooted hne
    have hget := getInternal_eq hkey hroot (by rw [hlen]; exact Nat.zero_le _)
    rw [hlen, hbits, Nat.zero_add, drop_zero, nil_append] at hget
    rw [← hget]
    obtain _ | ⟨bitstr, n, v, c0, c1⟩ := root
    · exact absurd rfl hne
    · rfl

theorem put_eq (h : root.IsRoot) (value : α) :
    ∃ root', root.put key (some value) = .ok root' ∧ root'.IsRoot ∧
      root'.abs 0 = (root.abs 0).putRoot (bits key) value := by
  -- a root that is there, or the one that is made for an empty trie
  have hstep : ∀ {r : PNode α}, r.Rooted 0 → r.arcLen = 0 → r.arcBits 0 = [] →
      (r.abs 0).put (bits key) value = (root.abs 0).putRoot (bits key) value →
      (putInternal key value r 0).IsRoot ∧
        (putInternal key value r 0).abs 0 = (root.abs 0).putRoot (bits key) value := by
    intro r hr hlen hlabel hput
    obtain ⟨habs, haligned⟩ := putInternal_eq hkey value hr (by rw [hlen]; exact Nat.zero_le _)
    rw [hlen, hlabel, Nat.zero_add, drop_zero, nil_append, hput] at habs
    rw [hlen] at haligned
    exact ⟨⟨haligned, habs ▸ root_putRoot h.abs (bits key) value⟩, habs⟩
  obtain _ | ⟨bitstr, n, v, c0, c1⟩ := root
  · obtain ⟨hroot, habs⟩ := hstep (r := node [] 0 none nil nil)
      ⟨⟨by decide, rfl, trivial, trivial⟩, trivial, trivial⟩ rfl rfl rfl
    exact ⟨_, rfl, hroot, habs⟩
  · obtain ⟨hroot, hlen, hlabel⟩ := h.rooted nofun
    obtain ⟨hroot', habs⟩ := hstep hroot hlen hlabel rfl
    exact ⟨_, rfl, hroot', habs⟩

theorem delete_eq (hne : key ≠ []) (h : root.IsRoot) :
    ∃ root', root.delete key = .ok root' ∧ root'.IsRoot ∧
      root'.abs 0 = (root.abs 0).deleteRoot (bits key) := by
  have hbits : bits key ≠ [] := by rwa [← bits_nil, Ne, bits_inj]
  obtain _ | ⟨bitstr, n, v, c0, c1⟩ := root
  · exact ⟨nil, rfl, isRoot_nil, rfl⟩
  · obtain ⟨hroot, hlen, hlabel⟩ := h.rooted nofun
    obtain ⟨⟨newNode, deleted⟩, hok, haligned, -, hbelow⟩ :=
      deleteInternal_eq hkey hroot (by rw [hlen]; exact Nat.zero_le _)
    rw [hlen, Nat.zero_add] at hok
    rw [hlen, Nat.zero_add, drop_zero] at hbelow
    have habs : newNode.abs 0 = ((node bitstr n v c0 c1).abs 0).deleteAt (bits key) := by
      rcases hbelow with ⟨-, hnil, -⟩ | ⟨habs, -⟩
      · exact absurd hnil hbits
      · exact habs
    have hroot' := root_deleteRoot h.abs hbits
    unfold delete
    simp only [hok, bind, Except.bind]
    obtain _ | ⟨bitstr', n', v', c0', c1'⟩ := newNode
    · exact (habs ▸ sides_deleteAt hroot.sides (bits key)).elim
    · rcases deleteRoot_cases ((node bitstr n v c0 c1).abs 0) (bits key) with
        ⟨label, heq, hgone⟩ | ⟨heq, hmore⟩
      · -- nothing is left
        rw [← habs, abs_node] at heq
        injection heq with _ hv h0 h1
        rw [abs_eq_nil_iff] at h0 h1
        subst hv h0 h1
        exact ⟨nil, rfl, isRoot_nil, hgone.symm⟩
      · rw [heq] at hroot' ⊢
        rw [← habs] at hmore hroot'
        refine ⟨node bitstr' n' v' c0' c1', ?_, ⟨haligned, hroot'⟩, habs⟩
        obtain _ | v' := v'
        · obtain _ | ⟨s0, n0, v0, d0, e0⟩ := c0' <;> obtain _ | ⟨s1, n1, v1, d1, e1⟩ := c1'
          · exact absurd rfl (hmore _)
          all_goals rfl
        · rfl

end Simulation

/-! ## The map -/

/-- The trie holds the entries of the table. -/
structure Represents (root : PNode α) (t : Table Bytes α) : Prop where
  isRoot : root.IsRoot
  get : ∀ K a, (root.abs 0).get K = some a ↔ ∃ k, bits k = K ∧ AList.lookup k t = some a

variable {root : PNode α} {t : Table Bytes α} {path : List Bool}

theorem represents_nil : (nil : PNode α).Represents ∅ := by
  refine ⟨isRoot_nil, fun K a ↦ ⟨nofun, ?_⟩⟩
  rintro ⟨k, -, hk⟩
  cases hk

/-- A trie that differs from another in the lookup of one key. -/
theorem Represents.write (h : root.Represents t) {root' : PNode α} {key : Bytes} {value : Option α}
    (hroot : root'.IsRoot)
    (hget : ∀ K, (root'.abs 0).get K = if K = bits key then value else (root.abs 0).get K) :
    root'.Represents (t.write (key, value)) := by
  refine ⟨hroot, fun K a ↦ ?_⟩
  rw [hget]
  split
  · next heq =>
    subst heq
    constructor
    · intro ha
      exact ⟨key, rfl, by rw [Table.lookup_write, if_pos rfl, ha]⟩
    · rintro ⟨k, hk, ha⟩
      rwa [Table.lookup_write, if_pos (bits_inj.mp hk)] at ha
  · next hne =>
    rw [h.get]
    refine exists_congr fun k ↦ and_congr_right fun hk ↦ ?_
    rw [Table.lookup_write, if_neg fun heq ↦ hne (by rw [← hk, heq])]

/-- The empty key can be written as well. -/
theorem Represents.put (h : root.Represents t) {key : Bytes} (hkey : key.length < 2 ^ 29)
    (value : α) : ∃ root', root.put key (some value) = .ok root' ∧
      root'.Represents (t.write (key, some value)) := by
  obtain ⟨root', hok, hroot', habs⟩ := put_eq hkey h.isRoot value
  exact ⟨root', hok, h.write hroot' fun K ↦ by rw [habs, get_putRoot]⟩

/-- An operation on the trie. -/
inductive Op (α : Type) where
  | put (key : Bytes) (value : Option α)
  | delete (key : Bytes)

/-- The key of an operation and the value it is to have. -/
def Op.write : Op α → Bytes × Option α
  | .put key value => (key, value)
  | .delete key => (key, none)

/-- `Put` and `Delete`. -/
def Op.apply : Op α → PNode α → Except Panic (PNode α)
  | .put key value, root => root.put key value
  | .delete key, root => root.delete key

/-- The operations one after the other. -/
def applyAll (ops : List (Op α)) (root : PNode α) : Except Panic (PNode α) :=
  ops.foldlM (fun root op ↦ op.apply root) root

theorem Represents.apply (h : root.Represents t) {op : Op α} (hne : op.write.1 ≠ [])
    (hkey : op.write.1.length < 2 ^ 29) :
    ∃ root', op.apply root = .ok root' ∧ root'.Represents (t.write op.write) := by
  have hdelete : ∀ {key : Bytes}, key ≠ [] → key.length < 2 ^ 29 →
      ∃ root', root.delete key = .ok root' ∧ root'.Represents (t.write (key, none)) := by
    intro key hne hkey
    obtain ⟨root', hok, hroot', habs⟩ := delete_eq hkey hne h.isRoot
    exact ⟨root', hok, h.write hroot' fun K ↦ by rw [habs, get_deleteRoot h.isRoot.abs]⟩
  obtain ⟨key, _ | value⟩ | key := op
  · exact hdelete hne hkey
  · exact h.put hkey value
  · exact hdelete hne hkey

/-- **Every sequence of operations leaves a trie that holds what they wrote.** -/
theorem Represents.applyAll {ops : List (Op α)} (h : root.Represents t)
    (hne : ∀ op ∈ ops, op.write.1 ≠ []) (hkey : ∀ op ∈ ops, op.write.1.length < 2 ^ 29) :
    ∃ root', applyAll ops root = .ok root' ∧ root'.Represents (t.writeAll (ops.map Op.write)) := by
  induction ops generalizing root t with
  | nil => exact ⟨root, rfl, h⟩
  | cons op ops ih =>
    rw [forall_mem_cons] at hne hkey
    obtain ⟨root₁, hok, h₁⟩ := h.apply hne.1 hkey.1
    obtain ⟨root₂, hok', h₂⟩ := ih h₁ hne.2 hkey.2
    refine ⟨root₂, ?_, h₂⟩
    rw [PNode.applyAll, foldlM_cons, hok]
    exact hok'

theorem Represents.get_eq (h : root.Represents t) {key : Bytes} (hkey : key.length < 2 ^ 29) :
    root.get key = t.lookup key := by
  rw [PNode.get_eq hkey h.isRoot]
  apply Option.ext
  intro a
  rw [h.get]
  constructor
  · rintro ⟨k, hk, ha⟩
    rwa [← bits_inj.mp hk]
  · intro ha
    exact ⟨key, rfl, ha⟩

/-! ## The representation -/

/-- The entries at and below the end of an arc, for an arc at the end of `path`. -/
def entriesAt (path : List Bool) (c : PNode α) : List (List Bool × α) :=
  (c.abs path.length).entries.map fun e ↦ (path ++ e.1, e.2)

/-- The arcs of a subtree, each with the bits on the path to it. -/
def arcs : List Bool → PNode α → List (List Bool × PNode α)
  | _, nil => []
  | path, node bitstr n v c0 c1 =>
    (path, node bitstr n v c0 c1) :: (c0.arcs (path ++ label path.length bitstr n) ++
      c1.arcs (path ++ label path.length bitstr n))

/-- The arcs of a trie. -/
def arcsOf : PNode α → List (List Bool × PNode α)
  | nil => []
  | node _ _ _ c0 c1 => c0.arcs [] ++ c1.arcs []

/-- What the trie keeps to at an arc: the arc is not empty, its bits are those of every key below
it, the node it leads to has a value or two children, and some node at or below its end has a
value. -/
structure ArcInv (t : Table Bytes α) (path : List Bool) (c : PNode α) : Prop where
  nonempty : 0 < c.arcLen
  keys : ∀ K a, (K, a) ∈ c.entriesAt path → ∃ k, bits k = K ∧ AList.lookup k t = some a ∧
    ((bits k).drop path.length).take c.arcLen = c.arcBits path.length
  branches : ∀ bitstr n c0 c1, c = node bitstr n none c0 c1 → c0 ≠ nil ∧ c1 ≠ nil
  hasValue : c.entriesAt path ≠ []

/-- The entries at and below a node at the end of `path`. -/
def entriesFrom (path : List Bool) : PNode α → List (List Bool × α)
  | nil => []
  | node _ _ v c0 c1 =>
    (v.toList.map fun a ↦ (path, a)) ++ (c0.entriesAt path ++ c1.entriesAt path)

@[simp] theorem entriesAt_nil (path : List Bool) : (nil : PNode α).entriesAt path = [] := rfl

theorem length_append_arcBits {c : PNode α} (h : c.Aligned path.length) :
    (path ++ c.arcBits path.length).length = path.length + c.arcLen := by
  obtain _ | ⟨bitstr, n, v, c0, c1⟩ := c
  · rw [arcBits, append_nil]
    rfl
  · rw [length_append, arcBits, length_label h.2.1]
    rfl

theorem entriesAt_eq {c : PNode α} (h : c.Aligned path.length) :
    c.entriesAt path = c.entriesFrom (path ++ c.arcBits path.length) := by
  have hpath := length_append_arcBits h
  obtain _ | ⟨bitstr, n, v, c0, c1⟩ := c
  · rfl
  · rw [arcBits, arcLen] at hpath
    simp only [entriesFrom, entriesAt, arcBits, hpath, abs_node, entries_arc,
      entriesBelow, map_append, map_map, Function.comp_def, append_assoc,
      append_nil]

/-- Every arc of a subtree keeps to `ArcInv`. -/
theorem arcInv_of_shape {b : Bool} {c : PNode α} (h : c.Shape b path.length)
    (hkeys : ∀ e ∈ c.entriesAt path, ∃ k, bits k = e.1 ∧ t.lookup k = some e.2) :
    ∀ e ∈ c.arcs path, ArcInv t e.1 e.2 := by
  induction c generalizing b path with
  | nil => exact forall_mem_nil _
  | node bitstr n v c0 c1 ih0 ih1 =>
    have hroot := h.rooted nofun
    have hlen := h.aligned.2.1
    have hpath : (path ++ label path.length bitstr n).length = path.length + n :=
      length_append_arcBits h.aligned
    have hbelow := hkeys
    rw [entriesAt_eq h.aligned, entriesFrom, forall_mem_append, forall_mem_append] at hbelow
    obtain ⟨-, hkeys0, hkeys1⟩ := hbelow
    refine forall_mem_cons.mpr ⟨⟨h.arcLen_pos, fun K a hK ↦ ?_, ?_, ?_⟩, forall_mem_append.mpr
      ⟨ih0 (hpath ▸ hroot.child0) hkeys0, ih1 (hpath ▸ hroot.child1) hkeys1⟩⟩
    · obtain ⟨k, rfl, ha⟩ := hkeys (K, a) hK
      refine ⟨k, rfl, ha, ?_⟩
      -- the key goes through the arc
      obtain ⟨⟨r, a⟩, hr, heq⟩ := mem_map.mp hK
      obtain ⟨⟨r', a'⟩, -, heq'⟩ := mem_map.mp hr
      cases heq'
      have hk : path ++ (label path.length bitstr n ++ r') = bits k := congrArg Prod.fst heq
      rw [← hk, drop_left, arcLen, take_left' (length_label hlen), arcBits]
    · intro _ _ _ _ heq
      cases heq
      have hchild := h.wf.2.1 rfl
      rwa [Ne, Ne, abs_eq_nil_iff, abs_eq_nil_iff] at hchild
    · rw [entriesAt, Ne, map_eq_nil_iff]
      exact entries_ne_nil h.wf nofun

theorem Represents.mem_entries (h : root.Represents t) {K : List Bool} {a : α} :
    (K, a) ∈ (root.abs 0).entries ↔ ∃ k, bits k = K ∧ t.lookup k = some a := by
  rw [mem_entries_of_root h.isRoot.abs, h.get]

/-- **Every arc of a trie keeps to `ArcInv`.** -/
theorem Represents.arcInv (h : root.Represents t) : ∀ e ∈ root.arcsOf, ArcInv t e.1 e.2 := by
  by_cases hne : root = nil
  · subst hne
    exact forall_mem_nil _
  · obtain ⟨hroot, hlen, hlabel⟩ := h.isRoot.rooted hne
    obtain _ | ⟨bitstr, n, v, c0, c1⟩ := root
    · exact absurd rfl hne
    · cases hlen
      have hkeys : ∀ e ∈ c0.entriesAt [] ++ c1.entriesAt [],
          ∃ k, bits k = e.1 ∧ t.lookup k = some e.2 := by
        intro e he
        rw [← h.mem_entries, abs_node, entries_arc, show label 0 bitstr 0 = [] from hlabel]
        simp only [entriesAt, nil_append, map_id'] at he
        simpa [entriesBelow] using .inr (mem_append.mp he)
      obtain ⟨hkeys0, hkeys1⟩ := forall_mem_append.mp hkeys
      exact forall_mem_append.mpr
        ⟨arcInv_of_shape hroot.child0 hkeys0, arcInv_of_shape hroot.child1 hkeys1⟩

end PNode

end Vanadium.Ptrie
