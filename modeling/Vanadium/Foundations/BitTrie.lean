import Vanadium.Foundations.Bits

/-!
# Path-contracted binary tries

A binary trie whose arcs carry bit strings. A node holds a value or branches on the next bit, and a
node that does neither is contracted into the arc through it. Here the labels are plain lists of
bits; a representation of them is compared with this trie by reading its labels off.

Under the shape condition `WF` a trie is a map: writing and deleting a key change the lookup of that
key only (`get_put`, `get_delete`), and the entries, listed in depth-first order, are those the
lookups find, in increasing order of keys (`mem_entries`, `pairwise_entries`).
-/

namespace Vanadium.Foundations

open List

/-- An arc with its label, and the node it leads to. -/
inductive BitTrie (ν : Type) where
  | nil
  | arc (label : List Bool) (value : Option ν) (zero one : BitTrie ν)

namespace BitTrie

variable {ν : Type}

/-! ## Lookups -/

/-- The value at a key. -/
def get : BitTrie ν → List Bool → Option ν
  | nil, _ => none
  | arc label value zero one, key =>
    if label <+: key then
      match key.drop label.length with
      | [] => value
      | false :: rest => zero.get (false :: rest)
      | true :: rest => one.get (true :: rest)
    else none

/-- The lookup below a node. -/
def getBelow (value : Option ν) (zero one : BitTrie ν) : List Bool → Option ν
  | [] => value
  | false :: rest => zero.get (false :: rest)
  | true :: rest => one.get (true :: rest)

@[simp] theorem get_nil (key : List Bool) : (nil : BitTrie ν).get key = none := rfl

variable {label : List Bool} {value : Option ν} {zero one : BitTrie ν}

@[simp] theorem get_arc_append (key : List Bool) :
    (arc label value zero one).get (label ++ key) = getBelow value zero one key := by
  rw [get, if_pos (prefix_append _ _), drop_left]
  obtain _ | ⟨_ | _, key⟩ := key <;> rfl

variable {key : List Bool} {t : BitTrie ν} {b : Bool} {v : ν}

theorem get_arc_of_not (h : ¬label <+: key) : (arc label value zero one).get key = none := by
  rw [get, if_neg h]

/-- A common part of label and key can be left out. -/
theorem get_append_label (upper k : List Bool) :
    (arc (upper ++ label) value zero one).get (upper ++ k) = (arc label value zero one).get k := by
  simp only [get, prefix_append_right_inj, length_append, drop_append, Nat.add_sub_cancel_left]
  rw [drop_of_length_le (Nat.le_add_right _ _), nil_append]

/-- Every lookup either leaves the label or goes on below the node. -/
theorem prefix_cases (label key : List Bool) : (∃ k, key = label ++ k) ∨ ¬label <+: key := by
  by_cases h : label <+: key
  · obtain ⟨k, rfl⟩ := h
    exact Or.inl ⟨k, rfl⟩
  · exact Or.inr h

/-! ## The shape of a contracted trie -/

/-- The label of an arc starts with the bit it stands for, and a node without a value has two
arcs. -/
def WF : Bool → BitTrie ν → Prop
  | _, nil => True
  | b, arc label value zero one =>
    label.head? = some b ∧ (value = none → zero ≠ nil ∧ one ≠ nil) ∧ zero.WF false ∧ one.WF true

/-- The arcs below a node are contracted tries. The arc to the node may be empty. -/
def Sides : BitTrie ν → Prop
  | nil => False
  | arc _ _ zero one => zero.WF false ∧ one.WF true

theorem WF.sides (h : t.WF b) (ht : t ≠ nil) : t.Sides := by
  obtain _ | ⟨label, value, zero, one⟩ := t
  · exact absurd rfl ht
  · exact h.2.2

theorem head?_of_get (h : t.WF b) (hkey : t.get key = some v) : key.head? = some b := by
  obtain _ | ⟨label, value, zero, one⟩ := t
  · cases hkey
  · rcases prefix_cases label key with ⟨k, rfl⟩ | hnot
    · rw [head?_append, h.1]
      rfl
    · cases (get_arc_of_not hnot).symm.trans hkey

theorem WF.get_eq_none (h : t.WF b) (hkey : key.head? ≠ some b) : t.get key = none :=
  Option.eq_none_iff_forall_ne_some.mpr fun _ hget ↦ hkey (head?_of_get h hget)

/-! ## Entries -/

/-- The entries of a trie in depth-first order. -/
def entries : BitTrie ν → List (List Bool × ν)
  | nil => []
  | arc label value zero one =>
    ((value.toList.map fun v ↦ ([], v)) ++ (zero.entries ++ one.entries)).map
      fun e : List Bool × ν ↦ (label ++ e.1, e.2)

/-- The entries at and below a node, without the label of the arc to it. -/
def entriesBelow (value : Option ν) (zero one : BitTrie ν) : List (List Bool × ν) :=
  (value.toList.map fun v ↦ ([], v)) ++ (zero.entries ++ one.entries)

theorem entries_arc : (arc label value zero one).entries =
    (entriesBelow value zero one).map fun e ↦ (label ++ e.1, e.2) := rfl

/-- The entries below a node, given those of its children. -/
theorem mem_entries_arc (hz : zero.WF false) (ho : one.WF true)
    (hzero : ∀ k, (k, v) ∈ zero.entries ↔ zero.get k = some v)
    (hone : ∀ k, (k, v) ∈ one.entries ↔ one.get k = some v) :
    (key, v) ∈ (arc label value zero one).entries ↔
      (arc label value zero one).get key = some v := by
  have hbelow : ∀ k, (k, v) ∈ entriesBelow value zero one ↔ getBelow value zero one k = some v := by
    intro k
    have hvalue : (k, v) ∈ value.toList.map (fun v ↦ (([] : List Bool), v)) ↔
        k = [] ∧ value = some v := by
      cases value <;> simp [and_comm, eq_comm]
    rw [entriesBelow, mem_append, mem_append, hzero, hone, hvalue]
    -- the three parts hold keys with different heads
    have hfalse : zero.get k = some v → k.head? = some false := head?_of_get hz
    have htrue : one.get k = some v → k.head? = some true := head?_of_get ho
    obtain _ | ⟨_ | _, k⟩ := k <;> simp_all [getBelow]
  rw [entries_arc, mem_map]
  constructor
  · rintro ⟨⟨k, w⟩, hmem, heq⟩
    cases heq
    rw [get_arc_append]
    exact (hbelow k).mp hmem
  · intro hget
    rcases prefix_cases label key with ⟨k, rfl⟩ | hnot
    · rw [get_arc_append] at hget
      exact ⟨(k, v), (hbelow k).mpr hget, rfl⟩
    · rw [get_arc_of_not hnot] at hget
      cases hget

theorem mem_entries (h : t.WF b) : (key, v) ∈ t.entries ↔ t.get key = some v := by
  induction t generalizing b key with
  | nil => simp [entries]
  | arc label value zero one ihz iho =>
    obtain ⟨-, -, hz, ho⟩ := h
    exact mem_entries_arc hz ho (fun k ↦ ihz hz) fun k ↦ iho ho

theorem head?_of_mem_entries (h : t.WF b) {e : List Bool × ν}
    (he : e ∈ t.entries) : e.1.head? = some b :=
  head?_of_get h ((mem_entries h).mp he)

theorem append_lt_append_left_iff (l : List Bool) {a b : List Bool} : l ++ a < l ++ b ↔ a < b := by
  induction l with
  | nil => rfl
  | cons x l ih => rw [cons_append, cons_append, cons_lt_cons_iff, ih]; simp

/-- Keys that start with a zero come before those that start with a one. -/
theorem lt_of_head? {k k' : List Bool} (h : k.head? = some false) (h' : k'.head? = some true) :
    k < k' := by
  obtain ⟨r, rfl⟩ := head?_eq_some_iff.mp h
  obtain ⟨r', rfl⟩ := head?_eq_some_iff.mp h'
  exact cons_lt_cons_iff.mpr (Or.inl (by decide))

theorem nil_lt_of_head? {k : List Bool} (h : k.head? = some b) : [] < k := by
  obtain ⟨r, rfl⟩ := head?_eq_some_iff.mp h
  exact nil_lt_cons _ _

theorem pairwise_entriesBelow (hz : zero.WF false) (ho : one.WF true)
    (hzero : zero.entries.Pairwise fun e e' ↦ e.1 < e'.1)
    (hone : one.entries.Pairwise fun e e' ↦ e.1 < e'.1) :
    (entriesBelow value zero one).Pairwise fun e e' ↦ e.1 < e'.1 := by
  rw [entriesBelow, pairwise_append, pairwise_append]
  refine ⟨by cases value <;> simp, ⟨hzero, hone, fun e he e' he' ↦ ?_⟩, fun e he e' he' ↦ ?_⟩
  · exact lt_of_head? (head?_of_mem_entries hz he) (head?_of_mem_entries ho he')
  · obtain ⟨v, -, rfl⟩ := mem_map.mp he
    rcases mem_append.mp he' with hmem | hmem
    · exact nil_lt_of_head? (head?_of_mem_entries hz hmem)
    · exact nil_lt_of_head? (head?_of_mem_entries ho hmem)

theorem pairwise_entries (h : t.WF b) : t.entries.Pairwise fun e e' ↦ e.1 < e'.1 := by
  induction t generalizing b with
  | nil => exact List.Pairwise.nil
  | arc label value zero one ihz iho =>
    obtain ⟨-, -, hz, ho⟩ := h
    rw [entries_arc, pairwise_map]
    exact (pairwise_entriesBelow hz ho (ihz hz) (iho ho)).imp
      fun hlt ↦ (append_lt_append_left_iff label).mpr hlt

/-- Every subtree holds a value. -/
theorem entries_ne_nil (h : t.WF b) (ht : t ≠ nil) : t.entries ≠ [] := by
  induction t generalizing b with
  | nil => exact absurd rfl ht
  | arc label value zero one ihz _ =>
    obtain ⟨-, hchild, hz, -⟩ := h
    rw [entries_arc, Ne, map_eq_nil_iff, entriesBelow]
    obtain _ | v := value
    · intro hnil
      exact ihz hz (hchild rfl).1 (append_eq_nil_iff.mp (append_eq_nil_iff.mp hnil).2).1
    · simp

/-! ## Writing a key -/

/-- A new node at the end of `upper`: it takes the rest of the old label on one side, and the value
itself or a new arc on the other. -/
def fork (upper rest : List Bool) (v : ν) (lower : List Bool) (value : Option ν)
    (zero one : BitTrie ν) : BitTrie ν :=
  match rest, lower.head? with
  | [], some true => arc upper (some v) nil (arc lower value zero one)
  | [], _ => arc upper (some v) (arc lower value zero one) nil
  | _ :: _, some true => arc upper none (arc rest (some v) nil nil) (arc lower value zero one)
  | _ :: _, _ => arc upper none (arc lower value zero one) (arc rest (some v) nil nil)

/-- Map the key to the value. -/
def put : BitTrie ν → List Bool → ν → BitTrie ν
  | nil, key, v => arc key (some v) nil nil
  | arc label value zero one, key, v =>
    if label <+: key then
      match key.drop label.length with
      | [] => arc label (some v) zero one
      | false :: rest => arc label value (zero.put (false :: rest) v) one
      | true :: rest => arc label value zero (one.put (true :: rest) v)
    else
      fork (label.take (lcp label key)) (key.drop (lcp label key)) v
        (label.drop (lcp label key)) value zero one

/-- Writing below a node. -/
def putBelow (label : List Bool) (value : Option ν) (zero one : BitTrie ν) (v : ν) :
    List Bool → BitTrie ν
  | [] => arc label (some v) zero one
  | false :: rest => arc label value (zero.put (false :: rest) v) one
  | true :: rest => arc label value zero (one.put (true :: rest) v)

@[simp] theorem put_arc_append (key : List Bool) (v : ν) :
    (arc label value zero one).put (label ++ key) v = putBelow label value zero one v key := by
  rw [put, if_pos (prefix_append _ _), drop_left]
  obtain _ | ⟨_ | _, key⟩ := key <;> rfl

/-- Outside its label an arc is split where the key leaves it. -/
theorem put_arc_of_not (h : ¬label <+: key) (value : Option ν) (zero one : BitTrie ν) (v : ν) :
    ∃ (upper lower rest : List Bool) (b : Bool), label = upper ++ b :: lower ∧
      key = upper ++ rest ∧ rest.head? ≠ some b ∧ upper.length = lcp label key ∧
      (arc label value zero one).put key v = fork upper rest v (b :: lower) value zero one := by
  obtain ⟨upper, lower, rest, b, hlabel, hkey, hrest, hlen⟩ := exists_split_of_not_prefix h
  refine ⟨upper, lower, rest, b, hlabel, hkey, hrest, hlen, ?_⟩
  have hput : (arc label value zero one).put key v = fork (label.take (lcp label key))
      (key.drop (lcp label key)) v (label.drop (lcp label key)) value zero one := by
    rw [put, if_neg h]
  rw [hput, ← hlen]
  conv_lhs => rw [hkey, hlabel]
  rw [take_left, drop_left, drop_left]

theorem get_leaf (rest k : List Bool) (v : ν) :
    (arc rest (some v) nil nil).get k = if k = rest then some v else none := by
  rcases prefix_cases rest k with ⟨r, rfl⟩ | hnot
  · rw [get_arc_append]
    obtain _ | ⟨_ | _, r⟩ := r <;> simp [getBelow]
  · rw [get_arc_of_not hnot, if_neg]
    rintro rfl
    exact hnot prefix_rfl

theorem get_fork {upper rest lower : List Bool} (hrest : rest.head? ≠ some b) (v : ν)
    (k : List Bool) :
    (fork upper rest v (b :: lower) value zero one).get k =
      if k = upper ++ rest then some v
      else (arc (upper ++ b :: lower) value zero one).get k := by
  rcases prefix_cases upper k with ⟨r, rfl⟩ | hnot
  · -- below the new node the lookup is the one below the old label, or finds the new value
    have hempty : (arc (b :: lower) value zero one).get [] = none :=
      get_arc_of_not fun h ↦ cons_ne_nil _ _ (prefix_nil.mp h)
    have hside : ∀ {c : Bool} {s : List Bool}, c ≠ b →
        (arc (b :: lower) value zero one).get (c :: s) = none := fun hc ↦
      get_arc_of_not fun h ↦ hc (cons_prefix_cons.mp h).1.symm
    rw [get_append_label]
    obtain _ | ⟨c, rest⟩ := rest <;> obtain _ | _ := b <;> simp only [fork, head?_cons] <;>
      rw [get_arc_append] <;> obtain _ | ⟨_ | _, r⟩ := r <;>
      simp_all [getBelow, get_leaf]
  · have hne : ∀ s, k ≠ upper ++ s := fun s h ↦ hnot ⟨s, h.symm⟩
    rw [if_neg (hne _), get_arc_of_not fun h ↦ hnot ((prefix_append _ _).trans h)]
    obtain _ | ⟨c, rest⟩ := rest <;> obtain _ | _ := b <;> exact get_arc_of_not hnot

/-- **Writing a key changes its lookup only.** -/
theorem get_put (t : BitTrie ν) (key : List Bool) (v : ν) (k : List Bool) :
    (t.put key v).get k = if k = key then some v else t.get k := by
  induction t generalizing key k with
  | nil => exact get_leaf key k v
  | arc label value zero one ihz iho =>
    rcases prefix_cases label key with ⟨rest, rfl⟩ | hnot
    · rw [put_arc_append]
      rcases prefix_cases label k with ⟨r, rfl⟩ | hk
      · simp only [append_cancel_left_eq, get_arc_append]
        obtain _ | ⟨_ | _, rest⟩ := rest <;> rw [putBelow, get_arc_append] <;>
          obtain _ | ⟨_ | _, r⟩ := r <;> simp [getBelow, ihz, iho]
      · have hne : k ≠ label ++ rest := fun h ↦ hk ⟨rest, h.symm⟩
        rw [if_neg hne, get_arc_of_not hk]
        obtain _ | ⟨_ | _, rest⟩ := rest <;> exact get_arc_of_not hk
    · obtain ⟨upper, lower, rest, b, rfl, rfl, hrest, -, hput⟩ :=
        put_arc_of_not hnot value zero one v
      rw [hput, get_fork hrest]

theorem put_ne_nil (t : BitTrie ν) (key : List Bool) (v : ν) : t.put key v ≠ nil := by
  intro hnil
  have hget := get_put t key v key
  rw [hnil, if_pos rfl] at hget
  cases hget

theorem wf_fork {upper rest lower : List Bool} {c : Bool} (hupper : upper.head? = some c)
    (hrest : rest.head? ≠ some b) (h : (arc (b :: lower) value zero one).WF b) (v : ν) :
    (fork upper rest v (b :: lower) value zero one).WF c := by
  obtain _ | ⟨d, rest⟩ := rest <;> obtain _ | _ := b
  · exact ⟨hupper, by simp, h, trivial⟩
  · exact ⟨hupper, by simp, trivial, h⟩
  · obtain rfl : d = true := by simpa using hrest
    exact ⟨hupper, by simp, h, rfl, by simp, trivial, trivial⟩
  · obtain rfl : d = false := by simpa using hrest
    exact ⟨hupper, by simp, ⟨rfl, by simp, trivial, trivial⟩, h⟩

theorem wf_put (h : t.WF b) (hkey : key.head? = some b) (v : ν) : (t.put key v).WF b := by
  induction t generalizing b key with
  | nil => exact ⟨hkey, by simp, trivial, trivial⟩
  | arc label value zero one ihz iho =>
    obtain ⟨hlabel, hchild, hz, ho⟩ := h
    rcases prefix_cases label key with ⟨rest, rfl⟩ | hnot
    · rw [put_arc_append]
      obtain _ | ⟨_ | _, rest⟩ := rest
      · exact ⟨hlabel, by simp, hz, ho⟩
      · exact ⟨hlabel, fun hv ↦ ⟨put_ne_nil _ _ _, (hchild hv).2⟩, ihz hz rfl, ho⟩
      · exact ⟨hlabel, fun hv ↦ ⟨(hchild hv).1, put_ne_nil _ _ _⟩, hz, iho ho rfl⟩
    · obtain ⟨upper, lower, rest, c, rfl, rfl, hrest, -, hput⟩ :=
        put_arc_of_not hnot value zero one v
      rw [hput]
      -- label and key start with the same bit, so they part after it
      have hupper : upper.head? = some b := by
        obtain _ | ⟨a, upper⟩ := upper
        · rw [nil_append, head?_cons] at hlabel
          rw [nil_append] at hkey
          exact absurd (hkey.trans hlabel.symm) hrest
        · exact hlabel
      exact wf_fork hupper hrest ⟨rfl, hchild, hz, ho⟩ v

/-! ## Deleting a key -/

/-- A node without a value is joined to its only arc, or dropped if it has none. -/
def contract : BitTrie ν → BitTrie ν
  | arc _ none nil nil => nil
  | arc label none nil (arc label' value zero one) => arc (label ++ label') value zero one
  | arc label none (arc label' value zero one) nil => arc (label ++ label') value zero one
  | t => t

/-- Remove the key. -/
def delete : BitTrie ν → List Bool → BitTrie ν
  | nil, _ => nil
  | arc label value zero one, key =>
    if label <+: key then
      match key.drop label.length with
      | [] => contract (arc label none zero one)
      | false :: rest => contract (arc label value (zero.delete (false :: rest)) one)
      | true :: rest => contract (arc label value zero (one.delete (true :: rest)))
    else arc label value zero one

/-- Removing a key below a node, which is left as it is. -/
def deleteBelow (label : List Bool) (value : Option ν) (zero one : BitTrie ν) :
    List Bool → BitTrie ν
  | [] => arc label none zero one
  | false :: rest => arc label value (zero.delete (false :: rest)) one
  | true :: rest => arc label value zero (one.delete (true :: rest))

/-- Removing a key below the node an arc leads to. -/
def deleteAt : BitTrie ν → List Bool → BitTrie ν
  | nil, _ => nil
  | arc label value zero one, key => deleteBelow label value zero one key

theorem delete_arc_append (key : List Bool) :
    (arc label value zero one).delete (label ++ key) =
      contract (deleteBelow label value zero one key) := by
  rw [delete, if_pos (prefix_append _ _), drop_left]
  obtain _ | ⟨_ | _, key⟩ := key <;> rfl

theorem delete_arc_of_not (h : ¬label <+: key) :
    (arc label value zero one).delete key = arc label value zero one := by
  rw [delete, if_neg h]

/-- A node without a value has two arcs. -/
def Full : BitTrie ν → Prop
  | nil => True
  | arc _ value zero one => value = none → zero ≠ nil ∧ one ≠ nil

theorem WF.full (h : t.WF b) : t.Full := by
  obtain _ | ⟨label, value, zero, one⟩ := t
  · trivial
  · exact h.2.1

theorem contract_of_children (h : (arc label value zero one).Full) :
    contract (arc label value zero one) = arc label value zero one := by
  obtain _ | v := value
  · obtain ⟨hz, ho⟩ := h rfl
    obtain _ | ⟨l, v, z, o⟩ := zero
    · exact absurd rfl hz
    · obtain _ | ⟨l', v', z', o'⟩ := one
      · exact absurd rfl ho
      · rfl
  · rfl

/-- Only a node without value and children is dropped. -/
theorem contract_ne_nil (h : value = none → zero ≠ nil ∨ one ≠ nil) :
    contract (arc label value zero one) ≠ nil := by
  obtain _ | v := value
  · obtain _ | ⟨l, v, z, o⟩ := zero <;> obtain _ | ⟨l', v', z', o'⟩ := one
    · rcases h rfl with hz | ho
      · exact absurd rfl hz
      · exact absurd rfl ho
    all_goals exact nofun
  · exact nofun

theorem get_contract (hz : zero.WF false) (ho : one.WF true) (k : List Bool) :
    (contract (arc label value zero one)).get k = (arc label value zero one).get k := by
  obtain _ | v := value
  · rcases prefix_cases label k with ⟨r, rfl⟩ | hnot
    · rw [get_arc_append]
      obtain _ | ⟨l, v, z, o⟩ := zero <;> obtain _ | ⟨l', v', z', o'⟩ := one
      · obtain _ | ⟨_ | _, r⟩ := r <;> rfl
      · -- a lookup on the other side fails at the joined label, too
        rw [contract, get_append_label]
        obtain _ | ⟨_ | _, r⟩ := r
        · exact ho.get_eq_none (by simp)
        · exact ho.get_eq_none (by simp)
        · rfl
      · rw [contract, get_append_label]
        obtain _ | ⟨_ | _, r⟩ := r
        · exact hz.get_eq_none (by simp)
        · rfl
        · exact hz.get_eq_none (by simp)
      · rw [contract_of_children (by simp [Full]), get_arc_append]
    · have hnot' : ∀ l, ¬label ++ l <+: k := fun l h ↦ hnot ((prefix_append _ _).trans h)
      rw [get_arc_of_not hnot]
      obtain _ | ⟨l, v, z, o⟩ := zero <;> obtain _ | ⟨l', v', z', o'⟩ := one
      · rfl
      · exact get_arc_of_not (hnot' l')
      · exact get_arc_of_not (hnot' l)
      · exact get_arc_of_not hnot
  · rfl

theorem wf_contract (hlabel : label.head? = some b) (hz : zero.WF false)
    (ho : one.WF true) : (contract (arc label value zero one)).WF b := by
  have hjoin : ∀ l, (label ++ l).head? = some b := fun l ↦ by
    rw [head?_append, hlabel, Option.some_or]
  obtain _ | v := value
  · obtain _ | ⟨l, v, z, o⟩ := zero <;> obtain _ | ⟨l', v', z', o'⟩ := one
    · trivial
    · exact ⟨hjoin l', ho.2⟩
    · exact ⟨hjoin l, hz.2⟩
    · rw [contract_of_children (by simp [Full])]
      exact ⟨hlabel, by simp, hz, ho⟩
  · exact ⟨hlabel, by simp, hz, ho⟩

theorem wf_delete (h : t.WF b) (key : List Bool) : (t.delete key).WF b := by
  induction t generalizing b key with
  | nil => trivial
  | arc label value zero one ihz iho =>
    rcases prefix_cases label key with ⟨rest, rfl⟩ | hnot
    · obtain ⟨hlabel, -, hz, ho⟩ := h
      rw [delete_arc_append]
      obtain _ | ⟨_ | _, rest⟩ := rest
      · exact wf_contract hlabel hz ho
      · exact wf_contract hlabel (ihz hz _) ho
      · exact wf_contract hlabel hz (iho ho _)
    · rw [delete_arc_of_not hnot]
      exact h

theorem sides_deleteAt (h : t.Sides) (key : List Bool) : (t.deleteAt key).Sides := by
  obtain _ | ⟨label, value, zero, one⟩ := t
  · exact h.elim
  · obtain ⟨hz, ho⟩ := h
    obtain _ | ⟨_ | _, key⟩ := key
    · exact ⟨hz, ho⟩
    · exact ⟨wf_delete hz _, ho⟩
    · exact ⟨hz, wf_delete ho _⟩

/-- The lookups below a node after a deletion there. -/
theorem get_deleteBelow (hzero : ∀ r k, (zero.delete r).get k = if k = r then none else zero.get k)
    (hone : ∀ r k, (one.delete r).get k = if k = r then none else one.get k) (k : List Bool) :
    (deleteBelow label value zero one key).get k =
      if k = label ++ key then none else (arc label value zero one).get k := by
  rcases prefix_cases label k with ⟨r, rfl⟩ | hk
  · simp only [append_cancel_left_eq, get_arc_append]
    obtain _ | ⟨_ | _, key⟩ := key <;> rw [deleteBelow, get_arc_append] <;>
      obtain _ | ⟨_ | _, r⟩ := r <;> simp [getBelow, hzero, hone]
  · have hne : k ≠ label ++ key := fun h ↦ hk ⟨key, h.symm⟩
    rw [if_neg hne, get_arc_of_not hk]
    obtain _ | ⟨_ | _, key⟩ := key <;> exact get_arc_of_not hk

/-- **Deleting a key changes its lookup only.** -/
theorem get_delete (h : t.WF b) (key k : List Bool) :
    (t.delete key).get k = if k = key then none else t.get k := by
  induction t generalizing b key k with
  | nil => simp [delete]
  | arc label value zero one ihz iho =>
    rcases prefix_cases label key with ⟨rest, rfl⟩ | hnot
    · obtain ⟨-, -, hz, ho⟩ := h
      rw [delete_arc_append, ← get_deleteBelow (ihz hz) (iho ho)]
      obtain _ | ⟨_ | _, rest⟩ := rest
      · exact get_contract hz ho k
      · exact get_contract (wf_delete hz _) ho k
      · exact get_contract hz (wf_delete ho _) k
    · rw [delete_arc_of_not hnot]
      split
      · next heq => rw [heq, get_arc_of_not hnot]
      · rfl

/-! ## Whole tries

The root has an empty arc. It is not contracted, and is absent when the trie is empty. -/

/-- A trie from its root. -/
def Root : BitTrie ν → Prop
  | nil => True
  | arc label value zero one =>
    label = [] ∧ zero.WF false ∧ one.WF true ∧ (value = none → zero ≠ nil ∨ one ≠ nil)

/-- Map the key to the value. -/
def putRoot (t : BitTrie ν) (key : List Bool) (v : ν) : BitTrie ν :=
  match t with
  | nil => (arc [] none nil nil).put key v
  | t => t.put key v

/-- Remove the key. -/
def deleteRoot (t : BitTrie ν) (key : List Bool) : BitTrie ν :=
  match t.deleteAt key with
  | arc _ none nil nil => nil
  | t => t

theorem get_bare (k : List Bool) : (arc label none nil nil : BitTrie ν).get k = none := by
  rcases prefix_cases label k with ⟨r, rfl⟩ | hnot
  · rw [get_arc_append]
    obtain _ | ⟨_ | _, r⟩ := r <;> rfl
  · exact get_arc_of_not hnot

theorem get_putRoot (t : BitTrie ν) (key : List Bool) (v : ν) (k : List Bool) :
    (t.putRoot key v).get k = if k = key then some v else t.get k := by
  obtain _ | ⟨label, value, zero, one⟩ := t
  · rw [putRoot, get_put, get_bare, get_nil]
  · exact get_put _ key v k

theorem root_putRoot (h : t.Root) (key : List Bool) (v : ν) : (t.putRoot key v).Root := by
  -- below the root the key goes to the side of its first bit
  have hput : ∀ {value : Option ν} {zero one : BitTrie ν}, zero.WF false → one.WF true →
      ((arc [] value zero one).put key v).Root := by
    intro value zero one hz ho
    rw [← nil_append key, put_arc_append]
    obtain _ | ⟨_ | _, key⟩ := key
    · exact ⟨rfl, hz, ho, fun hv ↦ absurd hv (Option.some_ne_none v)⟩
    · exact ⟨rfl, wf_put hz rfl v, ho, fun _ ↦ Or.inl (put_ne_nil _ _ _)⟩
    · exact ⟨rfl, hz, wf_put ho rfl v, fun _ ↦ Or.inr (put_ne_nil _ _ _)⟩
  obtain _ | ⟨label, value, zero, one⟩ := t
  · exact hput trivial trivial
  · obtain ⟨rfl, hz, ho, -⟩ := h
    exact hput hz ho

/-- A root without children is dropped, and only such a one. -/
theorem deleteRoot_cases (t : BitTrie ν) (key : List Bool) :
    (∃ label, t.deleteAt key = arc label none nil nil ∧ t.deleteRoot key = nil) ∨
      t.deleteRoot key = t.deleteAt key ∧ ∀ label, t.deleteAt key ≠ arc label none nil nil := by
  unfold deleteRoot
  split
  · next label heq => exact Or.inl ⟨label, heq, rfl⟩
  · next hne => exact Or.inr ⟨rfl, fun label heq ↦ hne label heq⟩

theorem get_deleteRoot (h : t.Root) (key k : List Bool) :
    (t.deleteRoot key).get k = if k = key then none else t.get k := by
  have hat : (t.deleteAt key).get k = if k = key then none else t.get k := by
    obtain _ | ⟨label, value, zero, one⟩ := t
    · simp [deleteAt]
    · obtain ⟨rfl, hz, ho, -⟩ := h
      exact get_deleteBelow (get_delete hz) (get_delete ho) k
  rcases deleteRoot_cases t key with ⟨label, heq, hnil⟩ | ⟨heq, -⟩
  · rw [hnil, ← hat, heq, get_nil, get_bare]
  · rw [heq, hat]

theorem root_deleteRoot (h : t.Root) (hkey : key ≠ []) : (t.deleteRoot key).Root := by
  rcases deleteRoot_cases t key with ⟨label, -, hnil⟩ | ⟨heq, hne⟩
  · rw [hnil]
    trivial
  · rw [heq]
    obtain _ | ⟨label, value, zero, one⟩ := t
    · trivial
    · obtain ⟨rfl, hz, ho, -⟩ := h
      -- what is left is not the bare root
      have hchild : ∀ {z o : BitTrie ν}, (arc [] value zero one).deleteAt key = arc [] value z o →
          value = none → z ≠ nil ∨ o ≠ nil := by
        rintro z o hzo rfl
        rw [← not_and_or]
        rintro ⟨rfl, rfl⟩
        exact hne [] hzo
      obtain _ | ⟨_ | _, key⟩ := key
      · exact absurd rfl hkey
      · exact ⟨rfl, wf_delete hz _, ho, hchild rfl⟩
      · exact ⟨rfl, hz, wf_delete ho _, hchild rfl⟩

theorem mem_entries_of_root (h : t.Root) : (key, v) ∈ t.entries ↔ t.get key = some v := by
  obtain _ | ⟨label, value, zero, one⟩ := t
  · simp [entries]
  · obtain ⟨-, hz, ho, -⟩ := h
    exact mem_entries_arc hz ho (fun k ↦ mem_entries hz) fun k ↦ mem_entries ho

theorem pairwise_entries_of_root (h : t.Root) : t.entries.Pairwise fun e e' ↦ e.1 < e'.1 := by
  obtain _ | ⟨label, value, zero, one⟩ := t
  · exact List.Pairwise.nil
  · obtain ⟨rfl, hz, ho, -⟩ := h
    rw [entries_arc, pairwise_map]
    exact pairwise_entriesBelow hz ho (pairwise_entries hz) (pairwise_entries ho)

end BitTrie

end Vanadium.Foundations
