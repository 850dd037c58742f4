import Vanadium.Store.Ptrie

/-!
# Scanning the trie

A stream walks the trie depth first. Between two calls of `Advance` it keeps the nodes on the path
to the current one, each with the child the path goes on with; the key is put together from the
arcs on the way.

What is still to come is read off the stack (`later`): at each node on it the children after the
one taken. The search for the first key (`lowerBound`) leaves a stack from which exactly the keys
from `start` on are to come, and every step of the walk takes the first of them.
-/

namespace Vanadium.Ptrie

open Foundations Table Store PNode
open List hiding nil

variable {α : Type}

/-! ## The stream -/

/-- `dfsStackElement`. Before the first child `childID` is -1, here `none`. -/
structure Frame (α : Type) where
  node : PNode α
  childID : Option Bool

/-- `Stream`. The top of the stack is the first element of `dfsStack`. -/
structure Stream (α : Type) where
  dfsStack : List (Frame α) := []
  limit : Bytes := []
  hasAdvanced : Bool := false
  hasValue : Bool := false
  key : Bytes := []

/-- `findFirst`: the stack with the path to the first node with a value. -/
def findFirst : PNode α → List (Frame α) → Except Panic (List (Frame α))
  | nil, _ => .error .nilDereference
  | node bitstr n v c0 c1, stack =>
    if v.isSome then .ok (⟨node bitstr n v c0 c1, none⟩ :: stack)
    else if !c0.isNil then findFirst c0 (⟨node bitstr n v c0 c1, some false⟩ :: stack)
    else if !c1.isNil then findFirst c1 (⟨node bitstr n v c0 c1, some true⟩ :: stack)
    else .error .noValue

/-- The step of `lowerBound` to a child, given what it does at the child's node. -/
def lowerBoundChild (start : Bytes) (bitIndex : ℕ) (child : PNode α) (stack : List (Frame α))
    (deeper : Except Panic (Option (List (Frame α)))) : Except Panic (Option (List (Frame α))) :=
  let lcp := child.bitLCP (start.drop (bitIndex / 8)) (bitIndex % 8)
  if child.isNil then .ok none
  else if lcp < child.arcLen then
    if u32 (bitIndex + lcp) = bitlen start ∨
        u32 (bitIndex + lcp) < bitlen start ∧ getBit start (u32 (bitIndex + lcp)) = false then
      (findFirst child stack).map some
    else .ok none
  else deeper

/-- `lowerBound`: the stack with the path to the first node whose key is not less than `start`, or
nothing if there is none in the subtree; the stack is then as before. -/
def lowerBound (start : Bytes) :
    PNode α → ℕ → List (Frame α) → Except Panic (Option (List (Frame α)))
  | nil, _, _ => .error .nilDereference
  | node bitstr n v c0 c1, bitIndex, stack =>
    if bitlen start ≤ bitIndex then (findFirst (node bitstr n v c0 c1) stack).map some
    else if getBit start bitIndex then
      lowerBoundChild start bitIndex c1 (⟨node bitstr n v c0 c1, some true⟩ :: stack)
        (lowerBound start c1 (u32 (bitIndex + c1.arcLen))
          (⟨node bitstr n v c0 c1, some true⟩ :: stack))
    else
      match lowerBoundChild start bitIndex c0 (⟨node bitstr n v c0 c1, some false⟩ :: stack)
        (lowerBound start c0 (u32 (bitIndex + c0.arcLen))
          (⟨node bitstr n v c0 c1, some false⟩ :: stack)) with
      | .ok none =>
        if c1.isNil then .ok none
        else (findFirst c1 (⟨node bitstr n v c0 c1, some true⟩ :: stack)).map some
      | r => r

def scan (root : PNode α) (start limit : Bytes) : Except Panic (Stream α) :=
  match root with
  | nil => .ok {}
  | root => (lowerBound start root 0 []).map fun r ↦ { dfsStack := r.getD [], limit := limit }

/-- The child an element of the stack stands at. -/
def Frame.child (f : Frame α) : PNode α :=
  match f.node, f.childID with
  | .node _ _ _ c0 _, some false => c0
  | .node _ _ _ _ c1, some true => c1
  | _, _ => nil

/-- The next child of an element of the stack that is not nil. -/
def Frame.next (f : Frame α) : Option (Bool × PNode α) :=
  match f.node, f.childID with
  | .node _ _ _ c0 c1, none =>
    if !c0.isNil then some (false, c0) else if !c1.isNil then some (true, c1) else none
  | .node _ _ _ _ c1, some false => if !c1.isNil then some (true, c1) else none
  | _, _ => none

/-- A bound on the steps that a subtree takes. -/
def weight : PNode α → ℕ
  | nil => 0
  | node _ _ _ c0 c1 => weight c0 + weight c1 + 2

/-- A bound on the steps from an element of the stack on. -/
def Frame.weight (f : Frame α) : ℕ :=
  match f.node, f.childID with
  | .node _ _ _ c0 c1, none => Ptrie.weight c0 + Ptrie.weight c1 + 1
  | .node _ _ _ _ c1, some false => Ptrie.weight c1 + 1
  | _, _ => 1

theorem Frame.weight_pos (f : Frame α) : 0 < f.weight := by
  obtain ⟨_ | ⟨bitstr, n, v, c0, c1⟩, _ | _ | _⟩ := f <;> exact Nat.succ_pos _

variable {c : PNode α} {b : Bool} {e : List Bool × α} {start : Bytes} {s : Stream α}

open Ptrie.Frame Ptrie.Stream

theorem Frame.weight_next {f : Frame α} (h : f.next = some (b, c)) :
    Frame.weight ⟨c, none⟩ + Frame.weight ⟨f.node, some b⟩ < f.weight := by
  obtain ⟨_ | ⟨bitstr, n, v, _ | _, _ | _⟩, _ | _ | _⟩ := f <;> cases h
  all_goals
    simp only [Frame.weight, Ptrie.weight]
    omega

/-- `advanceInternal`: walk on to the next node with a value. -/
def advanceInternal : List (Frame α) → List (Frame α)
  | [] => []
  | top :: rest =>
    match _h : top.next with
    | none => advanceInternal rest
    | some (b, c) =>
      if c.value.isSome then ⟨c, none⟩ :: ⟨top.node, some b⟩ :: rest
      else advanceInternal (⟨c, none⟩ :: ⟨top.node, some b⟩ :: rest)
termination_by stack => (stack.map Frame.weight).sum
decreasing_by
  · have := top.weight_pos
    simp only [map_cons, sum_cons]
    omega
  · have := Frame.weight_next _h
    simp only [map_cons, sum_cons]
    omega

/-- A key part is put after the bits there are so far. -/
def appendArc (acc : Bytes × ℕ) (c : PNode α) : Bytes × ℕ :=
  (appendBits acc.1 acc.2 c.arcBytes, u32 (acc.2 + c.arcLen))

/-- `keyFromDFSStack`: every element but the top one stands at the child that leads on. -/
def keyFromDFSStack (stack : List (Frame α)) : Except Panic Bytes :=
  let arcs := stack.tail.reverse.map Frame.child
  let bitlen := arcs.foldl (fun n c ↦ u32 (n + c.arcLen)) 0
  if arcs.any isNil then .error .nilDereference
  else if bitlen % 8 ≠ 0 then .error .partialByte
  else .ok (arcs.foldl appendArc (replicate (bitlen / 8) 0, 0)).1

namespace Stream

/-- The stack after the step of `Advance`: the first call stays where `Scan` has gone. -/
def nextStack (s : Stream α) : List (Frame α) :=
  if s.hasAdvanced then advanceInternal s.dfsStack else s.dfsStack

/-- `Advance`, with whether there is an element to retrieve. -/
def advance (s : Stream α) : Except Panic (Stream α × Bool) :=
  if s.dfsStack.isEmpty then .ok ({ s with hasValue := false }, false)
  else
    (keyFromDFSStack s.nextStack).map fun key ↦
      if s.nextStack.isEmpty || (!s.limit.isEmpty && decide (s.limit ≤ key)) then
        ({ s with dfsStack := [], hasAdvanced := true, hasValue := false, key := key }, false)
      else
        ({ s with dfsStack := s.nextStack, hasAdvanced := true, hasValue := true, key := key },
          true)

/-- `Key`. -/
def stagedKey (s : Stream α) : Except Panic Bytes :=
  if s.hasValue then .ok s.key else .error .nothingStaged

/-- `Value`. -/
def stagedValue (s : Stream α) : Except Panic (Option α) :=
  if s.hasValue then
    match s.dfsStack with
    | top :: _ => .ok top.node.value
    | [] => .error .nilDereference
  else .error .nothingStaged

/-- What a client gets that calls `Advance` so many times, and `Key` and `Value` after each call
that returns true. -/
def deliver : ℕ → Stream α → Except Panic (List (Bytes × Option α))
  | 0, _ => .ok []
  | n + 1, s => do
    let (s', more) ← s.advance
    if more then
      let key ← s'.stagedKey
      let value ← s'.stagedValue
      let rest ← deliver n s'
      return (key, value) :: rest
    else deliver n s'

end Stream

/-! ## What is still to come -/

/-- The bits on the path to the top of the stack. -/
def path : List (Frame α) → List Bool
  | [] => []
  | f :: rest => path rest ++ f.node.arcBits (path rest).length

/-- The entries below the children after the one an element of the stack stands at. -/
def Frame.after (p : List Bool) (f : Frame α) : List (List Bool × α) :=
  match f.node, f.childID with
  | .node _ _ _ c0 c1, none => c0.entriesAt p ++ c1.entriesAt p
  | .node _ _ _ _ c1, some false => c1.entriesAt p
  | _, _ => []

/-- The entries after the top of the stack. -/
def later : List (Frame α) → List (List Bool × α)
  | [] => []
  | f :: rest => f.after (path (f :: rest)) ++ later rest

/-- A path from the root of a trie. -/
inductive Chain : List (Frame α) → Prop
  | root {f : Frame α} (hroot : f.node.IsRoot) (hne : f.node ≠ nil) : Chain [f]
  | push {f g : Frame α} {rest : List (Frame α)} (hrest : Chain (g :: rest))
      (hchild : f.node = g.child) (hne : f.node ≠ nil) : Chain (f :: g :: rest)

variable {f : Frame α} {stack : List (Frame α)} {a : α}

theorem Frame.shape_child {i : ℕ} (h : f.node.Rooted i) (hne : f.child ≠ nil) :
    ∃ b, f.child.Shape b (i + f.node.arcLen) := by
  obtain ⟨_ | ⟨bitstr, n, v, c0, c1⟩, _ | _ | _⟩ := f
  any_goals exact absurd rfl hne
  · exact ⟨false, h.child0⟩
  · exact ⟨true, h.child1⟩

theorem Chain.rooted (h : Chain (f :: stack)) : f.node.Rooted (path stack).length := by
  generalize hs : f :: stack = s at h
  induction h generalizing f stack with
  | root hroot hne =>
    cases hs
    exact (hroot.rooted hne).1
  | push hrest hchild hne ih =>
    cases hs
    have hg := ih rfl
    rw [hchild] at hne ⊢
    obtain ⟨b, hshape⟩ := shape_child hg hne
    rw [path, length_append_arcBits hg.aligned]
    exact hshape.rooted hne

theorem Chain.length_path (h : Chain (f :: stack)) :
    (path (f :: stack)).length = (path stack).length + f.node.arcLen :=
  length_append_arcBits h.rooted.aligned

theorem Chain.length_path_lt (h : Chain (f :: stack)) : (path (f :: stack)).length < 2 ^ 32 := by
  rw [h.length_path]
  have hroot := h.rooted
  generalize f.node = c at hroot
  obtain _ | ⟨bitstr, n, v, c0, c1⟩ := c
  · exact hroot.sides.elim
  · exact lt_of_le_of_lt hroot.aligned.1 (by decide)

theorem Chain.childID (h : Chain (f :: stack)) (childID : Option Bool) :
    Chain (⟨f.node, childID⟩ :: stack) := by
  generalize hs : f :: stack = s at h
  obtain ⟨hroot, hne⟩ | ⟨hrest, hchild, hne⟩ := h <;> cases hs
  · exact Chain.root hroot hne
  · exact Chain.push hrest hchild hne

/-- A node on a path has a value or a child. -/
theorem Chain.child_ne_nil {bitstr : Bytes} {n : ℕ} {c0 c1 : PNode α} {childID : Option Bool}
    (h : Chain (⟨node bitstr n none c0 c1, childID⟩ :: stack)) : c0 ≠ nil ∨ c1 ≠ nil := by
  generalize hs : (⟨node bitstr n none c0 c1, childID⟩ : Frame α) :: stack = s at h
  obtain ⟨hroot, -⟩ | ⟨hrest, hchild, hne⟩ := h <;> cases hs
  · have hchild := hroot.abs.2.2.2 rfl
    rwa [Ne, Ne, abs_eq_nil_iff, abs_eq_nil_iff] at hchild
  · rw [hchild] at hne
    obtain ⟨b, hshape⟩ := shape_child hrest.rooted hne
    rw [← hchild] at hshape
    have hfull := (hshape.wf.2.1 rfl).1
    rw [Ne, abs_eq_nil_iff] at hfull
    exact .inl hfull

theorem Chain.child (h : Chain (f :: stack))
    (hc : (⟨f.node, some b⟩ : Frame α).child = c) (hne : c ≠ nil) :
    Chain (⟨c, none⟩ :: ⟨f.node, some b⟩ :: stack) ∧
      c.entriesAt (path (f :: stack)) =
        c.entriesFrom (path (⟨c, none⟩ :: ⟨f.node, some b⟩ :: stack)) := by
  have hchain : Chain (⟨c, none⟩ :: ⟨f.node, some b⟩ :: stack) :=
    Chain.push (h.childID _) hc.symm hne
  exact ⟨hchain, entriesAt_eq hchain.rooted.aligned⟩

/-- The stack shows an entry, and the later ones are to come. -/
def Stands (stack : List (Frame α)) (es : List (List Bool × α)) : Prop :=
  ∃ top rest a, stack = top :: rest ∧ Chain stack ∧ top.node.value = some a ∧
    top.childID = none ∧ es = (path stack, a) :: later stack

theorem stands_of_value (h : Chain (⟨c, none⟩ :: stack)) (ha : c.value = some a) :
    Stands (⟨c, none⟩ :: stack) (c.entriesFrom (path (⟨c, none⟩ :: stack)) ++ later stack) := by
  refine ⟨_, _, a, rfl, h, ha, rfl, ?_⟩
  obtain _ | ⟨bitstr, n, v, c0, c1⟩ := c
  · cases ha
  · obtain rfl : v = some a := ha
    simp [entriesFrom, later, Frame.after]

/-- **`findFirst` never panics on a trie, and stops at the first entry of the subtree.** -/
theorem findFirst_eq (h : Chain (⟨c, none⟩ :: stack)) :
    ∃ stack', findFirst c stack = .ok stack' ∧
      Stands stack' (c.entriesFrom (path (⟨c, none⟩ :: stack)) ++ later stack) := by
  induction c generalizing stack with
  | nil => exact h.rooted.sides.elim
  | node bitstr n v c0 c1 ih0 ih1 =>
    obtain _ | a := v
    · rw [findFirst, if_neg nofun]
      by_cases h0 : c0 = nil
      · have h1 := h.child_ne_nil.resolve_left (not_not.mpr h0)
        obtain ⟨hchain, hentries⟩ := h.child (b := true) (c := c1) rfl h1
        obtain ⟨stack', hok, hstands⟩ := ih1 hchain
        refine ⟨stack', ?_, ?_⟩
        · rw [if_neg fun h ↦ not_isNil_iff.mp h h0, if_pos (not_isNil_iff.mpr h1), hok]
        · rw [← hentries] at hstands
          simpa [entriesFrom, later, Frame.after, h0] using hstands
      · obtain ⟨hchain, hentries⟩ := h.child (b := false) (c := c0) rfl h0
        obtain ⟨stack', hok, hstands⟩ := ih0 hchain
        refine ⟨stack', ?_, ?_⟩
        · rw [if_pos (not_isNil_iff.mpr h0), hok]
        · rw [← hentries] at hstands
          simpa [entriesFrom, later, Frame.after, path] using hstands
    · exact ⟨_, by rw [findFirst]; rfl, stands_of_value h rfl⟩

/-! ## The first key -/

/-- What a search leaves: nothing if no entry is there, and otherwise a stack that stands at the
first of them. -/
def Found (stack : List (Frame α)) (es : List (List Bool × α)) :
    Option (List (Frame α)) → Prop
  | none => es = []
  | some stack' => Stands stack' (es ++ later stack)

/-- The entries from a key on. -/
def fromKey (S : List Bool) (es : List (List Bool × α)) : List (List Bool × α) :=
  es.filter fun e ↦ S ≤ e.1

variable {S p S' : List Bool} {es : List (List Bool × α)} {k : Bytes} (n : ℕ)

theorem fromKey_append (es es' : List (List Bool × α)) :
    fromKey S (es ++ es') = fromKey S es ++ fromKey S es' := filter_append _ _

theorem fromKey_eq_self (h : ∀ e ∈ es, S ≤ e.1) : fromKey S es = es :=
  filter_eq_self.mpr fun e he ↦ decide_eq_true (h e he)

theorem fromKey_eq_nil (h : ∀ e ∈ es, e.1 < S) : fromKey S es = [] :=
  filter_eq_nil_iff.mpr fun e he hle ↦ (h e he).not_ge (of_decide_eq_true hle)

theorem exists_of_mem_entriesAt (h : e ∈ c.entriesAt p) :
    ∃ k, e.1 = p ++ (c.arcBits p.length ++ k) := by
  obtain ⟨e', he', rfl⟩ := mem_map.mp h
  obtain _ | ⟨bitstr, n, v, c0, c1⟩ := c
  · cases he'
  · obtain ⟨e, -, rfl⟩ := mem_map.mp he'
    exact ⟨e.1, rfl⟩

theorem prefix_of_mem_entriesFrom (h : e ∈ c.entriesFrom p) : p <+: e.1 := by
  obtain _ | ⟨bitstr, n, v, c0, c1⟩ := c
  · cases h
  · rcases mem_append.mp h with h | h
    · obtain ⟨a, -, rfl⟩ := mem_map.mp h
      exact prefix_rfl
    · rcases mem_append.mp h with h | h
      all_goals
        obtain ⟨k, hk⟩ := exists_of_mem_entriesAt h
        exact ⟨_, hk.symm⟩

theorem lt_of_shape
    (hc : c.Shape false p.length) (he : e ∈ c.entriesAt p) : e.1 < p ++ true :: S' := by
  obtain ⟨e', he', rfl⟩ := mem_map.mp he
  rw [BitTrie.append_lt_append_left_iff]
  exact BitTrie.lt_of_head? (BitTrie.head?_of_mem_entries hc.wf he') rfl

theorem gt_of_shape
    (hc : c.Shape true p.length) (he : e ∈ c.entriesAt p) : p ++ false :: S' < e.1 := by
  obtain ⟨e', he', rfl⟩ := mem_map.mp he
  rw [BitTrie.append_lt_append_left_iff]
  exact BitTrie.lt_of_head? rfl (BitTrie.head?_of_mem_entries hc.wf he')

/-- **The search in a child**, given the search at its node. -/
theorem lowerBoundChild_eq (hstart : start.length < 2 ^ 29)
    (h : Chain (f :: stack)) (hc : (⟨f.node, some b⟩ : Frame α).child = c)
    (hshape : c.Shape b (path (f :: stack)).length)
    (hlt : (path (f :: stack)).length < (bits start).length)
    (hpre : path (f :: stack) <+: bits start) {deeper : Except Panic (Option (List (Frame α)))}
    (ih : Chain (⟨c, none⟩ :: ⟨f.node, some b⟩ :: stack) →
      path (⟨c, none⟩ :: ⟨f.node, some b⟩ :: stack) <+: bits start → ∃ r, deeper = .ok r ∧
        Found (⟨f.node, some b⟩ :: stack) (fromKey (bits start)
          (c.entriesFrom (path (⟨c, none⟩ :: ⟨f.node, some b⟩ :: stack)))) r) :
    ∃ r, lowerBoundChild start (path (f :: stack)).length c (⟨f.node, some b⟩ :: stack) deeper =
        .ok r ∧
      Found (⟨f.node, some b⟩ :: stack)
        (fromKey (bits start) (c.entriesAt (path (f :: stack)))) r := by
  by_cases hne : c = nil
  · subst hne
    exact ⟨none, rfl, rfl⟩
  · obtain ⟨hchain, hentries⟩ := h.child hc hne
    generalize hq : path (f :: stack) = q at *
    obtain ⟨S', hS⟩ := hpre
    have hdrop : (bits start).drop q.length = S' := by rw [← hS, drop_left]
    obtain ⟨bitstr, n, v, c0, c1, rfl⟩ : ∃ bitstr n v c0 c1, c = node bitstr n v c0 c1 := by
      obtain _ | ⟨bitstr, n, v, c0, c1⟩ := c
      · exact absurd rfl hne
      · exact ⟨_, _, _, _, _, rfl⟩
    have hlen := length_label hshape.aligned.2.1
    have hlcp := bitLCP_eq hstart hlt hshape
    rw [hdrop] at hlcp
    unfold lowerBoundChild
    simp only [hlcp]
    rw [if_neg (by simp [isNil]), arcLen]
    by_cases hagree : label q.length bitstr n <+: S'
    · -- the arc is on the way to `start`
      rw [lcp_eq_length_iff.mpr hagree, hlen, if_neg (lt_irrefl n), hentries]
      refine ih hchain ?_
      rw [← hS]
      change path (⟨f.node, some b⟩ :: stack) ++ _ <+: q ++ S'
      rw [show path (⟨f.node, some b⟩ :: stack) = q from hq]
      exact (prefix_append_right_inj q).mpr hagree
    · obtain ⟨upper, lower, rest, d, hlabel, hrest, hd, hupper⟩ := exists_split_of_not_prefix hagree
      have hend := hshape.aligned.1
      have hp : upper.length < n := by
        rw [← hlen, hlabel, length_append, length_cons]
        omega
      have hbits : bitlen start = q.length + upper.length + rest.length := by
        rw [bitlen_of_lt hstart, ← hS, hrest, length_append, length_append]
        omega
      rw [← hupper, if_pos hp, u32_of_lt (by omega), hbits]
      obtain ⟨stack', hfind, hstands⟩ := findFirst_eq hchain
      -- the keys below the arc are compared where it leaves `start`
      have hkeys : ∀ e ∈ (node bitstr n v c0 c1).entriesAt q,
          ∃ k, e.1 = (q ++ upper) ++ d :: k := by
        intro e he
        obtain ⟨k, hk⟩ := exists_of_mem_entriesAt he
        refine ⟨lower ++ k, ?_⟩
        rw [hk, arcBits, hlabel]
        simp
      have hfound : (∀ e ∈ (node bitstr n v c0 c1).entriesAt q, bits start ≤ e.1) →
          Found (⟨f.node, some b⟩ :: stack)
            (fromKey (bits start) ((node bitstr n v c0 c1).entriesAt q)) (some stack') := by
        intro hall
        rw [fromKey_eq_self hall, hentries]
        exact hstands
      rw [hrest, ← append_assoc] at hS
      obtain _ | ⟨d', rest⟩ := rest
      · refine ⟨some stack', ?_, hfound fun e he ↦ ?_⟩
        · rw [if_pos (.inl (by simp)), hfind]
          rfl
        · obtain ⟨k, hk⟩ := hkeys e he
          rw [hk, ← hS, append_nil]
          exact prefix_le (prefix_append _ _)
      · have hbit : getBit start (q.length + upper.length) = d' := by
          have hhead := @head?_drop_bits start (q.length + upper.length) (by
            rw [← bitlen_of_lt hstart, hbits, length_cons]
            omega)
          rw [← hS, drop_left' (by rw [length_append]), head?_cons] at hhead
          exact (Option.some.inj hhead).symm
        obtain _ | _ := d'
        · -- the arc goes on with a one where `start` has a zero
          obtain rfl : d = true := by simpa using hd
          refine ⟨some stack', ?_, hfound fun e he ↦ ?_⟩
          · rw [if_pos (.inr ⟨by simp, hbit⟩), hfind]
            rfl
          · obtain ⟨k, hk⟩ := hkeys e he
            rw [hk, ← hS]
            exact ((BitTrie.append_lt_append_left_iff _).mpr (BitTrie.lt_of_head? rfl rfl)).le
        · obtain rfl : d = false := by simpa using hd
          refine ⟨none, ?_, fromKey_eq_nil fun e he ↦ ?_⟩
          · rw [hbit]
            simp
          · obtain ⟨k, hk⟩ := hkeys e he
            rw [hk, ← hS]
            exact (BitTrie.append_lt_append_left_iff _).mpr (BitTrie.lt_of_head? rfl rfl)

/-- **`lowerBound` leaves a stack that stands at the first entry from `start` on.** -/
theorem lowerBound_eq (hstart : start.length < 2 ^ 29)
    (h : Chain (⟨c, none⟩ :: stack)) (hpre : path (⟨c, none⟩ :: stack) <+: bits start) :
    ∃ r, lowerBound start c (path (⟨c, none⟩ :: stack)).length stack = .ok r ∧
      Found stack (fromKey (bits start) (c.entriesFrom (path (⟨c, none⟩ :: stack)))) r := by
  induction c generalizing stack with
  | nil => exact h.rooted.sides.elim
  | node bitstr n v c0 c1 ih0 ih1 =>
    have hroot := h.rooted
    have hlen := h.length_path
    set q := path (⟨node bitstr n v c0 c1, none⟩ :: stack)
    -- where the search goes on below a child
    have hu32 : ∀ {d : PNode α} {b : Bool},
        Chain (⟨d, none⟩ :: ⟨node bitstr n v c0 c1, some b⟩ :: stack) →
        u32 (q.length + d.arcLen) =
          (path (⟨d, none⟩ :: ⟨node bitstr n v c0 c1, some b⟩ :: stack)).length := fun hd ↦ by
      rw [hd.length_path]
      exact u32_of_lt (hd.length_path ▸ hd.length_path_lt)
    have h0 : c0.Shape false q.length := hlen ▸ hroot.child0
    have h1 : c1.Shape true q.length := hlen ▸ hroot.child1
    obtain ⟨S', hS⟩ := hpre
    unfold lowerBound
    rcases drop_cases hstart (List.IsPrefix.length_le ⟨S', hS⟩) with
      ⟨hbit, hdrop⟩ | ⟨hlt, hne, rest, hdrop⟩
    · -- the path is `start` itself
      obtain ⟨stack', hfind, hstands⟩ := findFirst_eq h
      refine ⟨some stack', by rw [if_pos hbit.le, hfind]; rfl, ?_⟩
      rw [← hS, drop_left] at hdrop
      rw [hdrop, append_nil] at hS
      rwa [Found, fromKey_eq_self fun e he ↦ hS ▸ prefix_le (prefix_of_mem_entriesFrom he)]
    · rw [if_neg (by rw [bitlen_of_lt hstart]; omega)]
      rw [← hS, drop_left] at hdrop
      -- the path itself is a shorter key
      have hvalue : fromKey (bits start) (v.toList.map fun a ↦ (q, a)) = [] := by
        refine fromKey_eq_nil fun e he ↦ ?_
        obtain ⟨a, -, rfl⟩ := mem_map.mp he
        rw [← hS, hdrop]
        conv_lhs => change q
        conv_lhs => rw [← append_nil q]
        exact (BitTrie.append_lt_append_left_iff _).mpr (nil_lt_cons _ _)
      rw [entriesFrom, fromKey_append, fromKey_append, hvalue, nil_append]
      obtain hbit | hbit := Bool.eq_false_or_eq_true (getBit start q.length)
      · -- the keys on the side of zero are smaller
        rw [hbit] at hdrop
        have hzero : fromKey (bits start) (c0.entriesAt q) = [] :=
          fromKey_eq_nil fun e he ↦ by rw [← hS, hdrop]; exact lt_of_shape h0 he
        rw [if_pos hbit, hzero, nil_append]
        refine lowerBoundChild_eq hstart h (c := c1) rfl h1 hlt ⟨S', hS⟩ fun hchain hpath ↦ ?_
        rw [hu32 hchain]
        exact ih1 hchain hpath
      · rw [hbit] at hdrop
        have hone : fromKey (bits start) (c1.entriesAt q) = c1.entriesAt q :=
          fromKey_eq_self fun e he ↦ by rw [← hS, hdrop]; exact (gt_of_shape h1 he).le
        rw [if_neg (by rw [hbit]; decide), hone]
        obtain ⟨r, hok, hfound⟩ := lowerBoundChild_eq hstart h (c := c0) rfl h0 hlt
          ⟨S', hS⟩ fun hchain hpath ↦ (hu32 hchain) ▸ ih0 hchain hpath
        rw [hok]
        obtain _ | stack' := r
        · -- nothing on the side of zero: the first key on the side of one
          rw [show fromKey (bits start) _ = [] from hfound, nil_append]
          by_cases hnil : c1 = nil
          · subst hnil
            exact ⟨none, rfl, rfl⟩
          · obtain ⟨hchain, hentries⟩ := h.child (b := true) (c := c1) rfl hnil
            obtain ⟨stack', hfind, hstands⟩ := findFirst_eq hchain
            refine ⟨some stack', ?_, ?_⟩
            · simp only [hfind]
              rw [if_neg fun h ↦ hnil (isNil_iff.mp h)]
              rfl
            · rw [← hentries] at hstands
              exact hstands
        · refine ⟨some stack', rfl, ?_⟩
          rw [Found, append_assoc]
          exact hfound

/-! ## The walk -/

theorem Frame.after_of_next_eq_none (h : f.next = none) : f.after p = [] := by
  obtain ⟨_ | ⟨bitstr, n, v, _ | _, _ | _⟩, _ | _ | _⟩ := f <;> cases h <;> rfl

theorem Frame.after_of_next_eq_some (h : f.next = some (b, c)) :
    c ≠ nil ∧ (⟨f.node, some b⟩ : Frame α).child = c ∧
      f.after p = c.entriesAt p ++ (⟨f.node, some b⟩ : Frame α).after p := by
  obtain ⟨_ | ⟨bitstr, n, v, _ | _, _ | _⟩, _ | _ | _⟩ := f <;> cases h
  all_goals exact ⟨nofun, rfl, by simp [after]⟩

theorem Chain.tail (h : Chain (f :: stack)) : stack = [] ∨ Chain stack := by
  generalize hs : f :: stack = s at h
  obtain ⟨hroot, -⟩ | ⟨hrest, -, -⟩ := h <;> cases hs
  · exact .inl rfl
  · exact .inr hrest

theorem advanceInternal_cons (top : Frame α) (rest : List (Frame α)) :
    advanceInternal (top :: rest) = match top.next with
    | none => advanceInternal rest
    | some (b, c) =>
      if c.value.isSome then ⟨c, none⟩ :: ⟨top.node, some b⟩ :: rest
      else advanceInternal (⟨c, none⟩ :: ⟨top.node, some b⟩ :: rest) := by
  rw [advanceInternal]
  split <;> simp only [*]

/-- **`advanceInternal` goes to the first entry that is to come.** -/
theorem advanceInternal_eq (h : stack = [] ∨ Chain stack) :
    later stack = [] ∧ advanceInternal stack = [] ∨
      Stands (advanceInternal stack) (later stack) := by
  induction stack using advanceInternal.induct with
  | case1 => exact .inl ⟨rfl, by rw [advanceInternal]⟩
  | case2 top rest hnext ih =>
    have hchain := h.resolve_left (cons_ne_nil _ _)
    rw [later, after_of_next_eq_none hnext, nil_append, advanceInternal_cons, hnext]
    exact ih hchain.tail
  | case3 top rest b c hnext hvalue =>
    have hchain := h.resolve_left (cons_ne_nil _ _)
    have heq : advanceInternal (top :: rest) = ⟨c, none⟩ :: ⟨top.node, some b⟩ :: rest := by
      rw [advanceInternal_cons, hnext]
      exact if_pos hvalue
    obtain ⟨hne, hchild, hafter⟩ := after_of_next_eq_some hnext
    obtain ⟨hchain', hentries⟩ := hchain.child hchild hne
    obtain ⟨a, ha⟩ := Option.isSome_iff_exists.mp hvalue
    rw [heq, later, hafter, hentries, append_assoc]
    exact .inr (stands_of_value hchain' ha)
  | case4 top rest b c hnext hvalue ih =>
    have hchain := h.resolve_left (cons_ne_nil _ _)
    have heq : advanceInternal (top :: rest) =
        advanceInternal (⟨c, none⟩ :: ⟨top.node, some b⟩ :: rest) := by
      rw [advanceInternal_cons, hnext]
      exact if_neg hvalue
    obtain ⟨hne, hchild, hafter⟩ := after_of_next_eq_some hnext
    obtain ⟨hchain', hentries⟩ := hchain.child hchild hne
    -- without a value of its own the node adds its children only
    have hlater : later (⟨c, none⟩ :: ⟨top.node, some b⟩ :: rest) = later (top :: rest) := by
      rw [later, later, later, hafter, hentries, append_assoc]
      congr 1
      obtain _ | ⟨bitstr, n, v, c0, c1⟩ := c
      · exact absurd rfl hne
      · obtain rfl : v = none := Option.not_isSome_iff_eq_none.mp hvalue
        rfl
    rw [heq, ← hlater]
    exact ih (.inr hchain')

/-! ## Keys -/

/-- The bytes hold the bits of a path, and perhaps more. -/
structure Holds (acc : Bytes × ℕ) (p : List Bool) : Prop where
  len : acc.2 = p.length
  le : p.length ≤ (bits acc.1).length
  take : (bits acc.1).take p.length = p

theorem Holds.appendArc {acc : Bytes × ℕ} (h : Holds acc p)
    (hc : c.Shape b p.length) (hne : c ≠ nil) :
    Holds (appendArc acc c) (p ++ c.arcBits p.length) ∧
      (Ptrie.appendArc acc c).1.length = ((p ++ c.arcBits p.length).length + 7) / 8 := by
  have hpath := length_append_arcBits hc.aligned
  obtain _ | ⟨bitstr, n, v, c0, c1⟩ := c
  · exact absurd rfl hne
  · obtain ⟨hend, hlen, -, -⟩ := hc.aligned
    have hpos := hc.arcLen_pos
    have hstr : bitstr ≠ [] := by
      rintro rfl
      rw [length_nil] at hlen
      omega
    have hbits := bits_appendBits h.le hstr
    rw [h.take] at hbits
    rw [arcLen] at hpath
    have hlength : (appendBits acc.1 acc.2 bitstr).length =
        ((p ++ arcBits p.length (node bitstr n v c0 c1)).length + 7) / 8 := by
      rw [h.len, length_appendBits h.le hstr, hlen, hpath]
      omega
    refine ⟨⟨?_, ?_, ?_⟩, hlength⟩
    · rw [Ptrie.appendArc, h.len, arcLen, u32_of_lt (by omega), hpath]
    · rw [Ptrie.appendArc, arcBytes, length_bits, hlength]
      omega
    · rw [Ptrie.appendArc, arcBytes, h.len, hbits, hpath, take_length_add_append]
      rfl

/-- The arcs of a path, put together. -/
theorem holds_foldl (h : Chain (f :: stack)) (buf : Bytes) :
    Holds ((stack.reverse.map child).foldl appendArc (buf, 0)) (path (f :: stack)) ∧
      (stack ≠ [] → ((stack.reverse.map child).foldl appendArc (buf, 0)).1.length =
        ((path (f :: stack)).length + 7) / 8) := by
  generalize hs : f :: stack = s at h
  induction h generalizing f stack with
  | @root g hroot hne =>
    cases hs
    have hpath : path [g] = [] := (hroot.rooted hne).2.2
    rw [hpath]
    exact ⟨⟨rfl, Nat.zero_le _, rfl⟩, fun h ↦ absurd rfl h⟩
  | @push _ g rest hrest hchild hne ih =>
    cases hs
    obtain ⟨hholds, -⟩ := ih rfl
    rw [hchild] at hne
    obtain ⟨b, hshape⟩ := shape_child hrest.rooted hne
    rw [← hrest.length_path] at hshape
    obtain ⟨hholds', hlen⟩ := hholds.appendArc hshape hne
    rw [reverse_cons, map_append, foldl_append, path, hchild]
    exact ⟨hholds', fun _ ↦ hlen⟩

theorem foldl_arcLen (l : List (PNode α)) (acc : Bytes × ℕ) :
    l.foldl (fun n c ↦ u32 (n + c.arcLen)) acc.2 = (l.foldl appendArc acc).2 := by
  induction l generalizing acc with
  | nil => rfl
  | cons c l ih => exact ih (appendArc acc c)

theorem Chain.child_of_mem (h : Chain (f :: stack)) : ∀ g ∈ stack, g.child ≠ nil := by
  generalize hs : f :: stack = s at h
  induction h generalizing f stack with
  | root hroot hne =>
    cases hs
    exact forall_mem_nil _
  | push hrest hchild hne ih =>
    cases hs
    rw [forall_mem_cons]
    exact ⟨hchild ▸ hne, ih rfl⟩

/-- **`keyFromDFSStack` gives the key whose bits are those on the path.** -/
theorem keyFromDFSStack_eq (h : Chain (f :: stack))
    (hk : path (f :: stack) = bits k) : keyFromDFSStack (f :: stack) = .ok k := by
  have hlen : (path (f :: stack)).length = 8 * k.length := by rw [hk, length_bits]
  have hcount : ((stack.reverse.map child).foldl (fun n c ↦ u32 (n + c.arcLen)) 0) =
      (path (f :: stack)).length := by
    rw [foldl_arcLen _ ([], 0)]
    exact (holds_foldl h []).1.len
  have hany : (stack.reverse.map child).any isNil = false := by
    rw [any_eq_false]
    intro c hc hnil
    obtain ⟨g, hg, rfl⟩ := mem_map.mp hc
    exact h.child_of_mem g (mem_reverse.mp hg) (isNil_iff.mp hnil)
  unfold keyFromDFSStack
  simp only [tail_cons, hcount]
  rw [if_neg (by rw [hany]; decide), if_neg (by omega), hlen]
  obtain ⟨hholds, hbytes⟩ := holds_foldl h (replicate (8 * k.length / 8) 0)
  generalize hacc : (stack.reverse.map child).foldl Ptrie.appendArc
    (replicate (8 * k.length / 8) 0, 0) = acc at hholds hbytes
  -- the bytes hold nothing past the path
  have hexact : acc.1.length = k.length := by
    obtain _ | ⟨g, rest⟩ := stack
    · cases hacc
      simp
    · rw [hbytes (cons_ne_nil _ _), hlen]
      omega
  have htake := hholds.take
  rw [take_of_length_le (by rw [length_bits, hlen, hexact]), hk, bits_inj] at htake
  rw [htake]

/-! ## The stream as a list -/

/-- The entries that are to come from a stream, whatever its limit. -/
def Yields (s : Stream α) (es : List (List Bool × α)) : Prop :=
  s.dfsStack = [] ∧ es = [] ∨
    if s.hasAdvanced then Chain s.dfsStack ∧ later s.dfsStack = es else Stands s.dfsStack es

theorem Yields.nextStack (h : Yields s es) :
    s.nextStack = [] ∧ es = [] ∨ Stands s.nextStack es := by
  unfold Stream.nextStack
  rcases h with ⟨hnil, rfl⟩ | h
  · left
    rw [hnil, advanceInternal, ite_self]
    exact ⟨rfl, rfl⟩
  · split at h
    · next hadv =>
      obtain ⟨hchain, rfl⟩ := h
      rw [if_pos hadv]
      exact (advanceInternal_eq (.inr hchain)).imp And.symm id
    · next hadv =>
      rw [if_neg hadv]
      exact .inr h

theorem Yields.advance_nil (h : Yields s []) :
    ∃ s', s.advance = .ok (s', false) ∧ Yields s' [] ∧ s'.limit = s.limit := by
  have hnext : s.nextStack = [] := by
    rcases h.nextStack with ⟨hnil, -⟩ | ⟨top, rest, a, -, -, -, -, hes⟩
    · exact hnil
    · cases hes
  unfold advance
  split
  · next hempty => exact ⟨_, rfl, .inl ⟨isEmpty_iff.mp hempty, rfl⟩, rfl⟩
  · have hkey : keyFromDFSStack ([] : List (Frame α)) = .ok [] := by simp [keyFromDFSStack]
    rw [hnext, hkey]
    exact ⟨_, rfl, .inl ⟨rfl, rfl⟩, rfl⟩

/-- A stream shows its first entry if that is below the limit, and otherwise ends. -/
theorem Yields.advance_cons (h : Yields s ((bits k, a) :: es)) :
    (s.limit = [] ∨ k < s.limit) ∧ (∃ s', s.advance = .ok (s', true) ∧ s'.stagedKey = .ok k ∧
        s'.stagedValue = .ok (some a) ∧ Yields s' es ∧ s'.limit = s.limit) ∨
      ¬(s.limit = [] ∨ k < s.limit) ∧
        ∃ s', s.advance = .ok (s', false) ∧ Yields s' [] ∧ s'.limit = s.limit := by
  obtain ⟨top, rest, a', hstack, hchain, hvalue, -, hes⟩ : Stands s.nextStack _ := by
    rcases h.nextStack with ⟨-, hnil⟩ | hstands
    · cases hnil
    · exact hstands
  injection hes with hhead hlater
  injection hhead with hk ha
  subst ha
  rw [hstack] at hchain hk hlater
  have hkey := keyFromDFSStack_eq hchain hk.symm
  have hne : s.dfsStack.isEmpty = false := by
    rw [Bool.eq_false_iff, Ne, List.isEmpty_iff]
    intro hnil
    rw [Stream.nextStack, hnil, advanceInternal, ite_self] at hstack
    cases hstack
  have hlimit : (!s.limit.isEmpty && decide (s.limit ≤ k)) = true ↔
      ¬(s.limit = [] ∨ k < s.limit) := by
    rw [Bool.and_eq_true, Bool.not_eq_true', decide_eq_true_eq, not_or, not_lt,
      Bool.eq_false_iff, Ne, List.isEmpty_iff]
  have hadvance : s.advance = .ok (if (!s.limit.isEmpty && decide (s.limit ≤ k)) = true then
        ({ s with dfsStack := [], hasAdvanced := true, hasValue := false, key := k }, false)
      else ({ s with dfsStack := top :: rest, hasAdvanced := true, hasValue := true, key := k },
        true)) := by
    unfold Stream.advance
    rw [if_neg (by rw [hne]; decide), hstack, hkey]
    rfl
  by_cases hin : s.limit = [] ∨ k < s.limit
  · left
    rw [if_neg fun hl ↦ hlimit.mp hl hin] at hadvance
    refine ⟨hin, _, hadvance, rfl, ?_, .inr ⟨hchain, hlater.symm⟩, rfl⟩
    simp only [Stream.stagedValue, hvalue, if_true]
  · right
    rw [if_pos (hlimit.mpr hin)] at hadvance
    exact ⟨hin, _, hadvance, .inl ⟨rfl, rfl⟩, rfl⟩

theorem deliver_of_nil (h : Yields s []) : s.deliver n = .ok [] := by
  induction n generalizing s with
  | zero => rfl
  | succ n ih =>
    obtain ⟨s', hok, hy, -⟩ := h.advance_nil
    rw [deliver, hok]
    exact ih hy

/-- **A stream delivers its entries below the limit, one with each call.** -/
theorem deliver_eq {l : List (Bytes × α)} (hl : l.Pairwise fun e e' ↦ e.1 < e'.1)
    (h : Yields s (l.map fun e ↦ (bits e.1, e.2))) :
    s.deliver n = .ok (((l.filter fun e ↦ s.limit = [] ∨ e.1 < s.limit).take n).map
      fun e ↦ (e.1, some e.2)) := by
  induction n generalizing s l with
  | zero => rfl
  | succ n ih =>
    obtain _ | ⟨⟨k, a⟩, l⟩ := l
    · exact deliver_of_nil (n + 1) h
    · obtain ⟨hk, hl⟩ := pairwise_cons.mp hl
      rcases h.advance_cons with ⟨hin, s', hok, hkey, hvalue, hy, hlim⟩ | ⟨hout, s', hok, hy, -⟩
      · have hrest := ih hl hy
        rw [hlim] at hrest
        have hfilter : ((k, a) :: l).filter (fun e ↦ s.limit = [] ∨ e.1 < s.limit) =
            (k, a) :: l.filter (fun e ↦ s.limit = [] ∨ e.1 < s.limit) :=
          filter_cons_of_pos (decide_eq_true hin)
        simp only [deliver, hok, hkey, hvalue, hrest, hfilter, bind, Except.bind, if_true]
        rfl
      · -- all later keys are above the limit as well
        have hnone : ((k, a) :: l).filter (fun e ↦ s.limit = [] ∨ e.1 < s.limit) = [] := by
          rw [filter_eq_nil_iff]
          intro e he
          rw [decide_eq_true_eq]
          rintro (hnil | hlt)
          · exact hout (.inl hnil)
          · rcases mem_cons.mp he with rfl | he
            · exact hout (.inr hlt)
            · exact hout (.inr ((hk e he).trans hlt))
        rw [deliver, hok, hnone]
        exact deliver_of_nil n hy

/-! ## The trie as a map -/

variable {root : PNode α} {t : Table Bytes α}

theorem scan_eq (h : root.IsRoot) (hstart : start.length < 2 ^ 29) (limit : Bytes) :
    ∃ s, scan root start limit = .ok s ∧ Yields s (fromKey (bits start) (root.abs 0).entries) ∧
      (root ≠ nil → s.limit = limit) := by
  by_cases hne : root = nil
  · subst hne
    exact ⟨{}, rfl, .inl ⟨rfl, rfl⟩, fun h ↦ absurd rfl h⟩
  · have hchain : Chain [⟨root, none⟩] := Chain.root h hne
    obtain ⟨hroot, -, hbits⟩ := h.rooted hne
    have hpath : path [(⟨root, none⟩ : Frame α)] = [] := hbits
    obtain ⟨r, hok, hfound⟩ := lowerBound_eq hstart hchain (hpath ▸ nil_prefix)
    have hentries : root.entriesFrom (path [⟨root, none⟩]) = (root.abs 0).entries := by
      have hat : root.entriesAt [] = root.entriesFrom ([] ++ root.arcBits 0) :=
        @entriesAt_eq _ [] root hroot.aligned
      rw [hbits, nil_append] at hat
      rw [hpath, ← hat]
      exact map_id' _
    rw [hpath, length_nil] at hok
    rw [hentries] at hfound
    have hscan : scan root start limit = .ok { dfsStack := r.getD [], limit := limit } := by
      obtain _ | ⟨bitstr, n, v, c0, c1⟩ := root
      · exact absurd rfl hne
      · change (lowerBound start (node bitstr n v c0 c1) 0 []).map _ = _
        rw [hok]
        rfl
    refine ⟨_, hscan, ?_, fun _ ↦ rfl⟩
    obtain _ | stack := r
    · exact .inl ⟨rfl, hfound⟩
    · rw [Found, later, append_nil] at hfound
      exact .inr hfound

/-- The entries of a trie from a key on are the listing of the map. -/
theorem fromKey_entries (h : root.Represents t) (start : Bytes) :
    fromKey (bits start) (root.abs 0).entries =
      (t.scan (start ≤ ·)).map fun e ↦ (bits e.1, e.2) := by
  refine eq_of_mem_iff ((BitTrie.pairwise_entries_of_root h.isRoot.abs).filter _) ?_ ?_
  · rw [pairwise_map]
    exact pairwise_scan.imp bits_strictMono
  · intro K a
    rw [fromKey, mem_filter, h.mem_entries, decide_eq_true_eq, mem_map]
    constructor
    · rintro ⟨⟨k, rfl, hk⟩, hle⟩
      refine ⟨(k, a), mem_scan.mpr ⟨?_, hk⟩, rfl⟩
      rwa [← not_lt, bits_lt_iff, not_lt] at hle
    · rintro ⟨⟨k, a'⟩, hmem, heq⟩
      cases heq
      obtain ⟨hle, hk⟩ := mem_scan.mp hmem
      refine ⟨⟨k, rfl, hk⟩, ?_⟩
      rwa [← not_lt, bits_lt_iff, not_lt]

theorem filter_scan (start limit : Bytes) :
    ((t.scan (start ≤ ·)).filter fun e ↦ limit = [] ∨ e.1 < limit) =
      t.scan (InRange start limit) := by
  rw [eq_scan_iff]
  refine ⟨pairwise_scan.filter _, fun k a ↦ ?_⟩
  rw [mem_filter, mem_scan, decide_eq_true_eq, InRange]
  tauto

theorem deliver_scan (h : root.Represents t) (hstart : start.length < 2 ^ 29)
    (limit : Bytes) (n : ℕ) : (scan root start limit >>= deliver n) =
      .ok (((t.scan (InRange start limit)).take n).map fun e ↦ (e.1, some e.2)) := by
  obtain ⟨s, hok, hy, hlim⟩ := scan_eq h.isRoot hstart limit
  rw [fromKey_entries h] at hy
  rw [hok]
  change s.deliver n = _
  by_cases hne : root = nil
  · -- an empty trie has no listing
    have hnil : t.scan (start ≤ ·) = [] := by
      rw [← map_eq_nil_iff, ← fromKey_entries h, hne]
      rfl
    rw [hnil] at hy
    rw [deliver_of_nil n hy, ← filter_scan, hnil, filter_nil, take_nil, map_nil]
  · rw [deliver_eq n pairwise_scan hy, hlim hne, filter_scan]

theorem length_entries_le (c : PNode α) (i : ℕ) : (c.abs i).entries.length ≤ weight c := by
  induction c generalizing i with
  | nil => exact le_rfl
  | node bitstr n v c0 c1 ih0 ih1 =>
    rw [abs_node, BitTrie.entries_arc, length_map, BitTrie.entriesBelow, length_append,
      length_append, length_map, weight]
    have hv : v.toList.length ≤ 1 := by cases v <;> simp
    have h0 := ih0 (i + n)
    have h1 := ih1 (i + n)
    omega

/-- A listing has at most as many entries as the trie has nodes. -/
theorem length_scan_le (h : root.Represents t) (start limit : Bytes) :
    (t.scan (InRange start limit)).length ≤ weight root := by
  rw [← filter_scan]
  refine (length_filter_le _ _).trans ?_
  rw [← length_map fun e : Bytes × α ↦ (bits e.1, e.2), ← fromKey_entries h]
  exact (length_filter_le _ _).trans (length_entries_le root 0)

/-- **The trie is a map.** After any sequence of operations on keys that are not empty and shorter
than `2 ^ 29` bytes, `Get` finds the last value written, the first `n` calls of `Advance` on a scan
deliver the first `n` live entries of the range in the order of the keys, for every `n`, and every
arc keeps to `ArcInv`. -/
theorem ptrie_refines_map (ops : List (Op α)) (hne : ∀ op ∈ ops, op.write.1 ≠ [])
    (hshort : ∀ op ∈ ops, op.write.1.length < 2 ^ 29) :
    ∃ root, applyAll ops nil = .ok root ∧
      (∀ k, k.length < 2 ^ 29 →
        root.get k = AList.lookup k (Table.writeAll ∅ (ops.map Op.write))) ∧
      (∀ start limit n, start.length < 2 ^ 29 →
        (scan root start limit >>= Stream.deliver n) =
          .ok ((((Table.writeAll ∅ (ops.map Op.write)).scan (InRange start limit)).take n).map
            fun e ↦ (e.1, some e.2))) ∧
      ∀ e ∈ root.arcsOf, ArcInv (Table.writeAll ∅ (ops.map Op.write)) e.1 e.2 := by
  obtain ⟨root, hok, h⟩ := represents_nil.applyAll hne hshort
  exact ⟨root, hok, fun k hk ↦ h.get_eq hk,
    fun start limit n hstart ↦ deliver_scan h hstart limit n, h.arcInv⟩

theorem ptrie_refines_map_put_put_delete :
    ∃ root : PNode ℕ,
      applyAll [.put [98] (some 1), .put [99] (some 2), .delete [98]] nil = .ok root ∧
        root.get [99] = some 2 ∧ root.get [98] = none := by
  obtain ⟨root, hok, hget, -, -⟩ := ptrie_refines_map
    [Op.put [98] (some 1), Op.put [99] (some 2), Op.delete [98]] (by simp [Op.write])
    (by simp [Op.write])
  refine ⟨root, hok, ?_, ?_⟩
  · rw [hget _ (by simp)]
    decide
  · rw [hget _ (by simp)]
    decide

theorem get_of_bitlen_eq_zero {key : Bytes} (h : bitlen key = 0) (v : Option α) :
    (node [] 0 v nil nil).get key = v := by
  change getInternal key (node [] 0 v nil nil) 0 = v
  rw [getInternal, if_neg (by omega)]

theorem bitlen_replicate (b : Fin 256) : bitlen (replicate (2 ^ 29) b) = 0 := by
  rw [bitlen, length_replicate]
  decide

/-- Two different keys of `2 ^ 29` bytes share the root: after a write to one, the other is found
with its value. -/
theorem long_keys_collide :
    ∃ root : PNode ℕ, replicate (2 ^ 29) (0 : Fin 256) ≠ replicate (2 ^ 29) 1 ∧
      applyAll [.put (replicate (2 ^ 29) 0) (some 7)] nil = .ok root ∧
      root.get (replicate (2 ^ 29) 1) = some 7 ∧
      AList.lookup (replicate (2 ^ 29) 1)
        (Table.writeAll ∅ [(replicate (2 ^ 29) (0 : Fin 256), some 7)]) = none := by
  have hne : replicate (2 ^ 29) (0 : Fin 256) ≠ replicate (2 ^ 29) 1 := by
    intro heq
    rw [replicate_inj] at heq
    rcases heq.2 with hzero | hone
    · exact absurd hzero (by decide)
    · exact absurd hone (by decide)
  refine ⟨node [] 0 (some 7) nil nil, hne, ?_, get_of_bitlen_eq_zero (bitlen_replicate 1) _, ?_⟩
  · rw [applyAll, foldlM_cons, Op.apply, PNode.put, putInternal, if_pos (bitlen_replicate 0)]
    rfl
  · rw [Table.writeAll_cons, Table.writeAll_nil, Table.lookup_write, if_neg hne.symm,
      AList.lookup_empty]

end Vanadium.Ptrie
