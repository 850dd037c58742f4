import Mathlib

/-!
# Prefixes in lexicographic order

In a sorted list of strings, the strings that extend a given one follow it without interruption. A
single pass that remembers the last string it took, and skips those that extend it, therefore takes
exactly the outermost strings: those with no proper prefix in the list (`foldl_skipNested`).
-/

namespace Vanadium.Foundations

open List

variable {α : Type} [LinearOrder α] {l : List (List α)} {p : List α}

theorem prefix_le {q p : List α} (h : q <+: p) : q ≤ p := by
  rw [← not_lt]
  obtain ⟨t, rfl⟩ := h
  induction q with
  | nil => exact not_lt_nil _
  | cons a q ih =>
    rw [cons_append, cons_lt_cons_iff]
    rintro (hlt | ⟨-, hlt⟩)
    · exact lt_irrefl a hlt
    · exact ih hlt

theorem prefix_of_le_of_le {q p r : List α} (hq : q <+: p) (hqr : q ≤ r) (hrp : r ≤ p) :
    q <+: r := by
  induction q generalizing p r with
  | nil => exact nil_prefix
  | cons a q ih =>
    obtain ⟨t, rfl⟩ := hq
    rcases r with _ | ⟨b, r⟩
    · exact absurd (nil_lt_cons a q) (not_lt.mpr hqr)
    · rw [← not_lt, cons_lt_cons_iff, not_or] at hqr
      rw [cons_append, ← not_lt, cons_lt_cons_iff, not_or] at hrp
      obtain rfl : a = b := le_antisymm (not_lt.mp hqr.1) (not_lt.mp hrp.1)
      have hqr' : q ≤ r := not_lt.mp fun h ↦ hqr.2 ⟨rfl, h⟩
      have hrp' : r ≤ q ++ t := not_lt.mp fun h ↦ hrp.2 ⟨rfl, h⟩
      rw [cons_prefix_cons]
      exact ⟨rfl, ih (prefix_append q t) hqr' hrp'⟩

/-! ## The outermost strings of a list -/

/-- The string is in the list and no proper prefix of it is. -/
def Outermost (l : List (List α)) (p : List α) : Prop := p ∈ l ∧ ∀ q ∈ l, q <+: p → q = p

instance (l : List (List α)) (p : List α) : Decidable (Outermost l p) :=
  inferInstanceAs (Decidable (p ∈ l ∧ ∀ q ∈ l, q <+: p → q = p))

theorem exists_outermost_prefix (hp : p ∈ l) : ∃ q, Outermost l q ∧ q <+: p := by
  induction hn : p.length using Nat.strong_induction_on generalizing p with
  | _ n ih =>
    by_cases hout : Outermost l p
    · exact ⟨p, hout, prefix_rfl⟩
    · obtain ⟨q, hq, hqp, hne⟩ : ∃ q ∈ l, q <+: p ∧ q ≠ p := by
        by_contra hnone
        refine hout ⟨hp, fun q hq hqp ↦ ?_⟩
        by_contra hne
        exact hnone ⟨q, hq, hqp, hne⟩
      have hlt : q.length < n := by
        have hle := hqp.length_le
        rcases hle.lt_or_eq with h | h
        · omega
        · exact absurd (hqp.eq_of_length h) hne
      obtain ⟨r, hr, hrq⟩ := ih q.length hlt hq rfl
      exact ⟨r, hr, hrq.trans hqp⟩

section Pass

variable {β : Type} (g : β → List α → β) {b : β}

/-- One step of the pass: a string that properly extends the last one taken is skipped. -/
def skipNested (g : β → List α → β) (acc : List α × β) (p : List α) : List α × β :=
  if acc.1 <+: p ∧ p ≠ acc.1 then acc else (p, g acc.2 p)

theorem foldl_skipNested_aux (hl : l.Pairwise (· < ·))
    {done rest : List (List α)} {c : List α} (hsplit : l = done ++ rest)
    (hc : Outermost l c) (hle : ∀ p ∈ rest, c ≤ p) (hdone : ∀ q ∈ done, Outermost l q → q ≤ c) :
    (rest.foldl (skipNested g) (c, b)).2 = (rest.filter fun p ↦ Outermost l p).foldl g b := by
  induction rest generalizing c b done with
  | nil => rfl
  | cons p rest ih =>
    have hsplit' : l = (done ++ [p]) ++ rest := by rw [hsplit, append_assoc, singleton_append]
    have hp : p ∈ l := by simp [hsplit]
    have hsorted := hl
    rw [hsplit, pairwise_append, pairwise_cons] at hsorted
    obtain ⟨-, ⟨hprest, -⟩, hcross⟩ := hsorted
    rw [foldl_cons, skipNested]
    by_cases hnested : c <+: p ∧ p ≠ c
    · have hout : ¬Outermost l p := fun h ↦ hnested.2 (h.2 c hc.1 hnested.1).symm
      rw [if_pos hnested, filter_cons_of_neg (by simpa using hout)]
      exact ih hsplit' hc (forall_mem_cons.mp hle).2
        (forall_mem_append.mpr ⟨hdone, forall_mem_singleton.mpr fun h ↦ absurd h hout⟩)
    · -- an outermost proper prefix of `p` would lie between the last one taken and `p`
      have hout : Outermost l p := by
        refine ⟨hp, fun q hq hqp ↦ ?_⟩
        by_contra hne
        obtain ⟨r, hr, hrq⟩ := exists_outermost_prefix hq
        have hrp := hrq.trans hqp
        have hrne : r ≠ p := by
          rintro rfl
          exact hne (hqp.eq_of_length (le_antisymm hqp.length_le hrq.length_le))
        have hrlt : r < p := lt_of_le_of_ne (prefix_le hrp) hrne
        have hrdone : r ∈ done := by
          have hmem := hr.1
          rw [hsplit, mem_append, mem_cons] at hmem
          rcases hmem with h | rfl | h
          · exact h
          · exact absurd rfl hrne
          · exact absurd (hprest r h) (not_lt.mpr hrlt.le)
        have hrc : r <+: c := prefix_of_le_of_le hrp (hdone r hrdone hr) (hle p mem_cons_self)
        obtain rfl := hc.2 r hr.1 hrc
        exact hnested ⟨hrp, fun h ↦ hrne h.symm⟩
      rw [if_neg hnested, filter_cons_of_pos (by simpa using hout), foldl_cons]
      refine ih hsplit' hout (fun q hq ↦ (hprest q hq).le) fun q hq _ ↦ ?_
      rcases mem_append.mp hq with hq | hq
      · exact (hcross q hq p mem_cons_self).le
      · exact (mem_singleton.mp hq).le

/-- **The pass over a sorted list takes the outermost strings**, in order. -/
theorem foldl_skipNested (hl : (p :: l).Pairwise (· < ·)) :
    ((p :: l).foldl (skipNested g) (p, b)).2
      = ((p :: l).filter fun q ↦ Outermost (p :: l) q).foldl g b := by
  obtain ⟨hhead, -⟩ := pairwise_cons.mp hl
  have hle : ∀ q ∈ p :: l, p ≤ q := by
    rintro q hq
    rcases mem_cons.mp hq with rfl | hq
    exacts [le_rfl, (hhead q hq).le]
  refine foldl_skipNested_aux g hl (nil_append _).symm ⟨mem_cons_self, fun q hq hqp ↦ ?_⟩
    hle (forall_mem_nil _)
  exact le_antisymm (prefix_le hqp) (hle q hq)

end Pass

/-! ## The deepest prefix -/

/-- The last string of a list that is a prefix of `p`; the empty string if there is none. -/
def deepestPrefix (l : List (List α)) (p : List α) : List α :=
  l.foldl (fun start q ↦ if q <+: p then q else start) []

/-- **In a sorted list the last prefix is the deepest one**: it extends all the others. -/
theorem deepestPrefix_spec (hl : l.Pairwise (· < ·)) :
    (deepestPrefix l p = [] ∧ ∀ q ∈ l, ¬q <+: p) ∨
      (deepestPrefix l p ∈ l ∧ deepestPrefix l p <+: p ∧
        ∀ q ∈ l, q <+: p → q <+: deepestPrefix l p) := by
  induction l using reverseRecOn with
  | nil => exact Or.inl ⟨rfl, forall_mem_nil _⟩
  | append_singleton l a ih =>
    obtain ⟨hsorted, -, hlast⟩ := pairwise_append.mp hl
    have hstep : deepestPrefix (l ++ [a]) p = if a <+: p then a else deepestPrefix l p := by
      rw [deepestPrefix, foldl_append]
      rfl
    rw [hstep]
    split
    · next ha =>
      refine Or.inr ⟨by simp, ha, fun q hq hqp ↦ ?_⟩
      rcases mem_append.mp hq with hq | hq
      · rcases prefix_or_prefix_of_prefix hqp ha with h | h
        · exact h
        · exact absurd (hlast q hq a mem_cons_self) (not_lt.mpr (prefix_le h))
      · obtain rfl := mem_singleton.mp hq
        exact prefix_rfl
    · next ha =>
      have hother : ∀ q ∈ l ++ [a], q <+: p → q ∈ l := by
        intro q hq hqp
        rcases mem_append.mp hq with hq | hq
        · exact hq
        · exact absurd (mem_singleton.mp hq ▸ hqp) ha
      rcases ih hsorted with ⟨hnil, hnone⟩ | ⟨hmem, hpre, hdeep⟩
      · exact Or.inl ⟨hnil, fun q hq hqp ↦ hnone q (hother q hq hqp) hqp⟩
      · exact Or.inr ⟨mem_append_left _ hmem, hpre, fun q hq hqp ↦ hdeep q (hother q hq hqp) hqp⟩

end Vanadium.Foundations
