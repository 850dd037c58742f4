import Mathlib

/-!
# Ancestry in a child-to-parent relation

A version history is a relation `R` from a version to the versions it was derived from. This file
holds what is true of such a relation whatever the versions are: when adding an edge or a node
keeps it free of cycles, and how walks meet a set of versions and a rank.

`Relation.ReflTransGen R v w` reads "`w` is `v` or an ancestor of `v`", and
`Relation.TransGen R v w` reads "`w` is a proper ancestor of `v`".
-/

namespace Vanadium.Foundations

open Relation TransGen

variable {V : Type*} {R S : V → V → Prop} {f : V → ℕ}

/-- No version is its own proper ancestor. -/
def Acyclic (R : V → V → Prop) : Prop := ∀ v, ¬TransGen R v v

theorem Acyclic.mono (hS : Acyclic S) (h : ∀ a b, R a b → S a b) : Acyclic R :=
  fun v hv ↦ hS v (TransGen.mono h _ _ hv)

theorem acyclic_empty : Acyclic (fun _ _ : V ↦ False) := by
  intro v hv
  obtain ⟨_, h, _⟩ := head'_iff.mp hv
  exact h

theorem Acyclic.not_edge_of_reaches (hR : Acyclic R) {v w : V} (h : ReflTransGen R v w) :
    ¬R w v := fun hwv ↦ hR w (head' hwv h)

/-! ## Growing the relation -/

/-- Adding the single edge `v → p` keeps the relation acyclic when `v` is not `p` or in the past
of `p`. This is the check that precedes a new parent link. -/
theorem Acyclic.insert_edge (hR : Acyclic R) {v p : V} (hvp : ¬ReflTransGen R p v)
    (h : ∀ a b, S a b → R a b ∨ (a = v ∧ b = p)) : Acyclic S := by
  -- every walk in `S` is a walk in `R`, or goes to `v`, over the new edge, and on from `p`
  have key : ∀ {a b : V}, TransGen S a b →
      TransGen R a b ∨ (ReflTransGen R a v ∧ ReflTransGen R p b) := by
    intro a b hab
    induction hab with
    | single hab =>
      rcases h _ _ hab with hR' | ⟨rfl, rfl⟩
      · exact Or.inl (single hR')
      · exact Or.inr ⟨ReflTransGen.refl, ReflTransGen.refl⟩
    | tail _ hbc ih =>
      rcases h _ _ hbc with hR' | ⟨rfl, rfl⟩
      · rcases ih with ih | ⟨ih₁, ih₂⟩
        · exact Or.inl (ih.tail hR')
        · exact Or.inr ⟨ih₁, ih₂.tail hR'⟩
      · rcases ih with ih | ⟨_, ih₂⟩
        · exact Or.inr ⟨ih.to_reflTransGen, ReflTransGen.refl⟩
        · exact absurd ih₂ hvp
  intro w hw
  rcases key hw with hw | ⟨hwv, hpw⟩
  · exact hR w hw
  · exact hvp (hpw.trans hwv)

/-- Giving `v` other parents keeps the relation acyclic when `v` is not in the past of any of
them. -/
theorem Acyclic.replace_node (hR : Acyclic R) {v : V}
    (h : ∀ a b, S a b → R a b ∨ (a = v ∧ ¬ReflTransGen R b v)) : Acyclic S := by
  -- every walk in `S` is a walk in `R`, or goes to `v` and, after its last new edge, on in `R`
  have key : ∀ {a b : V}, TransGen S a b → TransGen R a b ∨
      ReflTransGen S a v ∧ ∃ p, ¬ReflTransGen R p v ∧ ReflTransGen R p b := by
    intro a b hab
    induction hab with
    | single hab =>
      rcases h _ _ hab with hR' | ⟨rfl, hp⟩
      · exact Or.inl (single hR')
      · exact Or.inr ⟨ReflTransGen.refl, _, hp, ReflTransGen.refl⟩
    | tail hab hbc ih =>
      rcases h _ _ hbc with hR' | ⟨rfl, hp⟩
      · exact ih.imp (·.tail hR') fun ⟨hv, p, hp, hpb⟩ ↦ ⟨hv, p, hp, hpb.tail hR'⟩
      · exact Or.inr ⟨hab.to_reflTransGen, _, hp, ReflTransGen.refl⟩
  intro w hw
  rcases key hw with hw | ⟨hwv, p, hp, hpw⟩
  · exact hR w hw
  · rcases reflTransGen_iff_eq_or_transGen.mp hwv with rfl | hwv
    · exact hp hpw
    · rcases key hwv with hwv | ⟨-, p', hp', hpv⟩
      · exact hp (hpw.trans hwv.to_reflTransGen)
      · exact hp' hpv

/-! ## Walks -/

/-- A walk that leaves a set of versions does so over some edge. -/
theorem exists_crossing {P : V → Prop} {a b : V} (hab : ReflTransGen R a b) (ha : P a) (hb : ¬P b) :
    ∃ c p, R c p ∧ P c ∧ ¬P p ∧ ReflTransGen R p b := by
  induction hab using ReflTransGen.head_induction_on with
  | refl => exact absurd ha hb
  | @head a c hac hcb ih =>
    by_cases hc : P c
    · exact ih hc
    · exact ⟨a, c, hac, ha, hc, hcb⟩

theorem rank_le_of_reaches (h : ∀ a b, R a b → f b < f a) {a b : V}
    (hab : ReflTransGen R a b) : f b ≤ f a := by
  induction hab with
  | refl => exact le_rfl
  | tail _ hbc ih => exact (h _ _ hbc).le.trans ih

theorem rank_lt_of_transGen (h : ∀ a b, R a b → f b < f a) {a b : V}
    (hab : TransGen R a b) : f b < f a := by
  obtain ⟨c, hac, hcb⟩ := head'_iff.mp hab
  exact (rank_le_of_reaches h hcb).trans_lt (h _ _ hac)

end Vanadium.Foundations
