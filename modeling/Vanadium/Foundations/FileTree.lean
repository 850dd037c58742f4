import Vanadium.Foundations.Table

/-!
# Trees of directories and files

A tree maps paths, lists of names from the root on, to directories and files. In a rooted tree the
parent of everything is a directory. A file is made as programs do it: the missing directories of
its path first, one after the other, then the file itself. Some names cannot be created at all.
-/

namespace Vanadium.Foundations

open List Table
open Option hiding all_eq_true

/-- What a path names. -/
inductive Entry (α : Type) where
  | dir
  | file (content : α)
deriving DecidableEq

abbrev FileTree (ν α : Type) : Type := Table (List ν) (Entry α)

namespace FileTree

variable {ν α : Type} [DecidableEq ν] {legal : ν → Bool} {t t' : FileTree ν α} {p q : List ν}
  {a : α}

/-- The parent of every path is a directory. -/
structure Rooted (t : FileTree ν α) : Prop where
  root : AList.lookup [] t = some .dir
  parent : ∀ {p : List ν} {x : ν} {e : Entry α}, AList.lookup (p ++ [x]) t = some e →
    AList.lookup p t = some .dir

namespace Rooted

theorem lookup_of_append (h : Rooted t) {e : Entry α} (hp : t.lookup (p ++ q) = some e)
    (hq : q ≠ []) : t.lookup p = some .dir := by
  induction q using reverseRecOn generalizing e with
  | nil => exact absurd rfl hq
  | append_singleton q x ih =>
    rw [← append_assoc] at hp
    have hdir := h.parent hp
    by_cases hnil : q = []
    · rwa [hnil, append_nil] at hdir
    · exact ih hdir hnil

theorem lookup_append_eq_none (h : Rooted t) (hp : t.lookup p ≠ some .dir) (hq : q ≠ []) :
    t.lookup (p ++ q) = none := by
  by_contra hne
  obtain ⟨e, he⟩ := ne_none_iff_exists'.mp hne
  exact hp (h.lookup_of_append he hq)

/-- What is new in a rooted tree may be put in a directory. -/
theorem insert (h : Rooted t) {x : ν} {e : Entry α} (hp : t.lookup p = some .dir)
    (hx : t.lookup (p ++ [x]) = none) : Rooted (t.insert (p ++ [x]) e) where
  root := by
    rw [AList.lookup_insert_ne (by simp)]
    exact h.root
  parent {q y e'} hq := by
    have hne : q ≠ p ++ [x] := by
      rintro rfl
      rw [AList.lookup_insert_ne (by simp),
        h.lookup_append_eq_none (by rw [hx]; exact nofun) (by simp)] at hq
      exact nomatch hq
    rw [AList.lookup_insert_ne hne]
    rw [lookup_insert_eq_ite] at hq
    split at hq
    · next heq =>
      obtain ⟨rfl, -⟩ := append_inj' heq rfl
      exact hp
    · exact h.parent hq

/-- The contents of a file may change. -/
theorem insert_file (h : Rooted t) {b : α} (hp : t.lookup p = some (.file a)) :
    Rooted (t.insert p (.file b)) where
  root := by
    have hne : [] ≠ p := by
      rintro rfl
      rw [h.root] at hp
      exact nomatch hp
    rw [AList.lookup_insert_ne hne]
    exact h.root
  parent {q y e} hq := by
    have hdir : t.lookup q = some .dir := by
      rw [lookup_insert_eq_ite] at hq
      split at hq
      · next heq => exact h.parent (heq ▸ hp)
      · exact h.parent hq
    have hne : q ≠ p := by
      rintro rfl
      rw [hp] at hdir
      exact nomatch hdir
    rw [AList.lookup_insert_ne hne]
    exact hdir

theorem erase (h : Rooted t) (hne : p ≠ []) (hleaf : ∀ x, t.lookup (p ++ [x]) = none) :
    Rooted (t.erase p) where
  root := by
    rw [AList.lookup_erase_ne (Ne.symm hne)]
    exact h.root
  parent {q y e} hq := by
    rw [lookup_erase_eq_ite] at hq
    split at hq
    · exact nomatch hq
    · have hqp : q ≠ p := by
        rintro rfl
        rw [hleaf] at hq
        exact nomatch hq
      rw [AList.lookup_erase_ne hqp]
      exact h.parent hq

end Rooted

/-! ## Making directories -/

/-- Make the missing directories of a path below a directory, from the top, and list them. It stops
at a file in the way and at a name that cannot be created. -/
def makeDirs (legal : ν → Bool) (t : FileTree ν α) (p : List ν) :
    List ν → FileTree ν α × List (List ν)
  | [] => (t, [])
  | x :: xs =>
    match AList.lookup (p ++ [x]) t with
    | some .dir => makeDirs legal t (p ++ [x]) xs
    | some (.file _) => (t, [])
    | none =>
      if legal x then
        let made := makeDirs legal (AList.insert (p ++ [x]) .dir t) (p ++ [x]) xs
        (made.1, (p ++ [x]) :: made.2)
      else (t, [])

/-- What `makeDirs` does: it keeps what is there and makes new directories on the way. -/
structure Makes (t : FileTree ν α) (p xs : List ν) (made : FileTree ν α × List (List ν)) :
    Prop where
  keeps : ∀ {q e}, AList.lookup q t = some e → AList.lookup q made.1 = some e
  only : ∀ {q e}, AList.lookup q made.1 = some e → AList.lookup q t = some e ∨ e = .dir ∧ q ∈ made.2
  fresh : ∀ {q}, q ∈ made.2 → AList.lookup q t = none ∧ AList.lookup q made.1 = some .dir
  between : ∀ {q}, q ∈ made.2 → p <+: q ∧ p ≠ q ∧ q <+: p ++ xs
  rooted : Rooted made.1
  nothing : made.2 = [] → made.1 = t

theorem Makes.refl (h : Rooted t) (p xs : List ν) : Makes t p xs (t, []) where
  keeps := id
  only := .inl
  fresh hq := nomatch hq
  between hq := nomatch hq
  rooted := h
  nothing _ := rfl

theorem makes_makeDirs (legal : ν → Bool) (xs : List ν) (h : Rooted t)
    (hp : t.lookup p = some .dir) : Makes t p xs (makeDirs legal t p xs) := by
  induction xs generalizing t p with
  | nil => exact Makes.refl h p []
  | cons x xs ih =>
    unfold makeDirs
    split
    · next hx =>
      have hmakes := ih h hx
      refine ⟨hmakes.keeps, hmakes.only, hmakes.fresh, fun hq ↦ ?_, hmakes.rooted, hmakes.nothing⟩
      obtain ⟨hpre, -, hle⟩ := hmakes.between hq
      rw [append_assoc, singleton_append] at hle
      refine ⟨(prefix_append p [x]).trans hpre, ?_, hle⟩
      rintro rfl
      exact absurd hpre.length_le (by simp)
    · exact Makes.refl h p _
    · next hx =>
      split
      · have hins := h.insert (e := .dir) hp hx
        have hmakes := ih hins (AList.lookup_insert _)
        have hkeep {q : List ν} {e : Entry α} (hq : t.lookup q = some e) :
            (AList.insert (p ++ [x]) .dir t).lookup q = some e := by
          rw [lookup_insert_eq_ite, if_neg ?_]
          · exact hq
          · rintro rfl
            rw [hx] at hq
            exact nomatch hq
        refine ⟨fun hq ↦ hmakes.keeps (hkeep hq), fun {q e} hq ↦ ?_, fun {q} hq ↦ ?_,
          fun {q} hq ↦ ?_, hmakes.rooted, nofun⟩
        · rcases hmakes.only hq with hold | ⟨rfl, hmem⟩
          · rw [lookup_insert_eq_ite] at hold
            split at hold
            · next heq =>
              obtain rfl := some.inj hold
              exact .inr ⟨rfl, heq ▸ mem_cons_self⟩
            · exact .inl hold
          · exact .inr ⟨rfl, mem_cons_of_mem _ hmem⟩
        · rcases mem_cons.mp hq with rfl | hmem
          · exact ⟨hx, hmakes.keeps (AList.lookup_insert _)⟩
          · obtain ⟨hnone, hdir⟩ := hmakes.fresh hmem
            rw [lookup_insert_eq_ite] at hnone
            split at hnone
            · exact nomatch hnone
            · exact ⟨hnone, hdir⟩
        · rcases mem_cons.mp hq with rfl | hmem
          · exact ⟨prefix_append p [x], by simp, by simp⟩
          · obtain ⟨hpre, -, hle⟩ := hmakes.between hmem
            rw [append_assoc, singleton_append] at hle
            refine ⟨(prefix_append p [x]).trans hpre, ?_, hle⟩
            rintro rfl
            exact absurd hpre.length_le (by simp)
      · exact Makes.refl h p _

theorem makeDirs_append (legal : ν → Bool) (xs ys : List ν) (h : Rooted t)
    (hdir : t.lookup (p ++ xs) = some .dir) :
    makeDirs legal t p (xs ++ ys) = makeDirs legal t (p ++ xs) ys := by
  induction xs generalizing p with
  | nil => rw [nil_append, append_nil]
  | cons x xs ih =>
    have happ : p ++ x :: xs = p ++ [x] ++ xs := by simp
    rw [happ] at hdir ⊢
    have hx : t.lookup (p ++ [x]) = some .dir := by
      by_cases hnil : xs = []
      · rwa [hnil, append_nil] at hdir
      · exact h.lookup_of_append hdir hnil
    rw [cons_append, makeDirs, hx]
    exact ih hdir

/-! ## Making a file -/

/-- Make a file that does not exist, in a directory that does. -/
def create (legal : ν → Bool) (p : List ν) (a : α) (t : FileTree ν α) : Option (FileTree ν α) :=
  match p.getLast?, AList.lookup p t, AList.lookup p.dropLast t with
  | some x, none, some .dir => if legal x then some (AList.insert p (.file a) t) else none
  | _, _, _ => none

theorem create_eq_some_iff : create legal p a t = some t' ↔
    ∃ q x, p = q ++ [x] ∧ t.lookup p = none ∧ t.lookup q = some .dir ∧ legal x = true ∧
      t' = t.insert p (.file a) := by
  unfold create
  constructor
  · intro h
    split at h
    · next x hx hnone hdir =>
      obtain ⟨q, rfl⟩ := getLast?_eq_some_iff.mp hx
      rw [dropLast_concat] at hdir
      obtain ⟨hlegal, h⟩ := ite_none_right_eq_some.mp h
      exact ⟨q, x, rfl, hnone, hdir, hlegal, (some.inj h).symm⟩
    · exact nomatch h
  · rintro ⟨q, x, rfl, hnone, hdir, hx, rfl⟩
    rw [getLast?_concat, dropLast_concat, hnone, hdir]
    exact if_pos hx

/-- Nothing on the path can be created: the next name after the last directory is one of a file, or
cannot be created, or there is none. -/
def Blocked (legal : ν → Bool) (t : FileTree ν α) (p : List ν) : Prop :=
  ∀ q x, q ++ [x] <+: p → AList.lookup q t = some .dir → AList.lookup (q ++ [x]) t = none →
    legal x = false

theorem makeDirs_of_blocked (hblocked : Blocked legal t p) {q xs : List ν} (hle : q ++ xs <+: p)
    (hq : t.lookup q = some .dir) : makeDirs legal t q xs = (t, []) := by
  induction xs generalizing q with
  | nil => rfl
  | cons x xs ih =>
    have happ : q ++ x :: xs = q ++ [x] ++ xs := by simp
    rw [happ] at hle
    unfold makeDirs
    split
    · next hx => exact ih hle hx
    · rfl
    · next hx =>
      rw [if_neg]
      rw [hblocked q x ((prefix_append _ xs).trans hle) hq hx]
      exact Bool.false_ne_true

theorem create_of_blocked (hblocked : Blocked legal t p) : create legal p a t = none := by
  by_contra hne
  obtain ⟨t', h⟩ := ne_none_iff_exists'.mp hne
  obtain ⟨q, x, rfl, hnone, hdir, hx, -⟩ := create_eq_some_iff.mp h
  rw [hblocked q x prefix_rfl hdir hnone] at hx
  exact nomatch hx

/-- If something on the path can be created then it is: a directory, or the file itself. -/
theorem exists_of_not_blocked (h : Rooted t) (hnot : ¬Blocked legal t p) :
    ∃ q, q <+: p ∧ t.lookup q = none ∧
      (q ∈ (makeDirs legal t [] p.dropLast).2 ∨
        q = p ∧ makeDirs legal t [] p.dropLast = (t, []) ∧ (create legal p a t).isSome) := by
  simp only [Blocked, not_forall] at hnot
  obtain ⟨q, x, hle, hdir, hnone, hx⟩ := hnot
  rw [Bool.not_eq_false] at hx
  refine ⟨q ++ [x], hle, hnone, ?_⟩
  obtain ⟨ys, rfl⟩ := hle
  rcases eq_nil_or_concat ys with rfl | ⟨ys, y, rfl⟩
  · refine .inr ⟨by rw [append_nil], ?_, ?_⟩
    · rw [append_nil, dropLast_concat]
      have := makeDirs_append (p := []) legal q [] h hdir
      rwa [append_nil] at this
    · rw [append_nil, isSome_iff_exists]
      exact ⟨_, create_eq_some_iff.mpr ⟨q, x, rfl, hnone, hdir, hx, rfl⟩⟩
  · refine .inl ?_
    have hdrop : (q ++ [x] ++ ys.concat y).dropLast = q ++ (x :: ys) := by
      rw [concat_eq_append, ← append_assoc, dropLast_concat]
      simp
    rw [hdrop, makeDirs_append (p := []) legal q _ h hdir, nil_append, makeDirs, hnone]
    simp [hx]

/-! ## Removing -/

/-- Whether there is nothing in a directory. -/
def isLeaf (p : List ν) (t : FileTree ν α) : Bool :=
  t.keys.all fun q ↦ !(decide (q ≠ []) && decide (q.dropLast = p))

theorem isLeaf_iff : isLeaf p t = true ↔ ∀ x, t.lookup (p ++ [x]) = none := by
  rw [isLeaf, all_eq_true]
  constructor
  · intro h x
    rw [Table.lookup_eq_none_iff]
    intro hmem
    have := h _ hmem
    simp at this
  · intro h q hmem
    rcases eq_nil_or_concat q with rfl | ⟨q, x, rfl⟩
    · rfl
    · rw [concat_eq_append] at hmem ⊢
      have hne : q ≠ p := by
        rintro rfl
        exact Table.lookup_eq_none_iff.mp (h x) hmem
      simp [hne]

/-- Remove a file or an empty directory. -/
def remove (p : List ν) (t : FileTree ν α) : Option (FileTree ν α) :=
  match AList.lookup p t with
  | none => none
  | some (.file _) => some (AList.erase p t)
  | some .dir => if p ≠ [] ∧ isLeaf p t = true then some (AList.erase p t) else none

theorem Rooted.remove (h : Rooted t) (hr : FileTree.remove p t = some t') :
    t' = t.erase p ∧ Rooted t' ∧ t.lookup p ≠ none := by
  unfold FileTree.remove at hr
  split at hr
  · exact nomatch hr
  · next a ha =>
    obtain rfl := some.inj hr
    have hne : p ≠ [] := by
      rintro rfl
      rw [h.root] at ha
      exact nomatch ha
    refine ⟨rfl, h.erase hne fun x ↦ h.lookup_append_eq_none ?_ (by simp), by rw [ha]; exact nofun⟩
    rw [ha]
    exact nofun
  · next hdir =>
    obtain ⟨hcond, ⟨⟩⟩ := ite_none_right_eq_some.mp hr
    exact ⟨rfl, h.erase hcond.1 (isLeaf_iff.mp hcond.2), by rw [hdir]; exact nofun⟩

/-! ## Moving -/

section Moving

/-- A path below `p` taken to `q`, and the other way round. -/
def swapPaths (p q r : List ν) : List ν :=
  if p <+: r then q ++ r.drop p.length else if q <+: r then p ++ r.drop q.length else r

/-- Move a directory, with what is in it, to a path at which there is nothing. -/
def move (p q : List ν) (t : FileTree ν α) : FileTree ν α :=
  (t.entries.map (Sigma.map (swapPaths p q) fun _ ↦ id)).toAList

variable {r : List ν}

theorem swapPaths_of_apart (hp : ¬p <+: r) (hq : ¬q <+: r) : swapPaths p q r = r := by
  rw [swapPaths, if_neg hp, if_neg hq]

theorem swapPaths_append_left (p q r : List ν) : swapPaths p q (p ++ r) = q ++ r := by
  rw [swapPaths, if_pos (prefix_append p r), drop_left]

variable (hpq : ¬p <+: q) (hqp : ¬q <+: p)
include hpq hqp

theorem swapPaths_append_right (r : List ν) : swapPaths p q (q ++ r) = p ++ r := by
  rw [swapPaths, if_neg fun hp ↦ ?_, if_pos (prefix_append q r), drop_left]
  exact ( prefix_or_prefix_of_prefix hp (prefix_append q r)).elim hpq hqp

theorem swapPaths_involutive : Function.Involutive (swapPaths p q) := by
  intro r
  by_cases hp : p <+: r
  · obtain ⟨s, rfl⟩ := hp
    rw [swapPaths_append_left, swapPaths_append_right hpq hqp]
  · by_cases hq : q <+: r
    · obtain ⟨s, rfl⟩ := hq
      rw [swapPaths_append_right hpq hqp, swapPaths_append_left]
    · rw [swapPaths_of_apart hp hq, swapPaths_of_apart hp hq]

theorem lookup_move (t : FileTree ν α) (r : List ν) :
    (move p q t).lookup r = t.lookup (swapPaths p q r) := by
  have hinv := swapPaths_involutive hpq hqp
  have h := dlookup_map₁ t.entries hinv.injective (swapPaths p q r)
  rw [hinv r] at h
  rw [move, AList.lookup_to_alist]
  exact h

/-- A directory may be moved to where something could be created. -/
theorem Rooted.move (h : Rooted t) (hdir : t.lookup q.dropLast = some .dir)
    (hnone : t.lookup q = none) : Rooted (move p q t) where
  root := by
    rw [lookup_move hpq hqp, swapPaths_of_apart]
    · exact h.root
    · rintro hp
      exact hpq (prefix_nil.mp hp ▸ nil_prefix)
    · rintro hq
      exact hqp (prefix_nil.mp hq ▸ nil_prefix)
  parent {r y e} hr := by
    rw [lookup_move hpq hqp] at hr ⊢
    by_cases hp : p <+: r
    · obtain ⟨s, rfl⟩ := hp
      rw [append_assoc, swapPaths_append_left, ← append_assoc] at hr
      rw [swapPaths_append_left]
      exact h.parent hr
    · by_cases hq : q <+: r
      · obtain ⟨s, rfl⟩ := hq
        rw [append_assoc, swapPaths_append_right hpq hqp, ← append_assoc] at hr
        rw [swapPaths_append_right hpq hqp]
        exact h.parent hr
      · rw [swapPaths_of_apart hp hq]
        by_cases heq : q = r ++ [y]
        · rw [heq, dropLast_concat] at hdir
          exact hdir
        · have hpy : p ≠ r ++ [y] := by
            intro heq
            have hq' := swapPaths_append_left p q []
            rw [append_nil, append_nil] at hq'
            rw [← heq, hq', hnone] at hr
            exact nomatch hr
          rw [swapPaths_of_apart] at hr
          · exact h.parent hr
          · exact fun hpre ↦ (prefix_concat_iff.mp hpre).elim hpy hp
          · exact fun hpre ↦ (prefix_concat_iff.mp hpre).elim heq hq

end Moving

end FileTree

end Vanadium.Foundations
