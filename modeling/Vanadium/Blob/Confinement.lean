import Vanadium.Blob.FileOps
import Vanadium.Foundations.Transition

/-!
# Which names stay in the store

The files of blobs are written by the store, so they list only fragments below `cas`; this is the
invariant that keeps the fragments that are opened in the store (`WellFormed`). Every step keeps it,
whatever name it is given. The names accepted by `getBlob` stay in the store; those that
`NewBlobWriter` and `DeleteBlob` accept need not.
-/

namespace Vanadium.Blob

open Foundations Transition Table List Option FileTree

/-! ## What the operations keep -/

/-- A text that the store wrote. -/
def Written (text : Str) : Prop := ∃ rs : List Record, (∀ r ∈ rs, r.Sound) ∧
    text = rs.flatMap Record.text

theorem Written.append {text text' : Str} (h : Written text) (h' : Written text') :
    Written (text ++ text') := by
  obtain ⟨rs, hrs, rfl⟩ := h
  obtain ⟨rs', hrs', rfl⟩ := h'
  exact ⟨rs ++ rs', forall_mem_append.mpr ⟨hrs, hrs'⟩, by rw [flatMap_append]⟩

theorem written_text {r : Record} (hr : r.Sound) : Written r.text :=
  ⟨[r], forall_mem_singleton.mpr hr, by rw [flatMap_singleton]⟩

/-- A part of a fragment of the store. -/
def BlobFragment.Sound (f : BlobFragment) : Prop :=
  0 < f.size ∧ 0 ≤ f.offset ∧ f.offset + f.size ≤ maxFragmentSize ∧
    ∃ hash, f.fileName = hashToFileName casDir hash

/-- The blob that is read from such a text. -/
theorem Written.sound {text : Str} {desc : BlobDesc} (h : Written text)
    (hread : readDesc text = some desc) : ∀ f ∈ desc.fragment, f.Sound := by
  obtain ⟨rs, hrs, rfl⟩ := h
  rw [Record.readDesc_text hrs] at hread
  obtain rfl := some.inj hread
  have key : ∀ (rs : List Record) (desc : BlobDesc), (∀ r ∈ rs, r.Sound) →
      (∀ f ∈ desc.fragment, f.Sound) → ∀ f ∈ (rs.foldl Record.apply desc).fragment, f.Sound := by
    intro rs
    induction rs with
    | nil => exact fun desc _ hdesc ↦ hdesc
    | cons r rs ih =>
      intro desc hrs hdesc
      obtain ⟨hr, hrest⟩ := forall_mem_cons.mp hrs
      refine ih _ hrest ?_
      cases r with
      | fragment size offset fileName =>
        exact forall_mem_append.mpr ⟨hdesc, forall_mem_singleton.mpr hr⟩
      | finalize hash => exact hdesc
  exact key rs _ hrs (fun f hf ↦ nomatch hf)

/-- A part of a sound blob is a list of sound fragments. -/
theorem sound_of_mem_appendRange {fs : List BlobFragment} (size : ℤ) {offset : ℤ} (h0 : 0 ≤ offset)
    (hfs : ∀ f ∈ fs, f.Sound) : ∀ r ∈ appendRange fs size offset, r.Sound := by
  induction fs generalizing size offset with
  | nil => exact fun r hr ↦ nomatch hr
  | cons f fs ih =>
    obtain ⟨⟨hsize, hoffset, hle, hname⟩, hrest⟩ := forall_mem_cons.mp hfs
    rw [appendRange]
    split
    · exact fun r hr ↦ nomatch hr
    · split
      · exact ih _ (by omega) hrest
      · refine forall_mem_cons.mpr ⟨?_, ih _ le_rfl hrest⟩
        exact ⟨by omega, by omega, by omega, hname⟩

/-- The directories of the store are there, and its blobs list fragments of the store. -/
structure WellFormed (root : Path) (t : Tree) : Prop where
  rooted : FileTree.Rooted t
  dirs : ∀ d ∈ areas, AList.lookup (root ++ [d]) t = some .dir
  written : ∀ {p text}, root ++ [blobDir] <+: p → AList.lookup p t = some (.file text) →
    Written text

variable {o : Outcome} {t' : Tree}

section Invariant

variable {legal : Str → Bool} {root p q : Path} {t : Tree} {text name : Str}

/-- What `makeFile` does to a tree. -/
structure Made (t : Tree) (p : Path) (text : Str) (o : Outcome) : Prop where
  keeps : ∀ {q e}, AList.lookup q t = some e → AList.lookup q o.tree = some e
  only : ∀ {q e}, AList.lookup q o.tree = some e →
    AList.lookup q t = some e ∨ e = .dir ∧ q <+: p ∨ e = .file text ∧ q = p
  rooted : FileTree.Rooted o.tree
  log : ∀ a ∈ o.log, ∃ q, (a = .madeDir q ∨ a = .created q) ∧ q <+: p ∧ AList.lookup q t = none

theorem made_of_makeDirs (legal : Str → Bool) (h : FileTree.Rooted t) (p : Path) (text : Str) :
    Made t p text ⟨(makeDirs legal t [] p.dropLast).1,
      (makeDirs legal t [] p.dropLast).2.map .madeDir, false⟩ := by
  have hmakes := makes_makeDirs legal p.dropLast h h.root
  have hpre {q : Path} (hq : q ∈ (makeDirs legal t [] p.dropLast).2) : q <+: p := by
    have := (hmakes.between hq).2.2
    exact this.trans p.dropLast_prefix
  refine ⟨hmakes.keeps, fun hq ↦ ?_, hmakes.rooted, fun a ha ↦ ?_⟩
  · rcases hmakes.only hq with hold | ⟨rfl, hmem⟩
    · exact .inl hold
    · exact .inr (.inl ⟨rfl, hpre hmem⟩)
  · obtain ⟨q, hq, rfl⟩ := mem_map.mp ha
    exact ⟨q, .inl rfl, hpre hq, (hmakes.fresh hq).1⟩

theorem made_makeFile (legal : Str → Bool) (h : FileTree.Rooted t) (p : Path) (text : Str) :
    Made t p text (makeFile legal p text t) := by
  have hmade := made_of_makeDirs legal h p text
  rw [makeFile]
  split
  · next t' hcreate =>
    obtain ⟨q, x, rfl, hnone, hdir, -, rfl⟩ := create_eq_some_iff.mp hcreate
    have hnone' : t.lookup (q ++ [x]) = none := by
      by_contra hne
      obtain ⟨e, he⟩ := ne_none_iff_exists'.mp hne
      rw [hmade.keeps he] at hnone
      exact nomatch hnone
    refine ⟨fun {q' e} hq' ↦ ?_, fun {q' e} hq' ↦ ?_, hmade.rooted.insert hdir hnone, fun a ha ↦ ?_⟩
    · have hne : q' ≠ q ++ [x] := by
        rintro rfl
        rw [hnone'] at hq'
        exact nomatch hq'
      rw [AList.lookup_insert_ne hne]
      exact hmade.keeps hq'
    · rw [lookup_insert_eq_ite] at hq'
      split at hq'
      · next heq => exact .inr (.inr ⟨(some.inj hq').symm, heq⟩)
      · exact hmade.only hq'
    · rcases mem_append.mp ha with ha | ha
      · exact hmade.log a ha
      · rw [mem_singleton.mp ha]
        exact ⟨q ++ [x], .inr rfl, prefix_rfl, hnone'⟩
  · exact hmade

variable (h : WellFormed root t) (f : Pending)
include h

theorem Made.wellFormed (hmade : Made t p text o)
    (htext : root ++ [blobDir] <+: p → Written text) : WellFormed root o.tree where
  rooted := hmade.rooted
  dirs d hd := hmade.keeps (h.dirs d hd)
  written {q text'} hle hq := by
    rcases hmade.only hq with hold | ⟨hdir, -⟩ | ⟨hfile, rfl⟩
    · exact h.written hle hold
    · exact nomatch hdir
    · obtain rfl := Entry.file.inj hfile
      exact htext hle

/-- What is missing on the way into the store is missing in the store. -/
theorem WellFormed.inside_of_prefix (hp : Inside root p) (hle : q <+: p)
    (hnone : t.lookup q = none) : Inside root q := by
  obtain ⟨d, hd, hdp, -⟩ := hp
  rcases prefix_or_prefix_of_prefix hle hdp with hqd | hdq
  · exfalso
    obtain ⟨l, hl⟩ := hqd
    have hdir := h.dirs d hd
    rw [← hl] at hdir
    by_cases hnil : l = []
    · rw [hnil, append_nil, hnone] at hdir
      exact nomatch hdir
    · rw [h.rooted.lookup_of_append hdir hnil] at hnone
      exact nomatch hnone
  · refine ⟨d, hd, hdq, ?_⟩
    rintro rfl
    rw [h.dirs d hd] at hnone
    exact nomatch hnone

theorem Made.within (hmade : Made t p text o)
    (hp : Inside root p) : ∀ a ∈ o.log, a.Within root := by
  intro a ha
  obtain ⟨q, rfl | rfl, hle, hnone⟩ := hmade.log a ha
  · exact h.inside_of_prefix hp hle hnone
  · exact h.inside_of_prefix hp hle hnone

theorem WellFormed.appendText (htext : root ++ [blobDir] <+: p → Written text) :
    WellFormed root (appendText p text t) := by
  unfold Blob.appendText
  split
  · next old hold =>
    refine ⟨h.rooted.insert_file hold, fun d hd ↦ ?_, fun {q text'} hle hq ↦ ?_⟩
    · have hne : root ++ [d] ≠ p := by
        rintro rfl
        rw [h.dirs d hd] at hold
        exact nomatch hold
      rw [AList.lookup_insert_ne hne]
      exact h.dirs d hd
    · rw [lookup_insert_eq_ite] at hq
      split at hq
      · next heq =>
        subst heq
        obtain rfl := Entry.file.inj (some.inj hq)
        exact (h.written hle hold).append (htext hle)
      · exact h.written hle hq
  · exact h

theorem WellFormed.remove (hne : ∀ d ∈ areas, root ++ [d] ≠ p)
    (hr : remove p t = some t') : WellFormed root t' := by
  obtain ⟨rfl, hrooted, -⟩ := h.rooted.remove hr
  refine ⟨hrooted, fun d hd ↦ ?_, fun {q text} hle hq ↦ ?_⟩
  · rw [AList.lookup_erase_ne (hne d hd)]
    exact h.dirs d hd
  · rw [lookup_erase_eq_ite] at hq
    obtain ⟨-, hq⟩ := ite_none_left_eq_some.mp hq
    exact h.written hle hq

/-! ### Operations through `getBlob` -/

theorem WellFormed.inside_of_validForGet (hname : validForGet name = true)
    (hfile : t.lookup (joinPath root name) = some (.file text)) :
    Inside root (joinPath root name) := by
  obtain ⟨xs, hxs⟩ := joinPath_of_validForGet root hname
  rw [hxs] at hfile ⊢
  cases xs with
  | nil =>
    rw [h.dirs blobDir (by decide)] at hfile
    exact nomatch hfile
  | cons x xs => exact inside_iff.mpr ⟨blobDir, by decide, x, xs, rfl⟩

theorem WellFormed.getBlob (deleting : Str → Bool) (name : Str) :
    (∀ a ∈ (getBlob root deleting name t).2, a.Within root) ∧
    ∀ desc, (getBlob root deleting name t).1 = some desc →
      Inside root (joinPath root name) ∧ ∀ f ∈ desc.fragment, f.Sound := by
  unfold Blob.getBlob
  split
  · next hname =>
    split
    · next text hfile =>
      have hin := h.inside_of_validForGet hname hfile
      refine ⟨forall_mem_singleton.mpr hin, fun desc hdesc ↦ ⟨hin, ?_⟩⟩
      · obtain ⟨xs, hxs⟩ := joinPath_of_validForGet root hname
        have hle : root ++ [blobDir] <+: joinPath root name := ⟨xs, by rw [hxs]; simp⟩
        exact (h.written hle hfile).sound (filter_eq_some_iff.mp hdesc).1
    · exact ⟨nofun, nofun⟩
  · exact ⟨nofun, nofun⟩

omit h in
theorem inside_hashToFileName (hash : Hash) :
    Inside root (joinPath root (hashToFileName casDir hash)) := by
  obtain ⟨x, xs, hp⟩ := joinPath_hashToFileName root (.inr rfl) hash
  exact inside_iff.mpr ⟨casDir, by decide, x, xs, hp⟩

omit h in
theorem openFragments_within {names : List Str}
    (hnames : ∀ f ∈ names, ∃ hash, f = hashToFileName casDir hash) :
    ∀ a ∈ (openFragments root t names).1, a.Within root := by
  induction names with
  | nil => exact fun a ha ↦ nomatch ha
  | cons f names ih =>
    obtain ⟨⟨hash, rfl⟩, hrest⟩ := forall_mem_cons.mp hnames
    rw [openFragments]
    split
    · exact forall_mem_cons.mpr ⟨inside_hashToFileName hash, ih hrest⟩
    · exact fun a ha ↦ nomatch ha

/-! ### Commits -/

omit h in
theorem exists_fragmentPath (root : Path) (f : Pending) :
    ∃ x xs, fragmentPath root f = root ++ casDir :: x :: xs :=
  joinPath_hashToFileName root (.inr rfl) f.hash

omit h in
theorem not_prefix_of_ne {d d' : Str} (hne : d ≠ d') (xs ys : Path) :
    ¬root ++ d :: xs <+: root ++ d' :: ys := by
  rw [prefix_append_right_inj, cons_prefix_cons]
  exact fun hle ↦ hne hle.1

omit h in
/-- The temporary file and the fragment are in different directories. -/
theorem tempPath_incomparable (root : Path) (f : Pending) :
    ¬tempPath root f <+: fragmentPath root f ∧ ¬fragmentPath root f <+: tempPath root f := by
  obtain ⟨x, xs, hp⟩ := exists_fragmentPath root f
  rw [hp]
  exact ⟨not_prefix_of_ne (by decide) _ _, not_prefix_of_ne (by decide) _ _⟩

/-- A directory that is moved leaves the other directories and the blobs alone. -/
theorem WellFormed.move (hdir : t.lookup (fragmentPath root f).dropLast = some .dir)
    (hnone : t.lookup (fragmentPath root f) = none) :
    WellFormed root (FileTree.move (tempPath root f) (fragmentPath root f) t) := by
  obtain ⟨hpq, hqp⟩ := tempPath_incomparable root f
  have hrooted := h.rooted.move hpq hqp hdir hnone
  obtain ⟨x, xs, hp⟩ := exists_fragmentPath root f
  rw [hp] at hpq hqp hrooted ⊢
  refine ⟨hrooted, fun d hd ↦ ?_, fun {q text} hle hq ↦ ?_⟩
  · rw [lookup_move hpq hqp, swapPaths_of_apart]
    · exact h.dirs d hd
    · exact fun hle ↦ absurd hle.length_le (by simp [tempPath])
    · exact fun hle ↦ absurd hle.length_le (by simp)
  · obtain ⟨ys, rfl⟩ := hle
    rw [append_assoc, singleton_append] at hq
    rw [lookup_move hpq hqp, swapPaths_of_apart] at hq
    · exact h.written ⟨ys, by simp⟩ hq
    · exact not_prefix_of_ne (by decide) _ _
    · exact not_prefix_of_ne (by decide) _ _

theorem placeFragment_made (hnot : ¬movesDir legal root f t) :
    ∃ text, Made t (fragmentPath root f) text (placeFragment legal root f t) := by
  unfold placeFragment
  split
  · next hnew =>
    split
    · exact ⟨_, made_makeFile _ h.rooted _ _⟩
    · next hdir =>
      rw [moveDir]
      split
      · next hcreate => exact absurd ⟨hdir, hnew, by simp only [makeFile, hcreate]⟩ hnot
      · exact ⟨[], made_of_makeDirs _ h.rooted _ _⟩
    · exact ⟨[], made_of_makeDirs _ h.rooted _ _⟩
  · exact ⟨[], id, .inl, h.rooted, fun a ha ↦ nomatch ha⟩

theorem placeFragment_moved (hmoves : movesDir legal root f t) :
    ∃ made : Outcome, Made t (fragmentPath root f) [] made ∧
      AList.lookup (fragmentPath root f) made.tree = none ∧
      AList.lookup (fragmentPath root f).dropLast made.tree = some .dir ∧
      placeFragment legal root f t =
        ⟨FileTree.move (tempPath root f) (fragmentPath root f) made.tree,
          made.log ++ [.movedDir (tempPath root f) (fragmentPath root f)], true⟩ := by
  obtain ⟨hdir, hnew, hok⟩ := hmoves
  refine ⟨_, made_of_makeDirs legal h.rooted (fragmentPath root f) [], ?_⟩
  rw [placeFragment, if_pos hnew, hdir]
  dsimp only [moveDir]
  rw [makeFile] at hok
  split at hok
  · next t' hcreate =>
    obtain ⟨q, x, hp, hnone, hparent, -, -⟩ := create_eq_some_iff.mp hcreate
    refine ⟨hnone, ?_, by rw [hcreate]⟩
    rw [hp, dropLast_concat] at hparent ⊢
    exact hparent
  · exact nomatch hok

omit h in
theorem not_blobDir_fragmentPath {P : Prop} (hle : root ++ [blobDir] <+: fragmentPath root f) :
    P := by
  obtain ⟨x, xs, hp⟩ := exists_fragmentPath root f
  rw [hp] at hle
  exact absurd hle (not_prefix_of_ne (by decide) _ _)

theorem WellFormed.placeFragment : WellFormed root (placeFragment legal root f t).tree := by
  by_cases hmoves : movesDir legal root f t
  · obtain ⟨made, hmade, hnone, hdir, heq⟩ := placeFragment_moved h f hmoves
    rw [heq]
    exact (hmade.wellFormed h (not_blobDir_fragmentPath f)).move f hdir hnone
  · obtain ⟨text, hmade⟩ := placeFragment_made h f hmoves
    exact hmade.wellFormed h (not_blobDir_fragmentPath f)

theorem placeFragment_lookup (hnot : ¬movesDir legal root f t) {xs : Path} :
    AList.lookup (root ++ tmpDir :: xs) (Blob.placeFragment legal root f t).tree =
      t.lookup (root ++ tmpDir :: xs) := by
  obtain ⟨text, hmade⟩ := placeFragment_made h f hnot
  have hpre : ¬root ++ tmpDir :: xs <+: fragmentPath root f := by
    obtain ⟨y, ys, hp⟩ := exists_fragmentPath root f
    rw [hp]
    exact not_prefix_of_ne (by decide) _ _
  refine ext fun e ↦ ⟨fun he ↦ ?_, hmade.keeps⟩
  rcases hmade.only he with hold | ⟨-, hle⟩ | ⟨-, heq⟩
  · exact hold
  · exact absurd hle hpre
  · exact absurd (heq ▸ prefix_rfl) hpre

/-- Whether a path is that of an empty directory. -/
def emptyDir (p : Path) (t : Tree) : Prop :=
  AList.lookup p t = some .dir ∧ FileTree.isLeaf p t = true

theorem placeFragment_emptyDir (hnot : ¬movesDir legal root f t) :
    emptyDir (tempPath root f) (Blob.placeFragment legal root f t).tree ↔
      emptyDir (tempPath root f) t := by
  have hleaf (t : Tree) : isLeaf (tempPath root f) t = true ↔
      ∀ x, t.lookup (root ++ tmpDir :: [f.temp, x]) = none := by
    rw [isLeaf_iff]
    refine forall_congr' fun x ↦ ?_
    rw [tempPath, append_assoc]
    rfl
  rw [emptyDir, emptyDir, hleaf, hleaf, tempPath, placeFragment_lookup h f hnot]
  simp only [placeFragment_lookup h f hnot]

theorem WellFormed.removeTemp : WellFormed root (removeTemp root f t).1 := by
  unfold Blob.removeTemp
  split
  · exact h
  · next t' hr => exact h.remove (fun d _ heq ↦ by simp [tempPath] at heq) hr

omit h in
theorem removeTemp_within (hempty : ¬emptyDir (tempPath root f) t) :
    ∀ a ∈ (removeTemp root f t).2, a.Within root := by
  intro a ha
  unfold removeTemp at ha
  split at ha
  · exact nomatch ha
  · next t' hr =>
    rw [mem_singleton.mp ha]
    refine ⟨?_, inside_iff.mpr ⟨tmpDir, by decide, f.temp, [], rfl⟩⟩
    unfold remove at hr
    split at hr
    · exact nomatch hr
    · next hfile => rw [hfile]; rfl
    · next hdir =>
      obtain ⟨hcond, hr⟩ := ite_none_right_eq_some.mp hr
      exact absurd ⟨hdir, hcond.2⟩ hempty

theorem WellFormed.commitBytes (legal : Str → Bool) (w : Writer) :
    WellFormed root (commitBytes legal root w t).tree := by
  rw [Blob.commitBytes]
  split
  · exact h
  · next f hf =>
    have hplaced : WellFormed root (Blob.placeFragment legal root f t).tree := h.placeFragment f
    have hremoved := hplaced.removeTemp f
    dsimp only
    split
    · exact hremoved.appendText fun _ ↦
        written_text ⟨f.pos, le_rfl, by simpa using f.le, f.hash, rfl⟩
    · exact hremoved

/-- The temporary file of the writer is a directory that its commit moves or removes. -/
def Displaced (legal : Str → Bool) (root : Path) (f : Pending) (t : Tree) : Prop :=
  movesDir legal root f t ∨ emptyDir (tempPath root f) t

theorem commitBytes_within (w : Writer) (hfile : ∀ f ∈ w.pending, ¬Displaced legal root f t) :
    ∀ a ∈ (Blob.commitBytes legal root w t).log, a.Within root := by
  rw [Blob.commitBytes]
  split
  · exact nofun
  · next f hf =>
    obtain ⟨hmoves, hempty⟩ := not_or.mp (hfile f hf)
    obtain ⟨text, hmade⟩ := placeFragment_made h f hmoves
    refine forall_mem_append.mpr ⟨hmade.within h (inside_hashToFileName f.hash),
      removeTemp_within f ?_⟩
    rw [placeFragment_emptyDir h f hmoves]
    exact hempty

omit h in
theorem lookup_appendText_of_none {text : Str} (hq : t.lookup q = none) :
    (appendText p text t).lookup q = none := by
  unfold Blob.appendText
  split
  · next old hold =>
    rw [lookup_insert_eq_ite, if_neg ?_]
    · exact hq
    · rintro rfl
      rw [hold] at hq
      exact nomatch hq
  · exact hq

/-- A directory in the place of the temporary file does not stay there. -/
theorem displaced_gone (hdisplaced : Displaced legal root f t) :
    AList.lookup (tempPath root f)
        (Blob.removeTemp root f (Blob.placeFragment legal root f t).tree).1 = none ∧
      ∃ a ∈ (Blob.placeFragment legal root f t).log ++
        (Blob.removeTemp root f (Blob.placeFragment legal root f t).tree).2, ¬a.Within root := by
  by_cases hmoves : movesDir legal root f t
  · obtain ⟨made, -, hnone, -, heq⟩ := placeFragment_moved h f hmoves
    obtain ⟨hpq, hqp⟩ := tempPath_incomparable root f
    have hgone : AList.lookup (tempPath root f)
        (FileTree.move (tempPath root f) (fragmentPath root f) made.tree) = none := by
      have hswap := swapPaths_append_left (tempPath root f) (fragmentPath root f) []
      rw [append_nil, append_nil] at hswap
      rw [lookup_move hpq hqp, hswap]
      exact hnone
    rw [heq, Blob.removeTemp, FileTree.remove, hgone]
    exact ⟨hgone, .movedDir _ _, mem_append_left _ (mem_append_right _ mem_cons_self), id⟩
  · obtain ⟨hdir, hleaf⟩ := (placeFragment_emptyDir h f hmoves).mpr (hdisplaced.resolve_left hmoves)
    have hne : tempPath root f ≠ [] := by simp [tempPath]
    rw [Blob.removeTemp, FileTree.remove, hdir]
    rw [if_pos ⟨hne, hleaf⟩]
    refine ⟨AList.lookup_erase _ _, .removed (tempPath root f) false, ?_, fun hw ↦ nomatch hw.1⟩
    exact mem_append_right _ (mem_singleton.mpr rfl)

theorem commitBytes_displaced (w : Writer) {f : Pending} (hf : w.pending = some f)
    (hdisplaced : Displaced legal root f t) :
    (∃ a ∈ (Blob.commitBytes legal root w t).log, ¬a.Within root) ∧
      AList.lookup (tempPath root f) (Blob.commitBytes legal root w t).tree = none := by
  obtain ⟨hgone, hlog⟩ := displaced_gone h f hdisplaced
  rw [Blob.commitBytes, hf]
  refine ⟨hlog, ?_⟩
  dsimp only
  split
  · exact lookup_appendText_of_none hgone
  · exact hgone

end Invariant

/-! ## The operations -/

section Confined

variable {legal : Str → Bool} {root : Path} {t : Tree}

theorem newBlobWriter_inside (random : Hash) :
    Inside root (joinPath root (newBlobName random)) := by
  obtain ⟨x, xs, hp⟩ := joinPath_hashToFileName root (.inl rfl) random
  exact inside_iff.mpr ⟨blobDir, by decide, x, xs, hp⟩

variable (h : WellFormed root t) {name : Str} {p : Path} (op : Op)
include h

/-- A file that can be created outside the store is created. -/
theorem not_confined_makeFile (text : Str) (hp : ¬Inside root p)
    (hblocked : ¬FileTree.Blocked legal t p) : ¬Confined root t (makeFile legal p text t) := by
  have hmakes := makes_makeDirs legal p.dropLast h.rooted h.rooted.root
  obtain ⟨q, hle, hnone, hq⟩ := exists_of_not_blocked (a := text) h.rooted hblocked
  have hqin : ¬Inside root q := fun hin ↦ hp (hin.of_prefix hle)
  have key : (Access.madeDir q ∈ (makeFile legal p text t).log ∨
        Access.created q ∈ (makeFile legal p text t).log) ∧
      ((makeFile legal p text t).ok = true ∨
        AList.lookup q (makeFile legal p text t).tree ≠ none) := by
    rw [makeFile]
    rcases hq with hmem | ⟨rfl, hdirs, hcreate⟩
    · have hdir := (hmakes.fresh hmem).2
      split
      · exact ⟨.inl (by simp [hmem]), .inl rfl⟩
      · exact ⟨.inl (by simp [hmem]), .inr (by rw [hdir]; exact nofun)⟩
    · obtain ⟨t', ht'⟩ := isSome_iff_exists.mp hcreate
      rw [hdirs, ht']
      exact ⟨.inr (by simp), .inl rfl⟩
  rintro (⟨hok, htree⟩ | hlog)
  · rcases key.2 with h' | h'
    · rw [hok] at h'
      exact nomatch h'
    · rw [htree] at h'
      exact h' hnone
  · rcases key.1 with h' | h'
    · exact hqin (hlog _ h')
    · exact hqin (hlog _ h')

theorem confined_newBlobWriter_iff (random : Hash) (name : Str) :
    Confined root t (newBlobWriter legal root random name t) ↔
      Harmless legal root t (.newBlobWriter random name) := by
  rw [newBlobWriter]
  split
  · next hnil =>
    have hmade := made_makeFile legal h.rooted (joinPath root (newBlobName random)) []
    exact iff_of_true (.inr (hmade.within h (newBlobWriter_inside random))) (.inl hnil)
  · next hnil =>
    rw [Harmless]
    constructor
    · intro hconf
      by_contra hnot
      rw [not_or, not_or] at hnot
      exact not_confined_makeFile h [] hnot.2.1 hnot.2.2 hconf
    · rintro (hname | hin | hblocked)
      · exact absurd hname hnil
      · exact .inr ((made_makeFile _ h.rooted _ _).within h hin)
      · have hdirs : makeDirs legal t [] (joinPath root name).dropLast = (t, []) :=
          makeDirs_of_blocked hblocked (List.dropLast_prefix _) h.rooted.root
        refine .inl ?_
        rw [makeFile, hdirs]
        simp only [create_of_blocked hblocked]
        exact ⟨trivial, trivial⟩

theorem confined_resumeBlobWriter (deleting : Str → Bool) (name : Str) :
    Confined root t (resumeBlobWriter root deleting name t) := by
  obtain ⟨hlog, hdesc⟩ := h.getBlob deleting name
  unfold resumeBlobWriter
  split
  · exact .inl ⟨rfl, rfl⟩
  · next desc log heq =>
    rw [heq] at hlog hdesc
    obtain ⟨hin, hsound⟩ := hdesc desc rfl
    split
    · exact .inl ⟨rfl, rfl⟩
    · refine .inr (forall_mem_append.mpr ⟨hlog, forall_mem_cons.mpr ⟨hin, ?_⟩⟩)
      refine openFragments_within (forall_mem_map.mpr fun g hg ↦ ?_)
      exact (hsound g hg).2.2.2

omit h in
/-- `DeleteBlob` stays in the store only if the name says so. -/
theorem inside_of_validForDelete_iff (hname : validForDelete name = true) :
    Inside root (joinPath root name) ↔ blobDir ++ ['/'] <+: name := by
  rcases joinPath_of_validForDelete root hname with ⟨hpre, x, xs, hp⟩ | ⟨hpre, x, xs, hp, hx⟩
  · exact iff_of_true (inside_iff.mpr ⟨blobDir, by decide, x, xs, hp⟩) hpre
  · refine iff_of_false (fun hin ↦ ?_) hpre
    obtain ⟨d, hd, y, ys, hp'⟩ := inside_iff.mp hin
    rw [hp] at hp'
    obtain ⟨rfl, -⟩ := cons.inj (append_cancel_left hp')
    exact hx hd

omit h in
theorem joinPath_ne_nil_of_validForDelete (root : Path) (hname : validForDelete name = true) :
    joinPath root name ≠ [] ∧ ∀ d ∈ areas, root ++ [d] ≠ joinPath root name := by
  rcases joinPath_of_validForDelete root hname with ⟨-, x, xs, hp⟩ | ⟨-, x, xs, hp, hx⟩
  · rw [hp]
    exact ⟨by simp, fun d _ heq ↦ nomatch append_cancel_left heq⟩
  · rw [hp]
    refine ⟨by simp, fun d hd heq ↦ ?_⟩
    obtain ⟨rfl, -⟩ := cons.inj (append_cancel_left heq)
    exact hx hd

omit h in
theorem confined_removed_iff {regular : Bool} :
    Confined root t ⟨t', [.removed p regular], true⟩ ↔ regular = true ∧ Inside root p := by
  simp [Confined, Access.Within]

omit h in
theorem confined_deleteBlob_iff (name : Str) :
    Confined root t (deleteBlob root name t) ↔ Harmless legal root t (.deleteBlob name) := by
  unfold deleteBlob Harmless
  split
  · next hname =>
    have hne := (joinPath_ne_nil_of_validForDelete root hname).1
    cases hlook : t.lookup (joinPath root name) with
    | none =>
      simp only [remove, hlook]
      exact iff_of_true (.inl ⟨rfl, rfl⟩) fun _ ↦ trivial
    | some e =>
      cases e with
      | file text =>
        simp only [remove, hlook, confined_removed_iff, isFile]
        rw [inside_of_validForDelete_iff hname]
        exact ⟨fun hin _ ↦ hin.2, fun hpre ↦ ⟨trivial, hpre hname⟩⟩
      | dir =>
        simp only [remove, hlook, isFile]
        by_cases hleaf : isLeaf (joinPath root name) t = true
        · rw [if_pos ⟨hne, hleaf⟩]
          rw [confined_removed_iff, hleaf]
          exact iff_of_false (fun hin ↦ absurd hin.1 (by simp)) fun hnot ↦
            absurd (hnot hname) (by simp)
        · rw [if_neg fun hcond ↦ hleaf hcond.2]
          exact iff_of_true (.inl ⟨rfl, rfl⟩) fun _ ↦ by simpa using hleaf
  · next hname => exact iff_of_true (.inl ⟨rfl, rfl⟩) fun hvalid ↦ absurd hvalid hname

omit h in
theorem harmless_appendBlob_iff {w : Writer} {deleting : Str → Bool} {size offset : ℤ} :
    Harmless legal root t (.appendBlob w deleting name size offset) ↔
      ∀ f ∈ w.pending, ¬Displaced legal root f t := by
  simp only [Harmless, Displaced, emptyDir, not_or, not_and, Bool.not_eq_true]

/-- What `AppendBlob` does after the commit. -/
theorem appendBlob_spec (legal : Str → Bool) (w : Writer) (deleting : Str → Bool) (name : Str)
    (size offset : ℤ) :
    ((appendBlob legal root w deleting name size offset t).tree =
      (commitBytes legal root w t).tree ∨ ∃ rs : List Record, (∀ r ∈ rs, r.Sound) ∧
        (appendBlob legal root w deleting name size offset t).tree =
          appendText w.file (rs.flatMap Record.text) (commitBytes legal root w t).tree) ∧
    ∃ log, (appendBlob legal root w deleting name size offset t).log =
        (commitBytes legal root w t).log ++ log ∧ ∀ a ∈ log, a.Within root := by
  have hc := h.commitBytes legal w
  obtain ⟨hlog, hdesc⟩ := hc.getBlob deleting name
  rw [appendBlob]
  split
  · split
    · next log heq =>
      rw [heq] at hlog
      exact ⟨.inl rfl, log, rfl, hlog⟩
    · next desc log heq =>
      rw [heq] at hlog hdesc
      have hsound := (hdesc desc rfl).2
      dsimp only
      generalize (if size = -1 then desc.size - offset else size) = n
      split
      · exact ⟨.inl rfl, log, rfl, hlog⟩
      · next hcheck =>
        rw [not_or, not_lt] at hcheck
        have hrs := sound_of_mem_appendRange n hcheck.1 hsound
        refine ⟨.inr ⟨_, hrs, rfl⟩, _, append_assoc .., fun a ha ↦ ?_⟩
        rcases mem_append.mp ha with ha | ha
        · exact hlog a ha
        · refine openFragments_within (fun f hf ↦ ?_) a ha
          split at hf
          · obtain ⟨hash, -, rfl⟩ := mem_map.mp hf
            exact ⟨hash, rfl⟩
          · obtain ⟨r, hr, hname⟩ := mem_filterMap.mp hf
            cases r with
            | fragment size offset fileName =>
              obtain rfl := some.inj hname
              exact (hrs _ hr).2.2.2
            | finalize hash => exact nomatch hname
  · exact ⟨.inl rfl, [], (append_nil _).symm, nofun⟩

theorem confined_appendBlob_iff (w : Writer) (deleting : Str → Bool) (name : Str)
    (size offset : ℤ) : Confined root t (appendBlob legal root w deleting name size offset t) ↔
      Harmless legal root t (.appendBlob w deleting name size offset) := by
  obtain ⟨htree, log, hlog, hwithin⟩ := appendBlob_spec h legal w deleting name size offset
  rw [harmless_appendBlob_iff, Confined, hlog]
  constructor
  · intro hconf f hf hdisplaced
    obtain ⟨⟨a, ha, hout⟩, hnone⟩ := commitBytes_displaced h w hf hdisplaced
    rcases hconf with ⟨-, heq⟩ | hall
    · -- the directory is gone
      have hgone : t.lookup (tempPath root f) = none := by
        rw [heq] at htree
        rcases htree with htree | ⟨rs, -, htree⟩
        · rwa [htree]
        · rw [htree]
          exact lookup_appendText_of_none hnone
      have hdir : t.lookup (tempPath root f) = some .dir := hdisplaced.elim And.left And.left
      rw [hdir] at hgone
      exact nomatch hgone
    · exact hout (hall a (mem_append_left _ ha))
  · intro hfile
    exact .inr (forall_mem_append.mpr ⟨commitBytes_within h w hfile, hwithin⟩)

/-- **Which names stay in the store.** -/
theorem confined_iff :
    Confined root t (perform legal root op t) ↔ Harmless legal root t op := by
  cases op with
  | newBlobWriter random name => exact confined_newBlobWriter_iff h random name
  | resumeBlobWriter deleting name =>
    exact iff_of_true (confined_resumeBlobWriter h deleting name) trivial
  | newBlobReader deleting name => exact iff_of_true (.inr (h.getBlob deleting name).1) trivial
  | appendBlob w deleting name size offset =>
    exact confined_appendBlob_iff h w deleting name size offset
  | deleteBlob name => exact confined_deleteBlob_iff name
  | blobChunkStream name => exact iff_of_true (.inr nofun) trivial

/-- Every operation keeps the invariant. -/
theorem WellFormed.perform : WellFormed root (perform legal root op t).tree := by
  cases op with
  | newBlobWriter random name =>
    exact (made_makeFile _ h.rooted _ _).wellFormed h fun _ ↦ ⟨[], nofun, rfl⟩
  | resumeBlobWriter deleting name =>
    change WellFormed root (resumeBlobWriter root deleting name t).tree
    unfold resumeBlobWriter
    split
    · exact h
    · split
      · exact h
      · exact h
  | newBlobReader deleting name => exact h
  | appendBlob w deleting name size offset =>
    obtain ⟨htree | ⟨rs, hrs, htree⟩, -⟩ := appendBlob_spec h legal w deleting name size offset
    · exact htree ▸ h.commitBytes legal w
    · exact htree ▸ (h.commitBytes legal w).appendText fun _ ↦ ⟨rs, hrs, rfl⟩
  | deleteBlob name =>
    change WellFormed root (deleteBlob root name t).tree
    unfold deleteBlob
    split
    · next hname =>
      split
      · exact h
      · next t' hr => exact h.remove (joinPath_ne_nil_of_validForDelete _ hname).2 hr
    · exact h
  | blobChunkStream name => exact h

/-! ### Steps without a name -/

theorem WellFormed.newTempFile (temp text : Str) :
    WellFormed root (newTempFile legal root temp text t) := by
  unfold Blob.newTempFile
  rcases hcreate : FileTree.create legal (root ++ [tmpDir, temp]) text t with _ | t'
  · exact h
  · obtain ⟨q, x, hp, hnone, hdir, -, rfl⟩ := create_eq_some_iff.mp hcreate
    have hrooted := h.rooted.insert (e := .file text) hdir (hp ▸ hnone)
    rw [← hp] at hrooted
    refine ⟨hrooted, fun d hd ↦ ?_, fun {q text'} hle hq ↦ ?_⟩
    · rw [getD_some, AList.lookup_insert_ne (by simp)]
      exact h.dirs d hd
    · rw [getD_some, lookup_insert_eq_ite, if_neg ?_] at hq
      · exact h.written hle hq
      · rintro rfl
        exact not_prefix_of_ne (by decide) _ _ hle

theorem WellFormed.writeToTempFragment (w : Writer) (temp text : Str) :
    WellFormed root (writeToTempFragment legal root w temp text t) := by
  unfold Blob.writeToTempFragment
  split
  · exact h.newTempFile temp text
  · split_ifs
    · exact h.appendText fun hle ↦ absurd hle (not_prefix_of_ne (by decide) _ _)
    · dsimp only
      split
      · exact (h.commitBytes legal w).newTempFile temp text
      · exact h.commitBytes legal w

theorem WellFormed.closeWriter (w : Writer) (hash : Option Hash) :
    WellFormed root (closeWriter legal root w hash t) := by
  have hc := h.commitBytes legal w
  unfold Blob.closeWriter
  split
  · dsimp only
    split
    · exact hc.appendText fun _ ↦ written_text trivial
    · exact hc
  · exact hc

theorem WellFormed.removeAll {ps : List Path} (hps : ∀ p ∈ ps, ∀ d ∈ areas, root ++ [d] ≠ p) :
    WellFormed root (removeAll ps t) := by
  induction ps generalizing t with
  | nil => exact h
  | cons p ps ih =>
    obtain ⟨hp, hrest⟩ := forall_mem_cons.mp hps
    rw [Blob.removeAll, foldl_cons]
    refine ih ?_ hrest
    rcases hr : FileTree.remove p t with _ | t'
    · exact h
    · exact h.remove hp hr

theorem WellFormed.gc (old : Path → Bool) (ok : Bool) (deleting : Str → Bool)
    (active : List BlobDesc) : WellFormed root (gc root old ok deleting active t) := by
  have htemp : WellFormed root
      (Blob.removeAll (t.keys.filter fun p ↦ p.dropLast = root ++ [tmpDir] ∧ old p) t) := by
    refine h.removeAll fun p hp d _ heq ↦ ?_
    have hdrop := (of_decide_eq_true (mem_filter.mp hp).2).1
    rw [← heq, dropLast_concat] at hdrop
    exact absurd hdrop (by simp)
  unfold Blob.gc
  split
  · refine htemp.removeAll fun p hp d hd heq ↦ ?_
    have hfile := (mem_filter.mp (mem_filter.mp hp).1).2
    rw [← heq, htemp.dirs d hd, Bool.and_eq_true] at hfile
    exact nomatch hfile.2
  · exact htemp

/-- Every step keeps the invariant. -/
theorem WellFormed.step (s : Step) : WellFormed root (step legal root t s) := by
  cases s with
  | op op => exact h.perform op
  | writeToTempFragment w temp text => exact h.writeToTempFragment w temp text
  | closeWriter w hash => exact h.closeWriter w hash
  | gc old ok deleting active => exact h.gc old ok deleting active

end Confined

/-! ## Runs -/

def chunkDir : Str := ['c', 'h', 'u', 'n', 'k']

/-- `Create`: the directories of the store are made, and must be there. -/
def create (legal : Str → Bool) (root : Path) (t : Tree) : Option Tree :=
  let dirs := [tmpDir, casDir, chunkDir, blobDir].map fun d ↦ root ++ [d]
  let t' := dirs.foldl (fun t p ↦ (FileTree.makeDirs legal t [] p).1) t
  if dirs.all fun p ↦ AList.lookup p t' = some .dir then some t' else none

theorem wellFormed_create {legal : Str → Bool} {root : Path} {t : Tree} (h : FileTree.Rooted t)
    (hnew : t.lookup (root ++ [blobDir]) = none) (hcreate : create legal root t = some t') :
    WellFormed root t' := by
  have key : ∀ (ps : List Path) (t : Tree), FileTree.Rooted t →
      FileTree.Rooted (ps.foldl (fun t p ↦ (makeDirs legal t [] p).1) t) ∧
      ∀ {q text}, (ps.foldl (fun t p ↦ (makeDirs legal t [] p).1) t).lookup q =
        some (.file text) → t.lookup q = some (.file text) := by
    intro ps
    induction ps with
    | nil => exact fun t h ↦ ⟨h, id⟩
    | cons p ps ih =>
      intro t h
      have hmakes := makes_makeDirs legal p h h.root
      obtain ⟨hrooted, hfile⟩ := ih _ hmakes.rooted
      refine ⟨hrooted, fun hq ↦ ?_⟩
      rcases hmakes.only (hfile hq) with hold | ⟨hdir, -⟩
      · exact hold
      · contradiction
  obtain ⟨hall, ⟨⟩⟩ := ite_none_right_eq_some.mp hcreate
  obtain ⟨hrooted, hfile⟩ := key ([tmpDir, casDir, chunkDir, blobDir].map fun d ↦ root ++ [d]) t h
  refine ⟨hrooted, fun d hd ↦ ?_, fun {p text} hle hp ↦ ?_⟩
  · have hmem : root ++ [d] ∈ [tmpDir, casDir, chunkDir, blobDir].map fun d ↦ root ++ [d] := by
      refine mem_map_of_mem ?_
      simp only [areas, mem_cons, not_mem_nil, or_false] at hd ⊢
      tauto
    simpa using all_eq_true.mp hall _ hmem
  · obtain ⟨xs, rfl⟩ := hle
    have hold := hfile hp
    by_cases hnil : xs = []
    · rw [hnil, append_nil, hnew] at hold
      contradiction
    · rw [h.lookup_append_eq_none (by rw [hnew]; simp) hnil] at hold
      contradiction

/-- **Blob names stay in the store** in every state that steps lead to from a new store, whatever
names they are given, exactly if `NewBlobWriter` is given the empty name or one below the
directories of the store, or can create nothing on its path, `DeleteBlob` finds nothing to remove,
or a file whose name starts with `blob/`, and the writer of `AppendBlob` finds no directory in the
place of its temporary file that it moves or removes. -/
theorem blob_names_confined_iff (legal : Str → Bool) (root : Path) {t₀ t₁ t : Tree}
    {steps : List Step} (hrooted : FileTree.Rooted t₀)
    (hnew : AList.lookup (root ++ [blobDir]) t₀ = none)
    (hcreate : create legal root t₀ = some t₁)
    (hrun : Transition.run (fun t s ↦ some (step legal root t s)) t₁ steps = some t) (op : Op) :
    Confined root t (perform legal root op t) ↔ Harmless legal root t op := by
  have hwf : WellFormed root t := by
    refine Transition.run_invariant ?_ (wellFormed_create hrooted hnew hcreate) hrun
    rintro t s t' h hstep
    obtain rfl := Option.some.inj hstep
    exact h.step s
  exact confined_iff hwf op

/-- A file system with nothing in it. -/
def bareTree : Tree := AList.insert [] .dir ∅

theorem rooted_bareTree : FileTree.Rooted bareTree where
  root := rfl
  parent {p x e} h := by
    rw [bareTree, AList.lookup_insert_ne (by simp), AList.lookup_empty] at h
    exact nomatch h

/-- Sixteen bytes of zero. -/
def zeroHash : Hash := ⟨List.replicate 16 0, rfl⟩

/-- In a store at `/s` a blob of one byte is written and closed, and the garbage collector runs. -/
def writeOneByte : List Step :=
  let w : Writer := ⟨joinPath [['s']] (newBlobName zeroHash), none, none⟩
  let f : Pending := ⟨['n'], zeroHash, 1, by decide, by decide⟩
  [.op (.newBlobWriter zeroHash []), .writeToTempFragment w ['n'] ['x'],
    .closeWriter { w with pending := some f } (some zeroHash),
    .gc (fun _ ↦ true) true (fun _ ↦ false) []]

/-- The blob and its fragment are there then, and the blob can be deleted. -/
theorem writeOneByte_confined_iff :
    (Transition.run (fun t s ↦ some (step (fun _ ↦ true) [['s']] t s))
      ((create (fun _ ↦ true) [['s']] bareTree).get (by decide +kernel)) writeOneByte).any (fun t ↦
        isFile (AList.lookup (joinPath [['s']] (newBlobName zeroHash)) t) &&
          isFile (AList.lookup (joinPath [['s']] (hashToFileName casDir zeroHash)) t)) = true ∧
    ∀ t, Transition.run (fun t s ↦ some (step (fun _ ↦ true) [['s']] t s))
        ((create (fun _ ↦ true) [['s']] bareTree).get (by decide +kernel)) writeOneByte = some t →
      (Confined [['s']] t (perform (fun _ ↦ true) [['s']] (.deleteBlob (newBlobName zeroHash)) t) ↔
        Harmless (fun _ ↦ true) [['s']] t (.deleteBlob (newBlobName zeroHash))) :=
  ⟨by decide +kernel, fun _ hrun ↦ blob_names_confined_iff (fun _ ↦ true) [['s']] rooted_bareTree
    (by decide +kernel) (Option.some_get _).symm hrun _⟩

theorem not_confined_of_mem {root : Path} {t : Tree} {a : Access} (hok : o.ok = true)
    (ha : a ∈ o.log) (hnot : ¬a.Within root) : ¬Confined root t o := by
  rintro (⟨hfail, -⟩ | hall)
  · rw [hok] at hfail
    exact nomatch hfail
  · exact hnot (hall a ha)

/-- In a new store at `/s` the name `../x` makes the file `/x`, and the name of a blob without
`blob/` before it makes a file in `/s`, which `DeleteBlob` then removes. -/
theorem blob_names_escape :
    ∃ t, create (fun _ ↦ true) [['s']] bareTree = some t ∧
      ¬Confined [['s']] t
        (perform (fun _ ↦ true) [['s']] (.newBlobWriter zeroHash ['.', '.', '/', 'x']) t) ∧
      let bare := (newBlobName zeroHash).drop 5
      let t' := (perform (fun _ ↦ true) [['s']] (.newBlobWriter zeroHash bare) t).tree
      ¬Confined [['s']] t' (perform (fun _ ↦ true) [['s']] (.deleteBlob bare) t') := by
  refine ⟨(create (fun _ ↦ true) [['s']] bareTree).get (by decide +kernel),
    (Option.some_get _).symm, ?_, ?_⟩
  · refine not_confined_of_mem (a := .created [['x']]) (by decide +kernel) (by decide +kernel) ?_
    change ¬Inside [['s']] [['x']]
    decide
  · refine not_confined_of_mem (a := .removed
      (joinPath [['s']] ((newBlobName zeroHash).drop 5)) true) (by decide +kernel)
        (by decide +kernel) fun hwithin ↦ ?_
    exact absurd hwithin.2 (by decide +kernel)

end Vanadium.Blob
