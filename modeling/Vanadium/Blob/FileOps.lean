import Vanadium.Blob.BlobFile
import Vanadium.Foundations.FileTree

/-!
# Operations on blobs as operations on files

The operations that take the name of a blob are modelled by what they do to the tree of files: which
files they open, create and remove. `getBlob` accepts names that start with `blob/` and have no dot.
`DeleteBlob` forbids dots as well, but `fileNameToHash` accepts a hash without `blob/` before it,
and anything after it. `NewBlobWriter` looks at nothing.

Between them stand steps without a name: bytes are appended, a writer ends, and the garbage
collector runs. They are modelled by the tree that they leave.
-/

namespace Vanadium.Blob

open Foundations List Option

abbrev Path : Type := List Str
abbrev Tree : Type := FileTree Str Str

/-! ## Paths -/

/-- `Clean` on the next element of a path. -/
def cleanElem (p : Path) (e : Str) : Path :=
  if e = [] ∨ e = ['.'] then p else if e = ['.', '.'] then p.dropLast else p ++ [e]

/-- `Join` of the absolute path of the store and a name. -/
def joinPath (root : Path) (name : Str) : Path := (name.splitOn '/').foldl cleanElem root

/-- The directories of the store for blobs, fragments and temporary files. -/
def areas : List Str := [blobDir, casDir, tmpDir]

/-- A path below one of these directories. -/
def Inside (root p : Path) : Prop := ∃ d ∈ areas, root ++ [d] <+: p ∧ root ++ [d] ≠ p

instance (root p : Path) : Decidable (Inside root p) :=
  inferInstanceAs (Decidable (∃ d ∈ areas, root ++ [d] <+: p ∧ root ++ [d] ≠ p))

/-! ## Operations -/

/-- What an operation does with a file or directory that it finds or makes. Opening a directory is
not listed: it cannot be read, so it is as if it could not be opened. -/
inductive Access where
  | opened (p : Path)
  | madeDir (p : Path)
  | created (p : Path)
  | removed (p : Path) (regular : Bool)
  | movedDir (p q : Path)
deriving DecidableEq

/-- The tree after an operation, what it did, and whether it returned no error. -/
structure Outcome where
  tree : Tree
  log : List Access
  ok : Bool

def isFile : Option (Entry Str) → Bool
  | some (.file _) => true
  | _ => false

/-- The bytes of a `BlobWriter` that are not committed: they are in a temporary file. -/
structure Pending where
  temp : Str
  hash : Hash
  size : ℤ
  pos : 0 < size
  le : size ≤ maxFragmentSize

/-- A `BlobWriter`: the file of its blob, the last fragment of the blob, and bytes to be
committed. -/
structure Writer where
  file : Path
  last : Option Hash
  pending : Option Pending

section Operations

variable (legal : Str → Bool) (root : Path)

/-- `MkdirAll` of the directory of a file, then the file itself, which must not exist. -/
def makeFile (p : Path) (text : Str) (t : Tree) : Outcome :=
  let made := FileTree.makeDirs legal t [] p.dropLast
  match FileTree.create legal p text made.1 with
  | some t' => ⟨t', made.2.map .madeDir ++ [.created p], true⟩
  | none => ⟨made.1, made.2.map .madeDir, false⟩

def newBlobWriter (random : Hash) (name : Str) (t : Tree) : Outcome :=
  makeFile legal (joinPath root (if name = [] then newBlobName random else name)) [] t

/-- Whether `getBlob` accepts a name. -/
def validForGet (name : Str) : Bool := (blobDir ++ ['/']).isPrefixOf name && !name.contains '.'

/-- Some fragments may be about to be deleted by the garbage collector; then there is no
descriptor. -/
def getBlob (deleting : Str → Bool) (name : Str) (t : Tree) : Option BlobDesc × List Access :=
  if validForGet name then
    match AList.lookup (joinPath root name) t with
    | some (.file text) =>
      ((readDesc text).filter fun desc ↦ !desc.fragment.any fun f ↦ deleting f.fileName,
        [.opened (joinPath root name)])
    | _ => (none, [])
  else (none, [])

/-- A `BlobReader` opens one fragment after the other, up to the first that cannot be read. -/
def openFragments (t : Tree) : List Str → List Access × Bool
  | [] => ([], true)
  | f :: fs =>
    match AList.lookup (joinPath root f) t with
    | some (.file _) =>
      let rest := openFragments t fs
      (.opened (joinPath root f) :: rest.1, rest.2)
    | _ => ([], false)

def resumeBlobWriter (deleting : Str → Bool) (name : Str) (t : Tree) : Outcome :=
  match getBlob root deleting name t with
  | (none, log) => ⟨t, log, false⟩
  | (some desc, log) =>
    if desc.finalized then ⟨t, log, false⟩
    else
      let rd := openFragments root t (desc.fragment.map BlobFragment.fileName)
      ⟨t, log ++ .opened (joinPath root name) :: rd.1, rd.2⟩

def newBlobReader (deleting : Str → Bool) (name : Str) (t : Tree) : Outcome :=
  let r := getBlob root deleting name t
  ⟨t, r.2, r.1.isSome⟩

/-- Write to the file of a blob. The file may have been removed while it is open. -/
def appendText (p : Path) (text : Str) (t : Tree) : Tree :=
  match AList.lookup p t with
  | some (.file old) => AList.insert p (.file (old ++ text)) t
  | _ => t

def tempPath (f : Pending) : Path := root ++ [tmpDir, f.temp]

/-- Whether `Stat` says that a file does not exist. It gives another error if a part of the path is
a file. -/
def isNotExist (p : Path) (t : Tree) : Bool :=
  (AList.lookup p t).isNone && !p.inits.any fun q ↦ isFile (AList.lookup q t)

def fragmentPath (f : Pending) : Path := joinPath root (hashToFileName casDir f.hash)

/-- `MkdirAll`, then `Rename` of a directory, which works where a file could be created. -/
def moveDir (p q : Path) (t : Tree) : Outcome :=
  let made := FileTree.makeDirs legal t [] q.dropLast
  match FileTree.create legal q [] made.1 with
  | some _ => ⟨FileTree.move p q made.1, made.2.map .madeDir ++ [.movedDir p q], true⟩
  | none => ⟨made.1, made.2.map .madeDir, false⟩

/-- Put the temporary file in its place below `cas` if there is no such fragment yet. For a file,
`Link` and `Remove` do the same as the `Rename` that is tried if `Link` fails; `Link` fails for a
directory. -/
def placeFragment (f : Pending) (t : Tree) : Outcome :=
  if isNotExist (fragmentPath root f) t then
    match AList.lookup (tempPath root f) t with
    | some (.file text) => makeFile legal (fragmentPath root f) text t
    | some .dir => moveDir legal (tempPath root f) (fragmentPath root f) t
    | none =>
      let made := FileTree.makeDirs legal t [] (fragmentPath root f).dropLast
      ⟨made.1, made.2.map .madeDir, false⟩
  else ⟨t, [], true⟩

/-- `os.Remove` of the temporary file. -/
def removeTemp (f : Pending) (t : Tree) : Tree × List Access :=
  match FileTree.remove (tempPath root f) t with
  | none => (t, [])
  | some t' => (t', [.removed (tempPath root f) (isFile (AList.lookup (tempPath root f) t))])

/-- The temporary file is removed in any case. -/
def commitBytes (w : Writer) (t : Tree) : Outcome :=
  match w.pending with
  | none => ⟨t, [], true⟩
  | some f =>
    let placed := placeFragment legal root f t
    let removed := removeTemp root f placed.tree
    let line := (Record.fragment f.size 0 (hashToFileName casDir f.hash)).text
    ⟨if placed.ok then appendText w.file line removed.1 else removed.1, placed.log ++ removed.2,
      placed.ok⟩

/-- The loop of `AppendBlob` over the fragments of the other blob. -/
def appendRange : List BlobFragment → ℤ → ℤ → List Record
  | [], _, _ => []
  | f :: fs, size, offset =>
    if size ≤ 0 then []
    else if f.size ≤ offset then appendRange fs size (offset - f.size)
    else
      let consume := min (f.size - offset) size
      .fragment consume (offset + f.offset) f.fileName :: appendRange fs (size - consume) 0

def Record.fileName? : Record → Option Str
  | .fragment _ _ fileName => some fileName
  | .finalize _ => none

/-- The last fragment of the blob that is written. -/
def Writer.lastFragment (w : Writer) : List Str :=
  ((w.pending.map Pending.hash).or w.last).toList.map (hashToFileName casDir)

/-- The sum of size and offset wraps. The new bytes are hashed by a reader that starts where the
blob ended; if there are none it opens the last fragment. -/
def appendBlob (w : Writer) (deleting : Str → Bool) (name : Str) (size offset : ℤ) (t : Tree) :
    Outcome :=
  let c := commitBytes legal root w t
  if c.ok then
    match getBlob root deleting name c.tree with
    | (none, log) => ⟨c.tree, c.log ++ log, false⟩
    | (some desc, log) =>
      let size := if size = -1 then desc.size - offset else size
      if offset < 0 ∨ desc.size < Int.bmod (offset + size) (2 ^ 64) then
        ⟨c.tree, c.log ++ log, false⟩
      else
        let new := appendRange desc.fragment size offset
        let names := if new = [] then w.lastFragment else new.filterMap Record.fileName?
        let rd := openFragments root c.tree names
        ⟨appendText w.file (new.flatMap Record.text) c.tree, c.log ++ log ++ rd.1, rd.2⟩
  else c

/-- Whether `DeleteBlob` accepts a name. -/
def validForDelete (name : Str) : Bool :=
  (fileNameToHash blobDir name).isSome && !name.contains '.'

def deleteBlob (name : Str) (t : Tree) : Outcome :=
  if validForDelete name then
    match FileTree.remove (joinPath root name) t with
    | none => ⟨t, [], false⟩
    | some t' =>
      ⟨t', [.removed (joinPath root name) (isFile (AList.lookup (joinPath root name) t))], true⟩
  else ⟨t, [], false⟩

/-- The chunks of a blob are looked up in the blob map only. -/
def blobChunkStream (name : Str) (t : Tree) : Outcome :=
  ⟨t, [], (fileNameToHash blobDir name).isSome⟩

/-- The operations that take the name of a blob. -/
inductive Op where
  | newBlobWriter (random : Hash) (name : Str)
  | resumeBlobWriter (deleting : Str → Bool) (name : Str)
  | newBlobReader (deleting : Str → Bool) (name : Str)
  | appendBlob (w : Writer) (deleting : Str → Bool) (name : Str) (size offset : ℤ)
  | deleteBlob (name : Str)
  | blobChunkStream (name : Str)

def perform : Op → Tree → Outcome
  | .newBlobWriter random name => newBlobWriter legal root random name
  | .resumeBlobWriter deleting name => resumeBlobWriter root deleting name
  | .newBlobReader deleting name => newBlobReader root deleting name
  | .appendBlob w deleting name size offset => appendBlob legal root w deleting name size offset
  | .deleteBlob name => deleteBlob root name
  | .blobChunkStream name => blobChunkStream name

/-! ### Operations without a name -/

/-- A temporary file is made and written to. -/
def newTempFile (temp text : Str) (t : Tree) : Tree :=
  (FileTree.create legal (root ++ [tmpDir, temp]) text t).getD t

/-- One pass of the loop of `writeToTempFragment`; `AppendBytes` consists of such passes. Bytes go
to the temporary file, and to a new one if there is none or if it is full and is committed. -/
def writeToTempFragment (w : Writer) (temp text : Str) (t : Tree) : Tree :=
  match w.pending with
  | none => newTempFile legal root temp text t
  | some f =>
    if f.size < maxFragmentSize then appendText (tempPath root f) text t
    else
      let c := commitBytes legal root w t
      if c.ok then newTempFile legal root temp text c.tree else c.tree

/-- `Close` with the hash of the blob, and `CloseWithoutFinalize` without. -/
def closeWriter (w : Writer) (hash : Option Hash) (t : Tree) : Tree :=
  let c := commitBytes legal root w t
  match hash with
  | some h => if c.ok then appendText w.file (Record.finalize h).text c.tree else c.tree
  | none => c.tree

/-- The files that the streams of `ListBlobIds` and `ListCAIds` yield. -/
def listFiles (d : Str) (t : Tree) : List Path :=
  t.keys.filter fun p ↦ (root ++ [d]).isPrefixOf p && isFile (AList.lookup p t)

/-- `os.Remove` of several files. Errors are ignored. -/
def removeAll (ps : List Path) (t : Tree) : Tree :=
  ps.foldl (fun t p ↦ (FileTree.remove p t).getD t) t

/-- `GC`: old temporary files go, and so do the fragments that neither a blob nor an open reader or
writer lists, unless there was an error before (`ok`). -/
def gc (old : Path → Bool) (ok : Bool) (deleting : Str → Bool) (active : List BlobDesc) (t : Tree) :
    Tree :=
  let t₁ := removeAll (t.keys.filter fun p ↦ p.dropLast = root ++ [tmpDir] ∧ old p) t
  let blobs := (listFiles root blobDir t₁).filterMap fun p ↦
    (getBlob root deleting (['/'].intercalate (p.drop root.length)) t₁).1
  let used := (blobs ++ active).flatMap fun desc ↦ desc.fragment.map fun f ↦
    joinPath root f.fileName
  if ok then removeAll ((listFiles root casDir t₁).filter fun p ↦ !used.contains p) t₁ else t₁

/-- What is done to the files of the store. -/
inductive Step where
  | op (op : Op)
  | writeToTempFragment (w : Writer) (temp text : Str)
  | closeWriter (w : Writer) (hash : Option Hash)
  | gc (old : Path → Bool) (ok : Bool) (deleting : Str → Bool) (active : List BlobDesc)

def step (t : Tree) : Step → Tree
  | .op op => (perform legal root op t).tree
  | .writeToTempFragment w temp text => writeToTempFragment legal root w temp text t
  | .closeWriter w hash => closeWriter legal root w hash t
  | .gc old ok deleting active => gc root old ok deleting active t

end Operations

/-! ## The property -/

/-- Only regular files of the store. -/
def Access.Within (root : Path) : Access → Prop
  | .opened p => Inside root p
  | .madeDir p => Inside root p
  | .created p => Inside root p
  | .removed p regular => regular = true ∧ Inside root p
  | .movedDir _ _ => False

/-- An operation fails without effect, or touches only regular files of the store. -/
def Confined (root : Path) (t : Tree) (o : Outcome) : Prop :=
  o.ok = false ∧ o.tree = t ∨ ∀ a ∈ o.log, a.Within root

/-- There is a directory in the place of the temporary file that `commitBytes` moves: the fragment
is not there, and can be placed. -/
def movesDir (legal : Str → Bool) (root : Path) (f : Pending) (t : Tree) : Prop :=
  AList.lookup (tempPath root f) t = some .dir ∧ isNotExist (fragmentPath root f) t = true ∧
    (makeFile legal (fragmentPath root f) [] t).ok = true

/-- When an operation is confined. -/
def Harmless (legal : Str → Bool) (root : Path) (t : Tree) : Op → Prop
  | .newBlobWriter _ name =>
    name = [] ∨ Inside root (joinPath root name) ∨ FileTree.Blocked legal t (joinPath root name)
  | .appendBlob w _ _ _ _ =>
    ∀ f ∈ w.pending, ¬movesDir legal root f t ∧
      (AList.lookup (tempPath root f) t = some .dir → FileTree.isLeaf (tempPath root f) t = false)
  | .deleteBlob name =>
    validForDelete name = true →
      match AList.lookup (joinPath root name) t with
      | none => True
      | some (.file _) => blobDir ++ ['/'] <+: name
      | some .dir => FileTree.isLeaf (joinPath root name) t = false
  | _ => True

/-! ## Names that are accepted -/

section Names

variable {root p q : Path} {name s e s' : Str} {bs : List Byte}

theorem inside_iff : Inside root p ↔ ∃ d ∈ areas, ∃ x xs, p = root ++ d :: x :: xs := by
  constructor
  · rintro ⟨d, hd, ⟨l, rfl⟩, hne⟩
    cases l with
    | nil => exact absurd (append_nil _).symm hne
    | cons x xs => exact ⟨d, hd, x, xs, by simp⟩
  · rintro ⟨d, hd, x, xs, rfl⟩
    exact ⟨d, hd, ⟨x :: xs, by simp⟩, by simp⟩

theorem Inside.of_prefix (h : Inside root q) (hle : q <+: p) : Inside root p := by
  obtain ⟨d, hd, hq, hne⟩ := h
  refine ⟨d, hd, hq.trans hle, ?_⟩
  rintro rfl
  exact hne (hq.eq_of_length_le hle.length_le)

theorem mem_of_mem_splitOn {c : Char} (he : e ∈ name.splitOn '/') (hc : c ∈ e) :
    c ∈ name := by
  induction name generalizing e with
  | nil =>
    rw [splitOn_nil, mem_singleton] at he
    exact he ▸ hc
  | cons x name ih =>
    rw [splitOn_cons_eq_if_modifyHead] at he
    split at he
    · rcases mem_cons.mp he with rfl | he
      · exact nomatch hc
      · exact mem_cons_of_mem _ (ih he hc)
    · obtain ⟨e', es, hes⟩ := exists_cons_of_ne_nil (splitOn_ne_nil '/' name)
      rw [hes, modifyHead_cons] at he
      rw [hes] at ih
      rcases mem_cons.mp he with rfl | he
      · rcases mem_cons.mp hc with rfl | hc
        · exact mem_cons_self
        · exact mem_cons_of_mem _ (ih mem_cons_self hc)
      · exact mem_cons_of_mem _ (ih (mem_cons_of_mem _ he) hc)

/-- The elements of a name without a dot are kept, except that empty ones go. -/
theorem joinPath_of_no_dot (h : '.' ∉ name) :
    joinPath root name = root ++ (name.splitOn '/').filter (fun e ↦ !e.isEmpty) := by
  have key : ∀ (es : List Str) (p : Path), (∀ e ∈ es, '.' ∉ e) →
      es.foldl cleanElem p = p ++ es.filter fun e ↦ !e.isEmpty := by
    intro es
    induction es with
    | nil => simp
    | cons e es ih =>
      intro p hes
      have he := hes e mem_cons_self
      rw [foldl_cons, ih _ fun e' he' ↦ hes e' (mem_cons_of_mem _ he'), cleanElem]
      by_cases hnil : e = []
      · simp [hnil]
      · have hdot : e ≠ ['.'] := by
          rintro rfl
          exact he (by simp)
        have hdots : e ≠ ['.', '.'] := by
          rintro rfl
          exact he (by simp)
        simp [hnil, hdot, hdots]
  exact key _ _ fun e he hdot ↦ h (mem_of_mem_splitOn he hdot)

theorem joinPath_cons {rest : Str} (hdot : '.' ∉ e ++ '/' :: rest) (hslash : '/' ∉ e)
    (hne : e ≠ []) : joinPath root (e ++ '/' :: rest) =
      root ++ e :: (rest.splitOn '/').filter (fun e ↦ !e.isEmpty) := by
  rw [joinPath_of_no_dot hdot, splitOn_append_cons_self_of_not_mem hslash, filter_cons_of_pos]
  simpa using hne

theorem validForGet_iff : validForGet name = true ↔ blobDir ++ ['/'] <+: name ∧ '.' ∉ name := by
  rw [validForGet, Bool.and_eq_true, isPrefixOf_iff_prefix]
  simp

theorem joinPath_of_validForGet (root : Path) (h : validForGet name = true) :
    ∃ xs, joinPath root name = root ++ blobDir :: xs := by
  obtain ⟨⟨rest, rfl⟩, hdot⟩ := validForGet_iff.mp h
  rw [append_assoc, singleton_append] at hdot ⊢
  exact ⟨_, joinPath_cons hdot (by decide) (by decide)⟩

/-! ### Names that are scanned -/

/-- What `%02x` consumes: spaces and hexadecimal digits. -/
def HexOrSpace (c : Char) : Prop := isSpace c = true ∨ (hexVal c).isSome

theorem skipSpace_spec (h : skipSpace s = some s') :
    ∃ e, s = e ++ s' ∧ ∀ c ∈ e, HexOrSpace c := by
  induction s with
  | nil =>
    obtain rfl := some.inj h
    exact ⟨[], rfl, nofun⟩
  | cons c s ih =>
    obtain ⟨-, h⟩ := ite_none_left_eq_some.mp h
    split at h
    · next hc =>
      obtain ⟨e, rfl, he⟩ := ih h
      exact ⟨c :: e, rfl, forall_mem_cons.mpr ⟨.inl hc, he⟩⟩
    · obtain rfl := some.inj h
      exact ⟨[], rfl, nofun⟩

theorem scanHex_spec {b : Byte} (h : scanHex s = some (b, s')) :
    ∃ e, e ≠ [] ∧ s = e ++ s' ∧ ∀ c ∈ e, HexOrSpace c := by
  unfold scanHex at h
  split at h
  · next c s₁ hskip =>
    obtain ⟨e, rfl, he⟩ := skipSpace_spec hskip
    split at h
    · exact nomatch h
    · next d hd =>
      obtain ⟨-, rfl⟩ := Prod.mk.inj (some.inj h)
      have hc : HexOrSpace c := .inr (by rw [hd]; rfl)
      exact ⟨e ++ [c], by simp, by simp, forall_mem_append.mpr ⟨he, forall_mem_singleton.mpr hc⟩⟩
    · next d c₁ s₂ hd =>
      have hc : HexOrSpace c := .inr (by rw [hd]; rfl)
      split at h
      · obtain ⟨-, rfl⟩ := Prod.mk.inj (some.inj h)
        exact ⟨e ++ [c], by simp, by simp, forall_mem_append.mpr ⟨he, forall_mem_singleton.mpr hc⟩⟩
      · next d₁ hd₁ =>
        obtain ⟨-, rfl⟩ := Prod.mk.inj (some.inj h)
        have hc₁ : HexOrSpace c₁ := .inr (by rw [hd₁]; rfl)
        refine ⟨e ++ [c, c₁], by simp, by simp, forall_mem_append.mpr ⟨he, ?_⟩⟩
        exact forall_mem_cons.mpr ⟨hc, forall_mem_singleton.mpr hc₁⟩
  · exact nomatch h

/-- The first element of a name that is scanned. -/
theorem exists_elem_of_sscanf {ds : List Directive}
    (h : sscanf (.hex :: .lit '/' :: ds) s = some bs) :
    ∃ e rest, e ≠ [] ∧ s = e ++ '/' :: rest ∧ ∀ c ∈ e, HexOrSpace c := by
  obtain ⟨⟨b, s'⟩, hscan, h⟩ := bind_eq_some_iff.mp h
  obtain ⟨bs', h', -⟩ := bind_eq_some_iff.mp h
  obtain ⟨e, hne, rfl, he⟩ := scanHex_spec hscan
  cases s' with
  | nil => contradiction
  | cons x s' =>
    obtain ⟨hx, h'⟩ := ite_none_right_eq_some.mp h'
    exact ⟨e, s', hne, by rw [hx], he⟩

theorem not_hexOrSpace_slash : ¬HexOrSpace '/' := by
  rintro (h | h)
  · exact nomatch h
  · exact nomatch h

theorem not_mem_areas (he : ∀ c ∈ e, HexOrSpace c) : e ∉ areas := by
  intro hmem
  have hbad (c : Char) (hs : isSpace c = false) (hx : hexVal c = none) : c ∉ e := by
    intro hc
    rcases he c hc with h | h
    · rw [hs] at h
      exact nomatch h
    · rw [hx] at h
      exact nomatch h
  simp only [areas, mem_cons, not_mem_nil, or_false] at hmem
  rcases hmem with rfl | rfl | rfl
  · exact hbad 'l' rfl rfl (by decide)
  · exact hbad 's' rfl rfl (by decide)
  · exact hbad 't' rfl rfl (by decide)

/-- `DeleteBlob` removes what is in the directory of blobs, or what is in no directory of the
store. -/
theorem joinPath_of_validForDelete (root : Path) (h : validForDelete name = true) :
    (blobDir ++ ['/'] <+: name ∧ ∃ x xs, joinPath root name = root ++ blobDir :: x :: xs) ∨
    (¬blobDir ++ ['/'] <+: name ∧ ∃ x xs, joinPath root name = root ++ x :: xs ∧ x ∉ areas) := by
  rw [validForDelete, Bool.and_eq_true] at h
  obtain ⟨hhash, hdot⟩ := h
  replace hdot : '.' ∉ name := by simpa using hdot
  obtain ⟨bs, hbs⟩ : ∃ bs, sscanf fileNameFormat (trimPrefix (blobDir ++ ['/']) name) =
    some bs := by
    rw [fileNameToHash, scanHash] at hhash
    split at hhash
    · contradiction
    · next bs hbs => exact ⟨bs, hbs⟩
  obtain ⟨e, rest, hne, hs, he⟩ := exists_elem_of_sscanf hbs
  have hslash : '/' ∉ e := fun hmem ↦ not_hexOrSpace_slash (he _ hmem)
  rw [trimPrefix] at hs
  split at hs
  · next hpre =>
    rw [List.isPrefixOf_iff_prefix] at hpre
    refine .inl ⟨hpre, e, (rest.splitOn '/').filter (fun e ↦ !e.isEmpty), ?_⟩
    obtain ⟨s, rfl⟩ := hpre
    rw [drop_left] at hs
    subst hs
    rw [append_assoc, singleton_append] at hdot ⊢
    rw [joinPath_cons hdot (by decide) (by decide),
      splitOn_append_cons_self_of_not_mem hslash, filter_cons_of_pos (by simpa using hne)]
  · next hpre =>
    rw [List.isPrefixOf_iff_prefix] at hpre
    subst hs
    exact .inr ⟨hpre, e, _, joinPath_cons hdot hslash hne, not_mem_areas he⟩

theorem not_mem_flatMap_hex2 : '.' ∉ bs.flatMap hex2 ∧ '/' ∉ bs.flatMap hex2 := by
  have hdigit : ∀ n < 16, Nat.digitChar n ≠ '.' ∧ Nat.digitChar n ≠ '/' := by decide
  have key (c : Char) (hc : c ∈ bs.flatMap hex2) : c ≠ '.' ∧ c ≠ '/' := by
    obtain ⟨b, -, hc⟩ := mem_flatMap.mp hc
    simp only [hex2, mem_cons, not_mem_nil, or_false] at hc
    rcases hc with rfl | rfl <;> exact hdigit _ (by omega)
  exact ⟨fun hc ↦ (key _ hc).1 rfl, fun hc ↦ (key _ hc).2 rfl⟩

/-- Files named after a hash. -/
theorem joinPath_hashToFileName (root : Path) {d : Str} (hd : d = blobDir ∨ d = casDir)
    (hash : Hash) : ∃ x xs, joinPath root (hashToFileName d hash) = root ++ d :: x :: xs := by
  have hdir : '.' ∉ d ∧ '/' ∉ d ∧ d ≠ [] := by rcases hd with rfl | rfl <;> decide
  have hne : (hash.bytes.take 1).flatMap hex2 ≠ [] := by
    rw [← length_pos_iff, length_flatMap_hex2, length_take, hash.length_eq]
    decide
  rw [hashToFileName]
  generalize hash.bytes.take 1 = b₀ at hne
  generalize (hash.bytes.drop 1).take 1 = b₁
  generalize (hash.bytes.drop 2).take 1 = b₂
  generalize hash.bytes.drop 3 = b₃
  have hname : ['/'].intercalate [d, b₀.flatMap hex2, b₁.flatMap hex2, b₂.flatMap hex2,
      b₃.flatMap hex2] = d ++ '/' :: (b₀.flatMap hex2 ++ '/' :: (b₁.flatMap hex2 ++ '/' ::
        (b₂.flatMap hex2 ++ '/' :: b₃.flatMap hex2))) := by
    simp [intercalate_cons_cons]
  have hdot : '.' ∉ d ++ '/' :: (b₀.flatMap hex2 ++ '/' :: (b₁.flatMap hex2 ++ '/' ::
        (b₂.flatMap hex2 ++ '/' :: b₃.flatMap hex2))) := by
    simp only [mem_append, mem_cons, not_or]
    exact ⟨hdir.1, by decide, not_mem_flatMap_hex2.1, by decide, not_mem_flatMap_hex2.1, by decide,
      not_mem_flatMap_hex2.1, by decide, not_mem_flatMap_hex2.1⟩
  rw [hname, joinPath_cons hdot hdir.2.1 hdir.2.2,
    splitOn_append_cons_self_of_not_mem not_mem_flatMap_hex2.2,
    filter_cons_of_pos (by simpa using hne)]
  exact ⟨_, _, rfl⟩

end Names

end Vanadium.Blob
