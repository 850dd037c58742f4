import Vanadium.Blob.FileOps
import Vanadium.Foundations.Transition

/-!
# The scan of a server for blobs to fetch

`serverBlobScan` opens a reader on every blob it lists, to see whether the blob is finalized. A
reader holds a reference to its descriptor, which stays in `activeDesc` until `Close`, and the scan
closes none.
-/

namespace Vanadium.Blob.ServerScan

open Foundations Transition

variable (root : Path)

/-- A descriptor in `activeDesc`. -/
structure ActiveDesc where
  desc : BlobDesc
  refCount : ℤ
deriving DecidableEq

/-- A `dirListing`: the name at its position and those after it. -/
structure DirListing where
  name : Str
  rest : List Str

/-- A call of `serverBlobScan`: the files it meets, the fragments that are being deleted, how often
it finds its context alive, and the signposts, each with whether this syncbase is a server for
it. -/
structure Scan where
  files : Tree
  deleting : Str → Bool
  live : ℕ
  signposts : List (Str × Bool)
  signpostErr : Bool

/-- The stack of a new iterator. -/
def listBlobIds : List DirListing := [⟨[], [blobDir]⟩]

/-- `Value` of the iterator; the top of its stack comes first. -/
def value (stack : List DirListing) : Str := ['/'].intercalate (stack.reverse.map DirListing.name)

def readdirnames (t : Tree) (p : Path) : List Str :=
  t.keys.filterMap fun q ↦ if q.dropLast = p then q.getLast? else none

/-- `Advance`: the stack at the next blob, or whether it ended with an error. -/
def advance (t : Tree) : ℕ → List DirListing → Option (Except Bool (List DirListing))
  | 0, _ => none
  | _ + 1, [] => some (.error false)
  | n + 1, ⟨_, []⟩ :: stack => advance t n stack
  | n + 1, ⟨_, x :: xs⟩ :: stack =>
    let p := joinPath root (value (⟨x, xs⟩ :: stack))
    match AList.lookup p t with
    | none => some (.error true)
    | some .dir => advance t n (⟨[], readdirnames t p⟩ :: ⟨x, xs⟩ :: stack)
    | some (.file _) => some (.ok (⟨x, xs⟩ :: stack))

variable (n : ℕ) (sc : Scan)

/-- `NewBlobReader`. Its descriptor is new, so `descRef` finds no reference and adds it to the
vector. -/
def newBlobReader (name : Str) (active : List ActiveDesc) : Option BlobDesc × List ActiveDesc :=
  match (getBlob root sc.deleting name sc.files).1 with
  | none => (none, active)
  | some desc => (some desc, active ++ [⟨desc, 1⟩])

/-- The loop over the blobs: the vector, the finalized blobs, `bs.Err()`, and how often the context
will still be found alive. -/
def haveBlobs : ℕ → List DirListing → List ActiveDesc → List Str →
    Option (List ActiveDesc × List Str × Bool × ℕ)
  | live, stack, active, found =>
    match advance root sc.files n stack with
    | none => none
    | some (.error err) => some (active, found, err, live)
    | some (.ok stack) =>
      match live with
      | 0 => some (active, found, false, 0)
      | live + 1 =>
        let r := newBlobReader root sc (value stack) active
        haveBlobs live stack r.2 (if r.1.any BlobDesc.finalized then
          value stack :: found else found)

/-- The vector, the blobs that are to be fetched, and the error. -/
def serverBlobScan (active : List ActiveDesc) : Option (List ActiveDesc × List Str × Bool) :=
  match haveBlobs root n sc sc.live listBlobIds active [] with
  | none => none
  | some (active, _, err, 0) => some (active, [], err)
  | some (active, found, err, live + 1) =>
    if err then some (active, [], true)
    else
      let fetched := (sc.signposts.take live).filter fun sp ↦ !found.contains sp.1 && sp.2
      some (active, fetched.map Prod.fst, sc.signpostErr)

/-- What a scan does to the vector. -/
def scan (active : List ActiveDesc) (sc : Scan) : Option (List ActiveDesc) :=
  (serverBlobScan root n sc active).map Prod.fst

/-- The descriptors that the loop opens while the context is alive. -/
def opened : ℕ → List DirListing → List BlobDesc
  | 0, _ => []
  | live + 1, stack =>
    match advance root sc.files n stack with
    | some (.ok stack) =>
      (getBlob root sc.deleting (value stack) sc.files).1.toList ++ opened live stack
    | _ => []

variable {root n sc} {active active' : List ActiveDesc}

theorem newBlobReader_active (name : Str) : (newBlobReader root sc name active).2 =
    active ++ (getBlob root sc.deleting name sc.files).1.toList.map (⟨·, 1⟩) := by
  rw [newBlobReader]
  cases (getBlob root sc.deleting name sc.files).1 <;> simp

theorem haveBlobs_active {live : ℕ} {stack : List DirListing} {found : List Str}
    {r : List Str × Bool × ℕ} (h : haveBlobs root n sc live stack active found =
      some (active', r)) :
    active' = active ++ (opened root n sc live stack).map (⟨·, 1⟩) := by
  fun_induction haveBlobs root n sc live stack active found with
  | case1 => cases h
  | case2 live _ _ _ _ hadv =>
    cases h
    cases live <;> simp [opened, hadv]
  | case3 =>
    cases h
    simp [opened]
  | case4 _ _ _ _ hadv _ reader ih =>
    rw [ih h, opened, hadv]
    simp [reader, newBlobReader_active]

theorem serverBlobScan_active {r : List Str × Bool}
    (h : serverBlobScan root n sc active = some (active', r)) :
    active' = active ++ (opened root n sc sc.live listBlobIds).map (⟨·, 1⟩) := by
  unfold serverBlobScan at h
  cases hloop : haveBlobs root n sc sc.live listBlobIds active [] with
  | none => simp [hloop] at h
  | some loop =>
    obtain ⟨active₁, found, err, live⟩ := loop
    obtain rfl : active₁ = active' := by cases live <;> cases err <;> simp_all
    exact haveBlobs_active hloop

theorem scans_active {scans : List Scan}
    (h : run (scan root n) active scans = some active') :
    active' = active ++
      (scans.flatMap fun sc ↦ opened root n sc sc.live listBlobIds).map (⟨·, 1⟩) := by
  induction scans generalizing active with
  | nil => simpa [run, eq_comm] using h
  | cons sc scans ih =>
    obtain ⟨active₁, hstep, hrun⟩ := run_cons_eq_some_iff.mp h
    obtain ⟨⟨_, r⟩, hscan, rfl⟩ := Option.map_eq_some_iff.mp hstep
    rw [ih hrun, serverBlobScan_active hscan]
    simp

/-- **A scan leaves its readers open.** After any scans the descriptors in use, with their counts,
are those before exactly when no scan could open a blob. -/
theorem activeDesc_kept_iff (root : Path) (n : ℕ) {scans : List Scan}
    {active active' : List ActiveDesc} (h : run (scan root n) active scans = some active') :
    active'.Perm active ↔ ∀ sc ∈ scans, opened root n sc sc.live listBlobIds = [] := by
  rw [scans_active h]
  constructor
  · intro hperm
    have hlen := hperm.length_eq
    rw [List.length_append, List.length_map] at hlen
    exact List.flatMap_eq_nil_iff.mp (List.eq_nil_of_length_eq_zero (by omega))
  · intro hnone
    rw [List.flatMap_eq_nil_iff.mpr hnone]
    simp

/-- A store at `/s` that holds one empty blob; the context is cancelled after some checks. -/
def oneBlob (name : Str) (live : ℕ) : Scan :=
  ⟨AList.insert [['s'], blobDir, name] (.file []) (AList.insert [['s'], blobDir] .dir ∅),
    fun _ ↦ false, live, [], false⟩

/-- The blob of the first scan cannot be opened because of its name, and the context of the second
one is cancelled before it comes to a blob. The descriptor that was in use stays. -/
theorem unreadable_blob_keeps_activeDesc :
    let scans := [oneBlob ['x', '.', 'y'] 9, oneBlob ['x'] 0]
    run (scan [['s']] 9) [⟨.empty, 2⟩] scans = some [⟨.empty, 2⟩] ∧
      ∀ sc ∈ scans, opened [['s']] 9 sc sc.live listBlobIds = [] := by
  intro scans
  have hrun : run (scan [['s']] 9) [⟨.empty, 2⟩] scans = some [⟨.empty, 2⟩] := by decide +kernel
  exact ⟨hrun, (activeDesc_kept_iff _ _ hrun).mp (List.Perm.refl _)⟩

/-- Two scans that are not cancelled leave two descriptors of the same blob. -/
theorem scan_leaks_descriptor :
    run (scan [['s']] 9) [] [oneBlob ['x'] 9, oneBlob ['x'] 9] = some [⟨.empty, 1⟩, ⟨.empty, 1⟩] ∧
      ¬[ActiveDesc.mk .empty 1, ⟨.empty, 1⟩].Perm [] := by
  decide +kernel

end Vanadium.Blob.ServerScan
