import Vanadium.MountTable.Tree

/-!
# The calls of a mount table

Every call starts without locks. A call returns a value or an error of the mount table; a fault is a
crash of the server.
-/

namespace Vanadium.MountTable

open Foundations

/-- The elements of a name. -/
def elemsOf (name : Str) : List Str := if name = [] then [] else name.splitOn '/'

/-- The first elements of a slice, all but the last. -/
def initSlice (elems : List Str) : M (List Str) :=
  if elems = [] then throw .sliceOutOfRange else pure elems.dropLast

section Calls

variable (cfg : Config) (cc : CallContext)

def resolveStep (name : Str) : M (Except MtError MountEntry) := do
  let cc := { cc with create := false }
  match ← findMountPoint cfg cc (elemsOf name) with
  | .error err => pure (.error err)
  | .ok none => pure (.error (if elemsOf name = [] then .noSuchNameRoot else .noSuchName))
  | .ok (some (p, elems)) =>
    unlock (parentLock p)
    let n ← getNode p
    match n.mount with
    | none => throw .nilDeref
    | some m =>
      unlock (some p)
      pure (.ok ⟨['/'].intercalate elems, m.servers, m.mt, m.leaf⟩)

def maxNameElementLen : ℕ := 512

def checkElementLengths (elems : List Str) : Bool :=
  elems.all fun e ↦ (e.map Char.utf8Size).sum ≤ maxNameElementLen

/-- The server is refreshed and moved to the front if it is in the list. -/
def addServer (servers : List Server) (server : Str) (expires : ℤ) : List Server :=
  ⟨server, expires⟩ :: servers.eraseP fun s ↦ s.oa = server

structure MountFlags where
  mt : Bool
  leaf : Bool
  replace : Bool

def mount (name server : Str) (ttlsecs : ℕ) (flags : MountFlags) : M (Except MtError Unit) := do
  if !checkElementLengths (elemsOf name) then pure (.error .nameElementTooLong)
  else if !cfg.lib.validServer server then pure (.error .malformedAddress)
  else
    let ttl : ℤ := if ttlsecs = 0 then 10 * 365 * 24 * 60 * 60 else ttlsecs
    match ← findNode cfg { cc with create := true } (elemsOf name) mountTags none with
    | .error err => pure (.error err)
    | .ok none => pure (.error .noSuchNameRoot)
    | .ok (some p) =>
      unlock (parentLock p)
      let n ← getNode p
      if n.mount.any fun m ↦ flags.mt != m.mt then
        unlock (some p)
        pure (.error .mtDoesntMatch)
      else if n.mount.any fun m ↦ flags.leaf != m.leaf then
        unlock (some p)
        pure (.error .leafDoesntMatch)
      else
        -- Remove any existing children.
        (childNames (← get).nodes p).forM fun child ↦ deleteNode p child
        let n ← getNode p
        let m := if flags.replace then ⟨[], flags.mt, flags.leaf⟩
          else n.mount.getD ⟨[], flags.mt, flags.leaf⟩
        let t ← now
        putNode p { n with mount := some { m with
          servers := addServer m.servers server (t + ttl) } }
        unlock (some p)
        pure (.ok ())

/-- The mount of a node without a server, or without all of them. -/
def removeServer (mount : Option Mount) (server : Str) : Option Mount :=
  if server = [] then none
  else
    mount.bind fun m ↦
      let servers := m.servers.eraseP fun s ↦ s.oa = server
      if servers = [] then none else some { m with servers := servers }

/-- What `Unmount` does with the node it finds, until the locks are released. -/
def unmountNode (p : Path) (server : Str) : M Bool := do
  let n ← getNode p
  putNode p { n with mount := removeServer n.mount server }
  let removed ← removeUseless p
  release p
  pure removed

def unmount (name server : Str) : M (Except MtError Unit) := do
  let cc := { cc with create := false }
  match ← findNode cfg cc (elemsOf name) mountTags none with
  | .error err => pure (.error err)
  | .ok none => pure (.ok ())
  | .ok (some p) =>
    if ← unmountNode p server then
      let elems ← initSlice (elemsOf name)
      removeUselessRecursive cfg cc elems elems.length
    pure (.ok ())

def persistDelete (name : Str) : M Unit :=
  modify fun s ↦ { s with log := s.log ++ [⟨name, ⟨0, none⟩, true, []⟩] }

def delete (name : Str) (deleteSubTree : Bool) : M (Except MtError Unit) := do
  let cc := { cc with create := false }
  match (elemsOf name).getLast? with
  | none => pure (.error .cantDeleteRoot)
  | some child =>
    match ← findNode cfg cc (elemsOf name) removeTags removeTags with
    | .error err => pure (.error err)
    | .ok none => pure (.ok ())
    | .ok (some p) =>
      if !deleteSubTree && !(childNames (← get).nodes p).isEmpty then
        unlock (some p)
        unlock (parentLock p)
        pure (.error .notEmpty)
      else
        deleteNode p.dropLast child
        if cfg.persisting then persistDelete name
        unlock (some p)
        unlock (parentLock p)
        pure (.ok ())

/-! ## Glob -/

/-- What the package `glob` says of a pattern. -/
structure GlobLib (γ : Type) where
  empty : γ → Bool
  len : γ → ℕ
  tail : γ → γ
  /-- `Head().Match` -/
  headMatches : γ → Str → Bool
  /-- whether the pattern starts with a fixed element -/
  fixedHead : γ → Bool

variable {γ : Type} (gl : GlobLib γ)

def send (p : Path) (entry : MountEntry) : M Unit :=
  modify fun s ↦ { s with replies := s.replies ++ [⟨p, entry⟩] }

/-- The loop over the children of a node, with the node locked. It returns whether the context was
done; then the node is not locked any more. -/
def globChildren (step : Path → Str → M Unit) (pattern : γ) (p : Path) (name : Str) :
    List Str → M Bool
  | [] => pure false
  | k :: ks => do
    if ← shouldAbort then
      unlock (some p)
      pure true
    else if gl.headMatches pattern k then
      lock (some (p ++ [k]))
      let c ← getNode (p ++ [k])
      -- If child allows any access show it.  Otherwise, skip.
      if c.satisfies cfg cc allTags then
        step (p ++ [k]) (cfg.lib.join name k)
        lock (some p)
        globChildren step pattern p name ks
      else
        unlock (some (p ++ [k]))
        globChildren step pattern p name ks
    else globChildren step pattern p name ks

/-- The end of `globStep`, at the label `out`. -/
def globOut (p : Path) (name : Str) (pattern : γ) : M Unit := do
  let removed ← removeUseless p
  if removed || gl.len pattern != 0 then release p
  else
    unlock (parentLock p)
    let n ← getNode p
    unlock (some p)
    if n.satisfies cfg cc allTags then send p ⟨name, [], true, false⟩

/-- A node with a mount. -/
def globMount (p : Path) (name : Str) : M Unit := do
  let removed ← removeUseless p
  if removed then release p
  else
    unlock (parentLock p)
    let n ← getNode p
    match n.mount with
    | none => throw .nilDeref
    | some m =>
      unlock (some p)
      -- Only fill in the mount info if we can resolve this name.
      if n.satisfies cfg cc resolveTags then send p ⟨name, m.servers, m.mt, m.leaf⟩
      else send p ⟨name, [], false, false⟩

/-- Called with a node and its parent locked; returns with both unlocked. -/
def globStep : ℕ → Path → Str → γ → M Unit
  | 0, _, _, _ => throw .outOfFuel
  | fuel + 1, p, name, pattern => do
    if ← shouldAbort then release p
    else
      let n ← getNode p
      if n.mount.isSome then globMount cfg cc p name
      else if gl.empty pattern then globOut cfg cc gl p name pattern
      else if n.satisfies cfg cc globTags ||
          (n.satisfies cfg cc traverseTags && gl.fixedHead pattern) then
        let children := childNames (← get).nodes p
        unlock (parentLock p)
        let step := fun q name ↦ globStep fuel q name (gl.tail pattern)
        if ← globChildren cfg cc gl step pattern p name children then pure ()
        else
          unlock (some p)
          lock (parentLock p)
          lock (some p)
          globOut cfg cc gl p name pattern
      else globOut cfg cc gl p name pattern

/-- The mount point on the path gives the reply. -/
def linkToLeaf (elems : List Str) : M Unit := do
  match ← findMountPoint cfg cc elems with
  | .ok (some (p, rest)) =>
    unlock (parentLock p)
    let n ← getNode p
    match n.mount with
    | none => throw .nilDeref
    | some m =>
      unlock (some p)
      send p ⟨[], m.servers.map fun s ↦
        { s with oa := cfg.lib.join s.oa (['/'].intercalate rest) }, false, false⟩
  | _ => pure ()

/-- A bound for the length of paths. -/
def height (nodes : Table Path Node) : ℕ := (nodes.keys.map List.length).foldr max 0 + 1

def glob (name : Str) (pattern : γ) : M Unit := do
  let cc := { cc with create := false }
  match ← findNode cfg cc (elemsOf name) none none with
  | .error _ => pure ()
  | .ok none => linkToLeaf cfg cc (elemsOf name)
  | .ok (some p) => globStep cfg cc gl (height (← get).nodes) p [] pattern

/-! ## Permissions -/

/-- `Permissions.Add` for several patterns. The map must not be nil if there is one to add. -/
def addAdmins (perms : Option Permissions) : List Str → M (Option Permissions)
  | [] => pure perms
  | b :: bs =>
    match perms with
    | none => throw .nilMapWrite
    | some P => addAdmins (some (cfg.lib.add P b .admin)) bs

/-- The blessings of the caller that `SetPermissions` keeps in `Admin`. -/
def keptAdmins (vPerms : Option VersionedPermissions) (perms : Option Permissions) : List Str :=
  let listed := (perms.bind fun P ↦ AList.lookup Tag.admin.key P).any fun al ↦
    cfg.lib.includes al cc.rbn
  if listed then []
  else
    match vPerms.bind VersionedPermissions.P with
    | none => cc.rbn
    | some old =>
      cc.rbn.filter fun b ↦
        cfg.lib.includes ((AList.lookup Tag.admin.key old).getD ⟨[], []⟩) [b]

def persistPerms (name creator : Str) (vPerms : VersionedPermissions) : M Unit :=
  modify fun s ↦ { s with log := s.log ++ [⟨name, vPerms, false, creator⟩] }

def setPermissions (name : Str) (perms : Option Permissions) (version : Str) :
    M (Except MtError Unit) := do
  if !checkElementLengths (elemsOf name) then pure (.error .nameElementTooLong)
  else
    match ← findNode cfg { cc with create := true } (elemsOf name) setTags none with
    | .error err => pure (.error err)
    | .ok none => pure (.error .noSuchName)
    | .ok (some p) =>
      unlock (parentLock p)
      let n ← getNode p
      let perms ← addAdmins cfg perms (keptAdmins cfg cc n.vPerms perms)
      let (vPerms, ok) := VersionedPermissions.set n.vPerms version (perms.map cfg.lib.normalize)
      if ok then
        if cfg.persisting then persistPerms name n.creator vPerms
        putNode p { n with vPerms := some vPerms, explicitPermissions := true }
        unlock (some p)
        pure (.ok ())
      else
        putNode p { n with vPerms := some vPerms }
        unlock (some p)
        pure (.error .badVersion)

def getPermissions (name : Str) : M (Except MtError (Option Permissions × Option ℤ)) := do
  let cc := { cc with create := false }
  match ← findNode cfg cc (elemsOf name) getTags none with
  | .error err => pure (.error err)
  | .ok none => pure (.error .noSuchName)
  | .ok (some p) =>
    unlock (parentLock p)
    let n ← getNode p
    unlock (some p)
    pure (.ok (n.vPerms.bind VersionedPermissions.P, n.vPerms.map VersionedPermissions.V))

end Calls

end Vanadium.MountTable
