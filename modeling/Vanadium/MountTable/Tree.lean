import Vanadium.Foundations.Program
import Vanadium.Foundations.Table

/-!
# The tree of a mount table

A mount table is a tree of nodes with mounts and permissions. Nodes are kept under their paths,
lists of name elements from the root on; the parent of the root, a node that exists "just for its
lock", is lock `none`. A call is a program over the tree and the locks it holds. It stops with a
fault where the server would crash: at a nil pointer, a slice out of range, a write to a nil map, a
lock taken twice, or the release of a lock that is not held.

What the packages `access`, `glob` and `naming` compute is a parameter, and so are the readings of
the clock and the moments at which the context of a call is done.
-/

namespace Vanadium.MountTable

open Foundations

abbrev Str : Type := List Char
abbrev Path : Type := List Str

/-! ## Permissions -/

inductive Tag where
  | admin
  | create
  | mount
  | read
  | resolve
deriving DecidableEq

/-- The string of a tag. -/
def Tag.key : Tag → Str
  | .admin => "Admin".toList
  | .create => "Create".toList
  | .mount => "Mount".toList
  | .read => "Read".toList
  | .resolve => "Resolve".toList

def traverseTags : List Tag := [.read, .resolve, .create, .admin]
def createTags : List Tag := [.create, .admin]
def removeTags : List Tag := [.admin]
def mountTags : List Tag := [.mount, .admin]
def resolveTags : List Tag := [.read, .resolve, .admin]
def globTags : List Tag := [.read, .admin]
def setTags : List Tag := [.admin]
def getTags : List Tag := [.admin, .read]
def allTags : List Tag := [.read, .resolve, .admin, .mount, .create]

/-- Patterns of blessings that are let in, and blessings that are not. -/
structure AccessList where
  ins : List Str
  notIns : List Str
deriving DecidableEq

abbrev Permissions : Type := Table Str AccessList

/-- `P` may be the nil map. -/
structure VersionedPermissions where
  V : ℤ
  P : Option Permissions

/-- What other packages compute. -/
structure Lib where
  /-- `AccessList.Includes` -/
  includes : AccessList → List Str → Bool
  /-- what `Permissions.Add` makes of the list of the tag -/
  addTo : AccessList → Str → AccessList
  /-- `Permissions.Copy`, a map of its own also for the nil one -/
  copy : Option Permissions → Permissions
  /-- `Permissions.Normalize` -/
  normalize : Permissions → Permissions
  /-- whether `naming.ParseEndpoint` accepts the address of a server -/
  validServer : Str → Bool
  /-- `naming.Join` -/
  join : Str → Str → Str

/-- A mount table, except for its tree. -/
structure Config where
  lib : Lib
  superUsers : AccessList
  persisting : Bool
  maxNodesPerUser : ℤ

namespace VersionedPermissions

/-- `AccessListForTag`, with the nil map having no tags. -/
def accessListForTag (b : VersionedPermissions) (tag : Str) : Option AccessList :=
  b.P.bind fun P ↦ AList.lookup tag P

/-- `ParseInt` with base 10 and 32 bits. -/
def parseVersion (s : Str) : Option ℤ :=
  let neg : Bool := s.head? = some '-'
  let digits := if s.head? = some '-' ∨ s.head? = some '+' then s.tail else s
  if digits = [] ∨ digits.any (fun c ↦ !c.isDigit) = true then none
  else
    let n : ℤ := digits.foldl (fun n c ↦ n * 10 + (c.toNat - 48)) 0
    let z := if neg then -n else n
    if -2 ^ 31 ≤ z ∧ z < 2 ^ 31 then some z else none

/-- Whether `Set` goes through, given the version that is there. -/
def versionMatches (version : ℤ) (verstr : Str) : Bool :=
  verstr = [] ||
    match parseVersion verstr with
    | none => false
    | some gen => !(decide (0 ≤ gen) && decide (gen ≠ version))

/-- The version increments with possible wrap. -/
def next (version : ℤ) : ℤ :=
  if 0 ≤ version + 1 ∧ version + 1 < 2 ^ 31 then version + 1 else 0

/-- `Set`. A new object is made if there is none, and is returned also with an error. -/
def set (b : Option VersionedPermissions) (verstr : Str) (perm : Option Permissions) :
    VersionedPermissions × Bool :=
  let b := b.getD ⟨0, none⟩
  if versionMatches b.V verstr then (⟨next b.V, perm⟩, true) else (b, false)

end VersionedPermissions

/-- `Permissions.Add` writes to the map. -/
def Lib.add (lib : Lib) (P : Permissions) (pattern : Str) (tag : Tag) : Permissions :=
  AList.insert tag.key (lib.addTo ((AList.lookup tag.key P).getD ⟨[], []⟩) pattern) P

/-! ## Nodes -/

structure Server where
  oa : Str
  expires : ℤ
deriving DecidableEq

structure Mount where
  servers : List Server
  mt : Bool
  leaf : Bool
deriving DecidableEq

/-- `removeExpired`: servers stay that are not after their expiration time. -/
def Mount.removeExpired (m : Mount) (now : ℤ) : Mount :=
  { m with servers := m.servers.filter fun s ↦ now ≤ s.expires }

/-- A node. Its children are the nodes one element further; `childrenMade` says that the map of its
children is not nil. -/
structure Node where
  mount : Option Mount
  childrenMade : Bool
  vPerms : Option VersionedPermissions
  permsTemplate : Option Permissions
  explicitPermissions : Bool
  creator : Str

structure CallContext where
  rbn : List Str
  create : Bool
  creator : Str
  ignorePerms : Bool
  ignoreLimits : Bool

/-- Whether the caller has one of the tags. No tags are `none`. -/
def Node.satisfies (cfg : Config) (cc : CallContext) (tags : Option (List Tag)) (n : Node) : Bool :=
  match tags, n.vPerms with
  | some tags, some vPerms =>
    cc.ignorePerms ||
      (tags.any fun tag ↦
        match vPerms.accessListForTag tag.key with
        | some al => cfg.lib.includes al cc.rbn
        | none => false) ||
      cfg.lib.includes cfg.superUsers cc.rbn
  | _, _ => true

/-- `strings.Replace` of `%%` by a name, everywhere. -/
def replaceVar (name : Str) : Str → Str
  | '%' :: '%' :: s => name ++ replaceVar name s
  | c :: s => c :: replaceVar name s
  | [] => []

def expand (al : AccessList) (name : Str) : AccessList :=
  ⟨al.ins.map (replaceVar name), al.notIns.map (replaceVar name)⟩

def Node.satisfiesTemplate (cfg : Config) (cc : CallContext) (tags : List Tag) (name : Str)
    (n : Node) : Bool :=
  match n.permsTemplate with
  | none => true
  | some P =>
    cc.ignorePerms ||
      tags.any fun tag ↦
        match AList.lookup tag.key P with
        | some al => cfg.lib.includes (expand al name) cc.rbn
        | none => false

/-- The permissions of a new node are those of its parent, with the caller added to `Admin`. -/
def copyPermissions (lib : Lib) (cc : CallContext) (cur : Node) : Option VersionedPermissions :=
  cur.vPerms.map fun vPerms ↦
    let P := lib.copy vPerms.P
    ⟨vPerms.V, some (if cc.rbn = [] then P
      else lib.normalize (cc.rbn.foldl (fun P b ↦ lib.add P b .admin) P))⟩

def createVersionedPermissionsFromTemplate (P : Permissions) (name : Str) : VersionedPermissions :=
  ⟨0, some (P.mapVals fun _ al ↦ expand al name)⟩

/-! ## Programs -/

inductive Fault where
  | nilDeref
  | sliceOutOfRange
  | nilMapWrite
  | doubleLock
  | unlockOfUnlocked
  | outOfFuel
deriving DecidableEq

inductive MtError where
  | noAccess
  | tooManyNodes
  | nameElementTooLong
  | malformedAddress
  | mtDoesntMatch
  | leafDoesntMatch
  | cantDeleteRoot
  | notEmpty
  | noSuchName
  | noSuchNameRoot
  | badVersion
deriving DecidableEq

structure MountEntry where
  name : Str
  servers : List Server
  servesMountTable : Bool
  isLeaf : Bool
deriving DecidableEq

/-- A reply of `Glob__`, with the node it is about. -/
structure Reply where
  node : Path
  entry : MountEntry
deriving DecidableEq

/-- An entry of the log of permissions. -/
structure StoreElement where
  N : Str
  V : VersionedPermissions
  D : Bool
  C : Str

structure St where
  nodes : Table Path Node
  held : Finset (Option Path)
  /-- the readings of the clock that come -/
  clock : ℕ → ℤ
  /-- whether the context of the call is done when it is asked next -/
  done : ℕ → Bool
  /-- the number of nodes of each user -/
  perUser : Table Str ℤ
  replies : List Reply
  log : List StoreElement

/-- A mount table that has been made just now. -/
def St.fresh (clock : ℕ → ℤ) (done : ℕ → Bool) : St where
  nodes := AList.insert [] ⟨none, false, none, none, false, []⟩ ∅
  held := ∅
  clock := clock
  done := done
  perUser := ∅
  replies := []
  log := []

abbrev M : Type → Type := EStateM Fault St

/-- The lock of the parent of a node. -/
def parentLock (p : Path) : Option Path := if p = [] then none else some p.dropLast

def lock (l : Option Path) : M Unit := do
  let s ← get
  if l ∈ s.held then throw .doubleLock else set { s with held := insert l s.held }

def unlock (l : Option Path) : M Unit := do
  let s ← get
  if l ∈ s.held then set { s with held := s.held.erase l } else throw .unlockOfUnlocked

/-- Release the locks of the parent of a node and of the node. -/
def release (p : Path) : M Unit := do
  unlock (parentLock p)
  unlock (some p)

def getNode (p : Path) : M Node := do
  match AList.lookup p (← get).nodes with
  | some n => pure n
  | none => throw .nilDeref

def putNode (p : Path) (n : Node) : M Unit :=
  modify fun s ↦ { s with nodes := AList.insert p n s.nodes }

def now : M ℤ := do
  let s ← get
  set { s with clock := fun i ↦ s.clock (i + 1) }
  pure (s.clock 0)

def shouldAbort : M Bool := do
  let s ← get
  set { s with done := fun i ↦ s.done (i + 1) }
  pure (s.done 0)

/-- The elements under which a node has children. -/
def childNames (nodes : Table Path Node) (p : Path) : List Str :=
  nodes.keys.filterMap fun q ↦ if q ≠ [] ∧ q.dropLast = p then q.getLast? else none

/-- Whether the mount of a node has servers. Those that have expired are removed. -/
def isActive (p : Path) : M Bool := do
  let n ← getNode p
  match n.mount with
  | none => pure false
  | some m =>
    let m := m.removeExpired (← now)
    putNode p { n with mount := some m }
    pure (!m.servers.isEmpty)

def incrUser (creator : Str) (i : ℤ) : M ℤ := do
  let s ← get
  let count := (AList.lookup creator s.perUser).getD 0 + i
  set { s with perUser := AList.insert creator count s.perUser }
  pure count

/-- Whether the user may have one more node. -/
def debit (cfg : Config) (cc : CallContext) : M Bool := do
  let count ← incrUser cc.creator 1
  if cfg.maxNodesPerUser < count ∧ cc.ignoreLimits = false then
    let _ ← incrUser cc.creator (-1)
    pure false
  else pure true

/-- Add a child to the map of the children of a node, which must not be nil. -/
def addChild (p : Path) (e : Str) (n : Node) : M Unit := do
  let cur ← getNode p
  if cur.childrenMade then putNode (p ++ [e]) n else throw .nilMapWrite

/-- The node that `traverse` creates. -/
def newChild (cfg : Config) (cc : CallContext) (cur : Node) (e : Str) : Node where
  mount := none
  childrenMade := false
  vPerms :=
    match cur.permsTemplate with
    | some P => some (createVersionedPermissionsFromTemplate P e)
    | none => copyPermissions cfg.lib cc cur
  permsTemplate := none
  explicitPermissions := false
  creator := cc.creator

/-- Create a child and lock it. -/
def makeChild (cfg : Config) (cc : CallContext) (cur : Path) (e : Str) : M Unit := do
  let n ← getNode cur
  putNode cur { n with childrenMade := true }
  addChild cur e (newChild cfg cc n e)
  lock (some (cur ++ [e]))

/-- The loop of `traverse`. The current node and its parent are locked. -/
def walk (cfg : Config) (cc : CallContext) :
    Path → List Str → M (Except MtError (Option (Path × List Str)))
  | cur, [] => pure (.ok (some (cur, [])))
  | cur, e :: elems => do
    let n ← getNode cur
    if n.satisfies cfg cc traverseTags then
      -- If we hit another mount table, we're done.
      if ← isActive cur then pure (.ok (some (cur, e :: elems)))
      else if (AList.lookup (cur ++ [e]) (← get).nodes).isSome then
        unlock (parentLock cur)
        lock (some (cur ++ [e]))
        walk cfg cc (cur ++ [e]) elems
      else if cc.create then
        unlock (parentLock cur)
        if !n.satisfies cfg cc createTags || !n.satisfiesTemplate cfg cc createTags e then
          unlock (some cur)
          pure (.error .noAccess)
        else if ← debit cfg cc then
          makeChild cfg cc cur e
          walk cfg cc (cur ++ [e]) elems
        else
          unlock (some cur)
          pure (.error .tooManyNodes)
      else
        release cur
        pure (.ok none)
    else
      release cur
      pure (.error .noAccess)

/-- If a mount point is encountered on the path, it is returned with the remaining elements. -/
def traverse (cfg : Config) (cc : CallContext) (elems : List Str) :
    M (Except MtError (Option (Path × List Str))) := do
  lock (parentLock [])
  lock (some [])
  walk cfg cc [] elems

/-- Whether the parent of a node satisfies tags. The parent of the root has no permissions. -/
def parentSatisfies (cfg : Config) (cc : CallContext) (tags : List Tag) (p : Path) : M Bool :=
  if p = [] then pure true
  else do
    let n ← getNode p.dropLast
    pure (n.satisfies cfg cc tags)

/-- Either the node has to satisfy `tags` or the parent has to satisfy `ptags`. -/
def findNode (cfg : Config) (cc : CallContext) (elems : List Str) (tags ptags : Option (List Tag)) :
    M (Except MtError (Option Path)) := do
  match ← traverse cfg cc elems with
  | .error err => pure (.error err)
  | .ok none => pure (.ok none)
  | .ok (some (p, [])) =>
    let n ← getNode p
    if n.satisfies cfg cc tags then pure (.ok (some p))
    else
      match ptags with
      | none =>
        release p
        pure (.error .noAccess)
      | some ptags =>
        if ← parentSatisfies cfg cc ptags p then pure (.ok (some p))
        else
          release p
          pure (.error .noAccess)
  | .ok (some (p, _ :: _)) =>
    release p
    pure (.ok none)

/-! ## Removing nodes -/

/-- Delete a node and all below it. The node and its parent are locked, except that `Mount` does not
lock the children it deletes; what is below is locked while it is visited. -/
def deleteNode (p : Path) (child : Str) : M Unit := do
  let first := p ++ [child]
  let s ← get
  if (AList.lookup first s.nodes).isSome then
    let below := s.nodes.keys.filter fun q ↦ first.isPrefixOf q
    (below.filter fun q ↦ q ≠ first).forM fun q ↦ do
      lock (some q)
      unlock (some q)
    below.forM fun q ↦ do
      let n ← getNode q
      let _ ← incrUser n.creator (-1)
    modify fun s ↦ { s with nodes := below.foldl (fun nodes q ↦ AList.erase q nodes) s.nodes }

/-- Remove a node without children, servers and permissions of its own. The root is never removed,
but it is reported as if it were. -/
def removeUseless (p : Path) : M Bool := do
  if !(childNames (← get).nodes p).isEmpty then pure false
  else if ← isActive p then pure false
  else
    let n ← getNode p
    if n.explicitPermissions then pure false
    else
      match p.getLast? with
      | none => pure true
      | some child =>
        deleteNode p.dropLast child
        pure true

/-- Remove useless nodes on the tail of the path of the first `i` elements. -/
def removeUselessRecursive (cfg : Config) (cc : CallContext) (elems : List Str) : ℕ → M Unit
  | 0 => pure ()
  | i + 1 => do
    match ← traverse cfg cc (elems.take (i + 1)) with
    | .ok (some (p, [])) =>
      let removed ← removeUseless p
      release p
      if removed then removeUselessRecursive cfg cc elems i else pure ()
    | .ok (some (p, _ :: _)) => release p
    | _ => pure ()

/-- The first mount point on the path, with the remaining elements. -/
def findMountPoint (cfg : Config) (cc : CallContext) (elems : List Str) :
    M (Except MtError (Option (Path × List Str))) := do
  match ← traverse cfg cc elems with
  | .error err => pure (.error err)
  | .ok none => pure (.ok none)
  | .ok (some (p, rest)) =>
    let n ← getNode p
    if n.satisfies cfg cc resolveTags then
      if ← isActive p then pure (.ok (some (p, rest)))
      else
        let removed ← removeUseless p
        release p
        if removed && !elems.isEmpty then
          removeUselessRecursive cfg cc elems.dropLast elems.dropLast.length
        pure (.ok none)
    else
      release p
      pure (.error .noAccess)

end Vanadium.MountTable
