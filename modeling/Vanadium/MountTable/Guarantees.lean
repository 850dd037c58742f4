import Vanadium.MountTable.CallEffects

/-!
# What callers can rely on, and where they cannot

Four guarantees are stated for every tree, caller, name and argument, each together with the exact
condition under which the code gives it.

* A call ends, and holds no locks then. It does not if `Unmount` is called with the root name and
  the root is of no use afterwards, or if `SetPermissions` has to keep the caller in a map that is
  nil.
* A `SetPermissions` that is rejected changes no access right. It does if the node has no
  permissions: an object without a map is left there, and what was open to everybody is closed.
* Callers see only what they may see. They see more if a glob starts at a mount that they have no
  access to.
* Administrators who set permissions stay administrators. They do not if the new `NotIn` list
  matches the names under which they would.
-/

namespace Vanadium.MountTable

open Foundations Program

variable {cfg : Config} {cc : CallContext} {γ α : Type} {gl : GlobLib γ} {s : St} {x : M α}

/-- A library for examples: blessings are let in if they are listed. -/
def plainLib : Lib where
  includes al bs := bs.any fun b ↦ decide (b ∈ al.ins)
  addTo al b := { al with ins := al.ins ++ [b] }
  copy P := P.getD ∅
  normalize P := P
  validServer _ := true
  join name e := name ++ '/' :: e

def plain : Config := ⟨plainLib, ⟨[], []⟩, true, 1000⟩

/-- A caller with one blessing. -/
def caller (b : Str) : CallContext := ⟨[b], false, b, false, false⟩

/-- Patterns without elements. -/
def emptyPattern : GlobLib Unit where
  empty _ := true
  len _ := 0
  tail := id
  headMatches _ _ := false
  fixedHead _ := false

/-! ## Calls end without locks -/

inductive Call (γ : Type) where
  | resolveStep (name : Str)
  | mount (name server : Str) (ttlsecs : ℕ) (flags : MountFlags)
  | unmount (name server : Str)
  | delete (name : Str) (deleteSubTree : Bool)
  | glob (name : Str) (pattern : γ)
  | setPermissions (name : Str) (perms : Option Permissions) (version : Str)
  | getPermissions (name : Str)

/-- Run a call and forget what it returns. -/
def Call.run (cfg : Config) (cc : CallContext) (gl : GlobLib γ) : Call γ → M Unit
  | .resolveStep name => do let _ ← MountTable.resolveStep cfg cc name
  | .mount name server ttlsecs flags => do let _ ← MountTable.mount cfg cc name server ttlsecs flags
  | .unmount name server => do let _ ← MountTable.unmount cfg cc name server
  | .delete name deleteSubTree => do let _ ← MountTable.delete cfg cc name deleteSubTree
  | .glob name pattern => MountTable.glob cfg cc gl name pattern
  | .setPermissions name perms version => do
    let _ ← MountTable.setPermissions cfg cc name perms version
  | .getPermissions name => do let _ ← MountTable.getPermissions cfg cc name

/-- A call that does not crash the server. -/
def Harmless (cfg : Config) (cc : CallContext) (s : St) : Call γ → Prop
  | .unmount name server => elemsOf name = [] → ¬RootUseless cfg cc server s
  | .setPermissions name perms _ => ¬NilMapWrite cfg cc name perms s
  | _ => True

theorem ensures_forget {Q : α → St → Prop} (h : Ensures x s Q)
    (hQ : ∀ a s', Q a s' → Idle s') : Ensures (do let _ ← x) s fun _ s' ↦ Idle s' :=
  .bind (h.mono fun a s' ha ↦ .pure (hQ a s' ha))

theorem not_ensures_forget (h : Returns x s fun _ _ ↦ False) :
    ¬Ensures (do let _ ← x) s fun _ s' ↦ Idle s' := by
  rintro ⟨_, s', hx, -⟩
  obtain ⟨a, s₁, ha, -⟩ := bind_eq_ok_iff.mp hx
  exact h a s₁ ha

theorem call_completes_iff (h : Idle s) (call : Call γ) :
    Ensures (call.run cfg cc gl) s (fun _ s' ↦ Idle s') ↔ Harmless cfg cc s call := by
  match call with
  | .resolveStep name =>
    exact iff_of_true (ensures_forget (ensures_resolveStep name h) fun _ _ hr ↦ hr.1) trivial
  | .mount name server ttlsecs flags =>
    exact iff_of_true
      (ensures_forget (ensures_mount name server ttlsecs flags h) fun _ _ hr ↦ hr.1) trivial
  | .unmount name server =>
    constructor
    · intro hends hname huseless
      exact not_ensures_forget (huseless.returns hname h) hends
    · exact fun hroot ↦ ensures_forget (ensures_unmount name server h hroot) fun _ _ hr ↦ hr.1
  | .delete name deleteSubTree =>
    exact iff_of_true (ensures_forget (ensures_delete name deleteSubTree h) fun _ _ hr ↦
      hr.1) trivial
  | .glob name pattern =>
    refine iff_of_true ((ensures_glob name pattern h.rooted h.free).mono ?_) trivial
    rintro _ s' ⟨hstep, hheld, -⟩
    exact ⟨hstep.rooted, hheld⟩
  | .setPermissions name perms version =>
    constructor
    · intro hends hnil
      exact not_ensures_forget (hnil.returns h) hends
    · exact fun hadmins ↦
        ensures_forget (ensures_setPermissions name perms version h hadmins) fun _ _ hr ↦ hr.1
  | .getPermissions name =>
    exact iff_of_true (ensures_forget (ensures_getPermissions name h) fun _ _ hr ↦ hr) trivial

/-- A server is mounted, and only the caller who did so has access to it. -/
def withMount : St :=
  after (do
    let _ ← mount plain (caller ['a']) ['x'] ['s'] 60 ⟨false, false, false⟩
    setPermissions plain (caller ['a']) ['x'] (some ∅) []) (St.fresh (fun _ ↦ 0) fun _ ↦ false)

theorem idle_withMount : Idle withMount := by
  have hends : Ensures (do
      let _ ← mount plain (caller ['a']) ['x'] ['s'] 60 ⟨false, false, false⟩
      setPermissions plain (caller ['a']) ['x'] (some ∅) []) (St.fresh (fun _ ↦ 0) fun _ ↦ false)
      fun _ s' ↦ Idle s' :=
    .bind ((ensures_mount _ _ _ _ (idle_fresh _ _)).mono fun _ _ hmount ↦
      (ensures_setPermissions _ (some ∅) _ hmount.1 fun hnil ↦ nomatch hnil.1).mono
        fun _ _ hset ↦ hset.1)
  obtain ⟨_, s', hrun, hidle⟩ := hends
  rwa [withMount, after_of_ok hrun]

/-- `Unmount` of the root name ends there, since the root has a child. -/
theorem unmount_root_completes :
    Ensures (Call.run plain (caller ['a']) emptyPattern (.unmount [] ['s'])) withMount
      fun _ s' ↦ Idle s' := by
  refine (call_completes_iff idle_withMount (.unmount [] ['s'])).mpr ?_
  rintro - ⟨n, hn, -, huseless⟩
  have hused : ((AList.lookup [] withMount.nodes).map fun n ↦ useless withMount.nodes
      (withMount.clock 0) [] { n with mount := removeServer n.mount ['s'] }) = some false := by
    decide +kernel
  rw [hn, Option.map_some, huseless] at hused
  exact nomatch hused

/-- On a new mount table `Unmount` of the root name and `SetPermissions` without a map crash. -/
theorem calls_crash :
    (∃ s', unmount plain (caller ['a']) [] [] (St.fresh (fun _ ↦ 0) fun _ ↦ false) =
      .error .sliceOutOfRange s') ∧
    ∃ s', setPermissions plain (caller ['a']) ['x'] none [] (St.fresh (fun _ ↦ 0) fun _ ↦ false) =
      .error .nilMapWrite s' :=
  ⟨⟨_, rfl⟩, ⟨_, rfl⟩⟩

/-! ## Rejected calls change no right -/

/-- Every node is still there and lets in whom it let in. -/
def RightsKept (cfg : Config) (s s' : St) : Prop :=
  ∀ q n, AList.lookup q s.nodes = some n → ∃ n', AList.lookup q s'.nodes = some n' ∧
    ∀ caller tags, n'.satisfies cfg caller tags = n.satisfies cfg caller tags

/-- The call of `SetPermissions` comes to a node without permissions, with a version that is not
that of a new object, and there is somebody who is no superuser. -/
structure ClosesNode (cfg : Config) (cc : CallContext) (name : Str) (perms : Option Permissions)
    (version : Str) (s : St) : Prop where
  lengths : checkElementLengths (elemsOf name) = true
  node : ∃ n clock, AList.lookup (elemsOf name) s.nodes = some n ∧ n.vPerms = none ∧
    target cfg { cc with create := true } setTags (elemsOf name) s = some (n, clock)
  version : VersionedPermissions.versionMatches 0 version = false
  perms : perms = none → cc.rbn = []
  people : ∃ rbn, cfg.lib.includes cfg.superUsers rbn = false

theorem Keeps.rightsKept {s' : St} (h : Keeps s.nodes s'.nodes) : RightsKept cfg s s' := by
  intro q n hn
  obtain ⟨n', hn', hlike⟩ := h.keep hn
  exact ⟨n', hn', fun _ tags ↦ hlike.satisfies tags⟩

theorem satisfies_of_superUsers (hall : ∀ rbn, cfg.lib.includes cfg.superUsers rbn = true)
    (tags : Option (List Tag)) (n : Node) : n.satisfies cfg cc tags = true := by
  unfold Node.satisfies
  split
  · rw [hall, Bool.or_true]
  · rfl

theorem satisfies_new {n : Node} {V : ℤ} (hn : n.vPerms = some ⟨V, none⟩) (tags : List Tag)
    (hcc : cc.ignorePerms = false) :
    n.satisfies cfg cc (some tags) = cfg.lib.includes cfg.superUsers cc.rbn := by
  unfold Node.satisfies
  rw [hn, hcc]
  simp [VersionedPermissions.accessListForTag]

theorem rejected_keeps_rights_iff (h : Idle s) (name : Str) (perms : Option Permissions)
    (version : Str) :
    (∀ err s', setPermissions cfg cc name perms version s = .ok (.error err) s' →
      RightsKept cfg s s') ↔ ¬ClosesNode cfg cc name perms version s := by
  constructor
  · rintro hkept ⟨hlengths, ⟨n, clock, hn, hnone, htarget⟩, hversion, hperms, rbn, hrbn⟩
    have hadmins : ¬NilMapWrite cfg cc name perms s := by
      rintro ⟨hnil, -, m, clock', htarget', hne⟩
      obtain ⟨⟩ := htarget.symm.trans htarget'
      rw [hnone] at hne
      exact hne (hperms hnil)
    obtain ⟨r, s', hrun, -, hout⟩ := ensures_setPermissions name perms version h hadmins
    match r, s', hout with
    | _, _, .failed _ _ _ hfail => exact nomatch htarget.symm.trans (hfail hlengths)
    | _, _, .set hat hmatch _ _ =>
      obtain ⟨clock', htarget'⟩ := hat.target
      obtain ⟨⟩ := htarget.symm.trans htarget'
      rw [hnone] at hmatch
      exact nomatch hversion.symm.trans hmatch
    | _, s', .rejected hat _ hnodes _ =>
      obtain ⟨clock', htarget'⟩ := hat.target
      obtain ⟨⟩ := htarget.symm.trans htarget'
      obtain ⟨n', hn', hsame⟩ := hkept _ _ hrun _ _ hn
      rw [hnodes, AList.lookup_insert, hnone] at hn'
      obtain ⟨⟩ := hn'
      -- somebody who was let in is not let in any more
      have hafter := hsame ⟨rbn, false, [], false, false⟩ (some allTags)
      rw [satisfies_new rfl allTags rfl, hrbn] at hafter
      unfold Node.satisfies at hafter
      rw [hnone] at hafter
      exact nomatch hafter
  · intro hopen err s' hrun
    by_cases hnil : NilMapWrite cfg cc name perms s
    · exact (hnil.returns h _ _ hrun).elim
    · obtain ⟨-, hout⟩ := (ensures_setPermissions name perms version h hnil).returns _ _ hrun
      match err, hout with
      | _, .failed _ hkeeps _ _ => exact hkeeps.rightsKept
      | _, .rejected hat hversion hnodes _ =>
        intro q m hm
        obtain ⟨m', hm', hlike⟩ := hat.keeps.keep hm
        rw [hnodes, Table.lookup_insert_eq_ite]
        split
        · next heq =>
          subst heq
          obtain ⟨clock, htarget⟩ := hat.target
          obtain rfl := target_eq_of_lookup h.rooted hm htarget
          refine ⟨_, rfl, fun caller tags ↦ ?_⟩
          rcases hperms : Node.vPerms _ with _ | v
          · have hall : ∀ rbn, cfg.lib.includes cfg.superUsers rbn = true := by
              by_contra hsome
              push Not at hsome
              obtain ⟨rbn, hrbn⟩ := hsome
              rw [hperms] at hversion
              refine hopen ⟨hat.lengths, ⟨_, clock, hm, hperms, htarget⟩, hversion, ?_, rbn,
                Bool.eq_false_of_not_eq_true hrbn⟩
              rintro rfl
              by_contra hne
              refine hnil ⟨rfl, hat.lengths, _, clock, htarget, ?_⟩
              rw [hperms]
              exact hne
            rw [satisfies_of_superUsers hall, satisfies_of_superUsers hall]
          · unfold Node.satisfies
            rw [hperms]
            rfl
        · exact ⟨m', hm', fun _ tags ↦ hlike.satisfies tags⟩

/-- The node has permissions: a call with a bad version is rejected and changes nothing. -/
theorem rejected_keeps_rights_mounted :
    ∃ s', setPermissions plain (caller ['a']) ['x'] (some ∅) ['7'] withMount
      = .ok (.error .badVersion) s' ∧ RightsKept plain withMount s' := by
  have hopen : ¬ClosesNode plain (caller ['a']) ['x'] (some ∅) ['7'] withMount := by
    rintro ⟨-, ⟨n, -, hn, hnone, -⟩, -, -, -⟩
    have hsome : ((AList.lookup (elemsOf ['x']) withMount.nodes).map fun n ↦ n.vPerms.isSome)
        = some true := by decide +kernel
    rw [hn, Option.map_some, hnone] at hsome
    exact nomatch hsome
  have hrun : (match setPermissions plain (caller ['a']) ['x'] (some ∅) ['7'] withMount with
    | .ok (.error .badVersion) _ => true
    | _ => false) = true := by decide +kernel
  split at hrun
  · next s' hs' =>
    exact ⟨s', hs', (rejected_keeps_rights_iff idle_withMount ['x'] (some ∅) ['7']).mpr
      hopen _ _ hs'⟩
  · exact nomatch hrun

/-- The root of a new mount table is open to everybody. After a call with a bad version it is open
to nobody. -/
theorem rejected_closes_root :
    ∃ s', setPermissions plain (caller ['a']) [] (some ∅) ['7']
          (St.fresh (fun _ ↦ 0) fun _ ↦ false) = .ok (.error .badVersion) s' ∧
      ((AList.lookup [] (St.fresh (fun _ ↦ 0) fun _ ↦ false).nodes).map
        fun n ↦ n.satisfies plain (caller ['a']) allTags) = some true ∧
      ((AList.lookup [] s'.nodes).map fun n ↦ n.satisfies plain (caller ['a']) allTags) =
        some false :=
  ⟨_, rfl, rfl, rfl⟩

/-! ## Callers see what they may see -/

/-- The replies of a glob. -/
def globReplies (cfg : Config) (cc : CallContext) (gl : GlobLib γ) (name : Str)
    (pattern : γ) (s : St) : List Reply :=
  (after (glob cfg cc gl name pattern) { s with replies := [] }).replies

theorem shows_only_visible_iff (h : Idle s) (name name' : Str) (pattern : γ) :
    ((∀ entry s', resolveStep cfg cc name s = .ok (.ok entry) s' →
        Resolvable cfg cc s.nodes (elemsOf name) entry) ∧
      ∀ r ∈ globReplies cfg cc gl name' pattern s, Shown cfg cc s.nodes r) ↔
      ¬StartHidden cfg { cc with create := false } (elemsOf name') s := by
  have hresolve : ∀ entry s', resolveStep cfg cc name s = .ok (.ok entry) s' →
      Resolvable cfg cc s.nodes (elemsOf name) entry := fun entry s' hrun ↦
    ((ensures_resolveStep name h).returns _ _ hrun).2 entry rfl
  have hsame : StartHidden cfg { cc with create := false } (elemsOf name')
    { s with replies := [] } ↔
      StartHidden cfg { cc with create := false } (elemsOf name') s :=
    ⟨fun hh ↦ ⟨hh.start, hh.waiting⟩, fun hh ↦ ⟨hh.start, hh.waiting⟩⟩
  have hglob : Ensures (glob cfg cc gl name' pattern) { s with replies := [] } _ :=
    ensures_glob name' pattern h.rooted h.free
  obtain ⟨_, s', hrun, -, -, ⟨-, new, hnew, hshown⟩, hreply⟩ := hglob
  rw [hsame] at hshown hreply
  rw [and_iff_right hresolve, globReplies, after_of_ok hrun, hnew, List.nil_append]
  constructor
  · intro hall hhidden
    obtain ⟨r, hr, hnode⟩ := hreply hhidden
    obtain rfl : new = [r] := hnew.symm.trans hr
    obtain ⟨n, hn, hsat, -⟩ := (hall r List.mem_cons_self).node
    obtain ⟨m, clock, htarget, -, hdenied, -⟩ := hhidden.start
    rw [hnode] at hn
    obtain rfl := target_eq_of_lookup h.rooted hn htarget
    exact nomatch hdenied.symm.trans hsat
  · exact fun hvisible r hr ↦ hshown r hr hvisible

/-- The caller who mounted the server resolves the name, and a glob replies with the mount. -/
theorem shows_own_mount :
    (∃ entry s', resolveStep plain (caller ['a']) ['x'] withMount = .ok (.ok entry) s' ∧
      Resolvable plain (caller ['a']) withMount.nodes [['x']] entry) ∧
    ∃ r ∈ globReplies plain (caller ['a']) emptyPattern ['x'] () withMount,
      r.entry.servers ≠ [] ∧ Shown plain (caller ['a']) withMount.nodes r := by
  have hvisible : ¬StartHidden plain { caller ['a'] with create := false } (elemsOf ['x'])
      withMount := by
    rintro ⟨⟨n, clock, htarget, -, hdenied, -⟩, -⟩
    have hsat : ((target plain { caller ['a'] with create := false } none (elemsOf ['x'])
        withMount).map fun x ↦ x.1.satisfies plain { caller ['a'] with create := false } allTags)
        = some true := by decide +kernel
    rw [htarget, Option.map_some, hdenied] at hsat
    exact absurd (Option.some.inj hsat) Bool.false_ne_true
  have hshows : _ ∧ ∀ r ∈ globReplies plain (caller ['a']) emptyPattern ['x'] () withMount, _ :=
    (shows_only_visible_iff idle_withMount ['x'] ['x'] ()).mpr hvisible
  have hok : ((resolveStep plain (caller ['a']) ['x']).run' withMount).any Except.isOk = true := by
    decide +kernel
  have hreply : ∃ r ∈ globReplies plain (caller ['a']) emptyPattern ['x'] () withMount,
      r.entry.servers ≠ [] := by decide +kernel
  obtain ⟨r, hr, hservers⟩ := hreply
  refine ⟨?_, r, hr, hservers, hshows.2 r hr⟩
  have hends : Ensures (resolveStep plain (caller ['a']) ['x']) withMount _ :=
    ensures_resolveStep ['x'] idle_withMount
  obtain ⟨result, s', hrun, -⟩ := hends
  rw [EStateM.run', EStateM.run, hrun] at hok
  rcases result with err | entry
  · exact absurd hok Bool.false_ne_true
  · exact ⟨entry, s', hrun, hshows.1 entry s' hrun⟩

/-- Another caller has no access to the node and sees it, if its glob starts there. -/
theorem hidden_mount_shown :
    (∃ r ∈ globReplies plain (caller ['b']) emptyPattern ['x'] () withMount, r.node = [['x']]) ∧
      ((AList.lookup [['x']] withMount.nodes).map
        fun n ↦ n.satisfies plain (caller ['b']) allTags) = some false := by
  decide +kernel

/-! ## Administrators and the lists they set -/

section Admins

open List

/-- The name is matched by a pattern of `In` and by none of `NotIn`. -/
def AccessList.admits (matchedBy : Str → Str → Bool) (al : AccessList) (b : Str) : Bool :=
  !(al.notIns.any fun p ↦ matchedBy p b) && al.ins.any fun p ↦ matchedBy p b

/-- The lists have the same patterns, in some order. -/
def AccessList.Same (al al' : AccessList) : Prop :=
  (∀ p, p ∈ al.ins ↔ p ∈ al'.ins) ∧ ∀ p, p ∈ al.notIns ↔ p ∈ al'.notIns

/-- The `Admin` list of a map, which is empty if there is none. -/
def adminList (P : Option Permissions) : AccessList :=
  (P.bind (AList.lookup Tag.admin.key)).getD ⟨[], []⟩

/-- What `access` computes, for a relation between patterns and the names that they match. -/
structure Lib.Spec (lib : Lib) (matchedBy : Str → Str → Bool) : Prop where
  includes : ∀ al rbn, lib.includes al rbn = rbn.any (al.admits matchedBy)
  addTo : ∀ al b, (lib.addTo al b).Same ⟨b :: al.ins, al.notIns⟩
  normalize : ∀ P, (adminList (some (lib.normalize P))).Same (adminList (some P))

variable {matchedBy : Str → Str → Bool} {lib : Lib} {al : AccessList} {perms : Option Permissions}

theorem AccessList.admits_iff {b : Str} : al.admits matchedBy b = true ↔
    (∀ p ∈ al.notIns, matchedBy p b = false) ∧ ∃ p ∈ al.ins, matchedBy p b = true := by
  simp [AccessList.admits]

/-- Names are added to `In`, and `NotIn` stays as it is. -/
theorem Lib.Spec.foldl_add (hlib : lib.Spec matchedBy) (P : Permissions) (bs : List Str) :
    (adminList (some (bs.foldl (fun P b ↦ lib.add P b .admin) P))).Same
      ⟨bs ++ (adminList (some P)).ins, (adminList (some P)).notIns⟩ := by
  induction bs generalizing P with
  | nil => exact ⟨fun _ ↦ Iff.rfl, fun _ ↦ Iff.rfl⟩
  | cons b bs ih =>
    have hlist : adminList (some (lib.add P b .admin)) = lib.addTo (adminList (some P)) b := by
      rw [adminList, Option.bind_some, Lib.add, AList.lookup_insert]
      rfl
    obtain ⟨hin, hout⟩ := hlib.addTo (adminList (some P)) b
    rw [← hlist] at hin hout
    refine ⟨fun p ↦ ?_, fun p ↦ ((ih _).2 p).trans (hout p)⟩
    rw [foldl_cons, (ih _).1, mem_append, hin, cons_append, mem_cons, mem_cons,
      mem_append, or_left_comm]

/-- Whom the `Admin` list lets in after names were added to it. -/
theorem Lib.Spec.includes_withAdmins (hlib : lib.Spec matchedBy) {bs : List Str}
    (hnil : perms = none → bs = []) (rbn : List Str) :
    lib.includes (adminList ((withAdmins lib perms bs).map lib.normalize)) rbn = true ↔
      ∃ b ∈ rbn, (∀ p ∈ (adminList perms).notIns, matchedBy p b = false) ∧
        ∃ p ∈ bs ++ (adminList perms).ins, matchedBy p b = true := by
  rw [hlib.includes, any_eq_true]
  simp only [AccessList.admits_iff]
  rcases perms with _ | P
  · rw [hnil rfl]
    rfl
  · obtain ⟨hin, hout⟩ := hlib.normalize (bs.foldl (fun P b ↦ lib.add P b .admin) P)
    obtain ⟨hin', hout'⟩ := hlib.foldl_add P bs
    simp only [withAdmins, Option.map_some, hin, hin', hout, hout']

theorem returns_addAdmins (perms : Option Permissions) (bs : List Str) :
    Returns (addAdmins cfg perms bs) s fun r s' ↦
      r = withAdmins cfg.lib perms bs ∧ s' = s ∧ (perms = none → bs = []) := by
  rcases perms with _ | P
  · rcases bs with _ | ⟨b, bs⟩
    · exact .pure ⟨rfl, rfl, fun _ ↦ rfl⟩
    · rintro _ _ ⟨⟩
  · rw [addAdmins_some]
    exact .pure ⟨rfl, rfl, nofun⟩

/-- The permissions that a successful call leaves at the node. -/
theorem returns_setPermissions (name : Str) (perms : Option Permissions) (version : Str)
    (h : Rooted s.nodes) : Returns (setPermissions cfg cc name perms version) s fun r s' ↦
    r = .ok () →
      ∃ n clock n', target cfg { cc with create := true } setTags (elemsOf name) s =
        some (n, clock) ∧ s'.nodes.lookup (elemsOf name) = some n' ∧
          n'.vPerms.bind VersionedPermissions.P =
            (withAdmins cfg.lib perms (keptAdmins cfg cc n.vPerms perms)).map cfg.lib.normalize ∧
        (perms = none → keptAdmins cfg cc n.vPerms perms = []) := by
  rw [setPermissions]
  split
  · exact .pure (by rintro ⟨⟩)
  · refine .bind ((returns_findNode cfg _ (elemsOf name) setTags h).mono fun r s₁ hr ↦ ?_)
    split
    · exact .pure (by rintro ⟨⟩)
    · exact .pure (by rintro ⟨⟩)
    · obtain ⟨n, clock, htarget, hn, -⟩ := hr.exists_of_ok
      rw [htarget] at hr
      obtain ⟨⟨⟩, -⟩ := hr
      refine .bind (returns_unlock fun held ↦ .bind (returns_getNode hn (.bind ?_)))
      refine (returns_addAdmins perms _).mono ?_
      rintro _ _ ⟨rfl, rfl, hnil⟩
      rw [VersionedPermissions.set]
      by_cases hversion : VersionedPermissions.versionMatches (n.vPerms.getD ⟨0, none⟩).V
        version = true
      · rw [if_pos hversion]
        dsimp only
        rw [if_pos rfl]
        split
        · refine .bind (.modify (.bind (.modify (.bind ?_))))
          exact returns_unlock fun _ ↦ .pure fun _ ↦
            ⟨n, clock, _, htarget, AList.lookup_insert _, rfl, hnil⟩
        · refine .bind (.modify (.bind ?_))
          exact returns_unlock fun _ ↦ .pure fun _ ↦
            ⟨n, clock, _, htarget, AList.lookup_insert _, rfl, hnil⟩
      · rw [if_neg hversion]
        exact .bind (.modify (.bind (returns_unlock fun _ ↦ .pure (by rintro ⟨⟩))))

theorem mem_keptAdmins (hlib : cfg.lib.Spec matchedBy) {vPerms : Option VersionedPermissions}
    {p : Str} : p ∈ keptAdmins cfg cc vPerms perms ↔
      cfg.lib.includes (adminList perms) cc.rbn = false ∧ p ∈ cc.rbn ∧
        ∀ old, vPerms.bind VersionedPermissions.P = some old →
          cfg.lib.includes (adminList (some old)) [p] = true := by
  have hlisted : ((perms.bind fun P ↦ AList.lookup Tag.admin.key P).any fun al ↦
      cfg.lib.includes al cc.rbn) = cfg.lib.includes (adminList perms) cc.rbn := by
    rw [adminList]
    rcases perms.bind (AList.lookup Tag.admin.key) with _ | al
    · simp [hlib.includes, AccessList.admits]
    · rfl
  rw [keptAdmins, hlisted]
  rcases cfg.lib.includes (adminList perms) cc.rbn with _ | _
  · rcases vPerms.bind VersionedPermissions.P with _ | old
    · simp
    · simp [adminList]
  · simp

/-- **Whether an administrator stays one**: exactly if a name that the new `NotIn` list does not
match is matched by the new `In` list, or by a name that the old `Admin` list includes. -/
theorem admin_kept_iff {matchedBy : Str → Str → Bool} {name version : Str}
    {perms : Option Permissions} {s' : St} {n : Node} {clock : ℕ → ℤ}
    (hlib : cfg.lib.Spec matchedBy) (h : Idle s)
    (htarget : target cfg { cc with create := true } setTags (elemsOf name) s = some (n, clock))
    (hrun : setPermissions cfg cc name perms version s = .ok (.ok ()) s') :
    (∃ n', AList.lookup (elemsOf name) s'.nodes = some n' ∧
        cfg.lib.includes (adminList (n'.vPerms.bind VersionedPermissions.P)) cc.rbn = true) ↔
      ∃ b ∈ cc.rbn, (∀ p ∈ (adminList perms).notIns, matchedBy p b = false) ∧
        ((∃ p ∈ (adminList perms).ins, matchedBy p b = true) ∨
          ∃ p ∈ cc.rbn, (∀ old, n.vPerms.bind VersionedPermissions.P = some old →
            cfg.lib.includes (adminList (some old)) [p] = true) ∧ matchedBy p b = true) := by
  obtain ⟨m, clock', n', htarget', hn', hP, hnil⟩ :=
    returns_setPermissions name perms version h.rooted _ _ hrun rfl
  obtain ⟨⟩ := htarget.symm.trans htarget'
  simp only [hn', Option.some.injEq, exists_eq_left', hP, hlib.includes_withAdmins hnil, mem_append,
    mem_keptAdmins hlib]
  rcases hlisted : cfg.lib.includes (adminList perms) cc.rbn with _ | _
  · refine exists_congr fun b ↦ and_congr_right fun _ ↦ and_congr_right fun _ ↦ ?_
    constructor
    · rintro ⟨p, ⟨-, hp, hold⟩ | hp, hmatch⟩
      · exact Or.inr ⟨p, hp, hold, hmatch⟩
      · exact Or.inl ⟨p, hp, hmatch⟩
    · rintro (⟨p, hp, hmatch⟩ | ⟨p, hp, hold, hmatch⟩)
      · exact ⟨p, Or.inr hp, hmatch⟩
      · exact ⟨p, Or.inl ⟨rfl, hp, hold⟩, hmatch⟩
  · -- the caller is in the new list, and no names are added
    rw [hlib.includes, any_eq_true] at hlisted
    obtain ⟨b, hb, hadmits⟩ := hlisted
    obtain ⟨hout, p, hp, hmatch⟩ := AccessList.admits_iff.mp hadmits
    exact iff_of_true ⟨b, hb, hout, p, Or.inr hp, hmatch⟩ ⟨b, hb, hout, Or.inl ⟨p, hp, hmatch⟩⟩

/-- Names are matched by themselves only. -/
def listed : Config :=
  { plain with lib := { plainLib with
      includes := fun al bs ↦ bs.any (al.admits fun p b ↦ decide (p = b)) } }

theorem spec_listed : listed.lib.Spec fun p b ↦ decide (p = b) where
  includes _ _ := rfl
  addTo al b := ⟨fun p ↦ by simp [listed, plainLib, or_comm], fun _ ↦ Iff.rfl⟩
  normalize _ := ⟨fun _ ↦ Iff.rfl, fun _ ↦ Iff.rfl⟩

/-- Whether the `Admin` list of the root includes the caller `a`. -/
def rootAdmin (s : St) : Bool :=
  (AList.lookup [] s.nodes).any fun n ↦
    listed.lib.includes (adminList (n.vPerms.bind VersionedPermissions.P)) [['a']]

/-- A caller sets an empty map on a new mount table. -/
theorem admin_kept_iff_new : ∃ s', setPermissions listed (caller ['a']) [] (some ∅) []
    (St.fresh (fun _ ↦ 0) fun _ ↦ false) = .ok (.ok ()) s' ∧ rootAdmin s' = true := by
  have hrun : ∃ s', setPermissions listed (caller ['a']) [] (some ∅) []
    (St.fresh (fun _ ↦ 0) fun _ ↦ false) = .ok (.ok ()) s' := ⟨_, rfl⟩
  obtain ⟨s', hrun⟩ := hrun
  obtain ⟨n, hn, hadmin⟩ := (admin_kept_iff spec_listed (idle_fresh _ _) rfl hrun).mpr
    ⟨['a'], mem_cons_self, forall_mem_nil _, Or.inr ⟨['a'], mem_cons_self, by rintro _ ⟨⟩, rfl⟩⟩
  change AList.lookup [] s'.nodes = some n at hn
  exact ⟨s', hrun, by rw [rootAdmin, hn]; exact hadmin⟩

/-- The caller `a` is the administrator of the root. -/
def administered : St :=
  after (setPermissions listed (caller ['a']) []
    (some (AList.insert Tag.admin.key ⟨[['a']], []⟩ ∅)) []) (St.fresh (fun _ ↦ 0) fun _ ↦ false)

/-- The administrator sets a map that has them in `NotIn`. -/
theorem admin_locked_out : rootAdmin administered = true ∧
    ∃ s', setPermissions listed (caller ['a']) []
    (some (AList.insert Tag.admin.key ⟨[], [['a']]⟩ ∅)) []
      administered = .ok (.ok ()) s' ∧ rootAdmin s' = false :=
  ⟨rfl, _, rfl, rfl⟩

end Admins

end Vanadium.MountTable
