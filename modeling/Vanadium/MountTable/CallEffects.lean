import Vanadium.MountTable.GlobReplies

/-!
# What the calls of a mount table do

Every call starts and ends without locks, in a tree (`Idle`). For each call there is one statement
that says what it returns and what it does to the permissions that were set explicitly and to the
log.

Two calls are specified under a condition. `Unmount` of the root name cuts the last element off an
empty slice if the root is of no use afterwards, and `SetPermissions` without a map writes to it if
there is a blessing of the caller to keep in `Admin`.
-/

namespace Vanadium.MountTable

open Foundations Program Option

variable {cfg : Config} {cc : CallContext} {γ : Type} {gl : GlobLib γ} {s s' : St} {p : Path}
  {t t' : Table Path Node} {perms : Option Permissions} {n : Node} (name : Str)

/-- A server between two calls. -/
structure Idle (s : St) : Prop where
  rooted : Rooted s.nodes
  free : s.held = ∅

theorem idle_fresh (clock : ℕ → ℤ) (done : ℕ → Bool) : Idle (St.fresh clock done) where
  rooted := by
    refine ⟨rfl, fun {q e} hq ↦ ?_⟩
    rw [St.fresh, AList.lookup_insert_ne (by simp)] at hq
    exact nomatch hq
  free := rfl

/-! ## Permissions that were set -/

/-- The permissions of a node that has explicit permissions. -/
def explicitAt (t : Table Path Node) (q : Path) : Option (Option VersionedPermissions) :=
  (AList.lookup q t).bind fun n ↦ if n.explicitPermissions then some n.vPerms else none

/-- Following and cleaning a path does not change what was set. -/
theorem Step.explicitAt {create : Bool} (h : Step create t t') : explicitAt t' = explicitAt t := by
  funext q
  rw [MountTable.explicitAt, MountTable.explicitAt]
  rcases hq' : t'.lookup q with _ | n'
  · rcases hq : t.lookup q with _ | n
    · rfl
    · -- what was set explicitly stays
      by_cases hexp : n.explicitPermissions
      · obtain ⟨n', hn', -⟩ := h.stays hq hexp
        exact nomatch hq'.symm.trans hn'
      · rw [bind_some, if_neg hexp]
        rfl
  · rw [bind_some]
    rcases h.comes hq' with ⟨n, hn, hlike⟩ | ⟨-, hexp, -⟩
    · rw [hn, bind_some, hlike.explicitPermissions, hlike.vPerms]
    · rw [hexp, if_neg Bool.false_ne_true]
      rcases hq : t.lookup q with _ | n
      · rfl
      · by_cases hexp' : n.explicitPermissions
        · obtain ⟨n'', hn'', hlike⟩ := h.stays hq hexp'
          obtain rfl := some.inj (hq'.symm.trans hn'')
          rw [hlike.explicitPermissions, hexp'] at hexp
          exact nomatch hexp
        · rw [bind_some, if_neg hexp']

theorem Pruned.explicitAt (h : Pruned p t t') (q : Path) :
    explicitAt t' q = if p <+: q then none else explicitAt t q := by
  rw [MountTable.explicitAt, h]
  split
  · rfl
  · rfl

/-! ## Calls that only read -/

/-- What `ResolveStep` may return: the servers of a mount on the way that the caller may resolve. -/
def Resolvable (cfg : Config) (cc : CallContext) (t : Table Path Node) (elems : List Str)
    (entry : MountEntry) : Prop :=
  ∃ p rest n m, elems = p ++ rest ∧ entry.name = ['/'].intercalate rest ∧
    AList.lookup p t = some n ∧ n.mount = some m ∧ entry.servers ⊆ m.servers ∧
    Passed cfg cc t p ∧ n.satisfies cfg cc resolveTags = true

theorem ensures_resolveStep (h : Idle s) :
    Ensures (resolveStep cfg cc name) s fun r s' ↦ Idle s' ∧
      ∀ entry, r = .ok entry → Resolvable cfg cc s.nodes (elemsOf name) entry := by
  refine .bind ((ensures_findMountPoint rfl (elemsOf name) h.rooted h.free).mono ?_)
  rintro r s₁ ⟨hstep, hquiet, hfound⟩
  split
  · exact .pure ⟨⟨hstep.rooted, hfound⟩, by rintro _ ⟨⟩⟩
  · exact .pure ⟨⟨hstep.rooted, hfound⟩, by rintro _ ⟨⟩⟩
  · next q rest =>
    obtain ⟨hlocked, helems, hpassed, n', hn', hm, hres⟩ := hfound
    refine .bind (hlocked.ensures_unlock_parent ?_)
    refine .bind (ensures_getNode hn' ?_)
    split
    · next hnone => exact absurd hm (by simp [hnone])
    · next m' hm' =>
      refine .bind (ensures_unlock_last rfl (.pure ⟨⟨hstep.rooted, rfl⟩, ?_⟩))
      rintro _ ⟨⟩
      rcases hstep.comes hn' with ⟨n, hn, hlike⟩ | ⟨hfalse, -⟩
      · obtain ⟨m, hm, hsub⟩ := hlike.servers m' hm'
        exact ⟨q, rest, n, m, helems.symm, rfl, hn, hm, hsub, hpassed.of_step hstep,
          (hlike.satisfies _).symm.trans hres⟩
      · exact nomatch hfalse

theorem ensures_getPermissions (h : Idle s) :
    Ensures (getPermissions cfg cc name) s fun _ s' ↦ Idle s' := by
  refine .bind ((ensures_findNode cfg _ (elemsOf name) getTags none h.rooted h.free).mono ?_)
  rintro r s₁ ⟨⟨hstep, -, -⟩, hfound⟩
  split
  · exact .pure ⟨hstep.rooted, hfound⟩
  · exact .pure ⟨hstep.rooted, hfound⟩
  · obtain ⟨hlocked, -, hp, -⟩ := hfound
    obtain ⟨n, hn⟩ := isSome_iff_exists.mp hp
    refine .bind (hlocked.ensures_unlock_parent ?_)
    refine .bind (ensures_getNode hn ?_)
    exact .bind (ensures_unlock_last rfl (.pure ⟨hstep.rooted, rfl⟩))

/-! ## Mounting -/

theorem ensures_deleteChildren {ks : List Str} (h : Rooted s.nodes) (hheld : s.held = {some p}) :
    Ensures (ks.forM fun child ↦ deleteNode p child) s fun _ s' ↦ Rooted s'.nodes ∧ Quiet s s' ∧
      s'.held = {some p} ∧ ∀ q, s'.nodes.lookup q =
        if ∃ k ∈ ks, p ++ [k] <+: q then none else s.nodes.lookup q := by
  induction ks generalizing s with
  | nil => exact ⟨(), s, rfl, h, ⟨rfl, rfl⟩, hheld, fun q ↦ by rw [if_neg (by simp)]⟩
  | cons k ks ih =>
    refine .bind (.mono (ensures_deleteNode h fun q hle _ hmem ↦ ?_) ?_)
    · rw [hheld, Finset.mem_singleton, some.injEq] at hmem
      subst hmem
      exact absurd hle.length_le (by simp)
    · rintro _ s₁ ⟨hpruned, hquiet, hheld₁, -⟩
      refine (ih (h.pruned (by simp) hpruned) (hheld₁.trans hheld)).mono ?_
      rintro _ s₂ ⟨hrooted₂, hquiet₂, hheld₂, hlookup₂⟩
      refine ⟨hrooted₂, hquiet.trans hquiet₂, hheld₂, fun q ↦ ?_⟩
      rw [hlookup₂, hpruned]
      by_cases hk : p ++ [k] <+: q
      · simp [hk]
      · simp [hk]

/-- Everything below a node is gone. -/
def Cleared (p : Path) (t t' : Table Path Node) : Prop :=
  ∀ q, AList.lookup q t' = if p <+: q ∧ q ≠ p then none else AList.lookup q t

theorem exists_child_of_below {q : Path} (hle : p <+: q) (hne : q ≠ p) : ∃ e, p ++ [e] <+: q := by
  obtain ⟨_ | ⟨e, rest⟩, rfl⟩ := hle
  · exact absurd (List.append_nil p) hne
  · exact ⟨e, rest, by simp⟩

theorem ensures_clear (h : Rooted s.nodes) (hheld : s.held = {some p}) :
    Ensures ((childNames s.nodes p).forM fun child ↦ deleteNode p child) s fun _ s' ↦
      Rooted s'.nodes ∧ Quiet s s' ∧ s'.held = {some p} ∧ Cleared p s.nodes s'.nodes := by
  refine (ensures_deleteChildren h hheld).mono ?_
  rintro _ s' ⟨hrooted, hquiet, hheld', hlookup⟩
  refine ⟨hrooted, hquiet, hheld', fun q ↦ ?_⟩
  rw [hlookup]
  by_cases hbelow : p <+: q ∧ q ≠ p
  · rw [if_pos hbelow]
    obtain ⟨e, he⟩ := exists_child_of_below hbelow.1 hbelow.2
    split
    · rfl
    · next hnone =>
      -- there is no such child, and so there is nothing below it
      rw [← not_isSome_iff_eq_none]
      intro hsome
      exact hnone ⟨e, mem_childNames_iff.mpr (h.lookup_of_prefix he hsome), he⟩
  · rw [if_neg hbelow, if_neg ?_]
    rintro ⟨k, -, hle⟩
    refine hbelow ⟨(List.prefix_append p [k]).trans hle, ?_⟩
    rintro rfl
    exact absurd hle.length_le (by simp)

/-- A node gets another mount. -/
theorem explicitAt_mount {m : Option Mount} (hn : t.lookup p = some n) :
    explicitAt (AList.insert p { n with mount := m } t) = explicitAt t := by
  funext q
  rw [explicitAt, explicitAt, Table.lookup_insert_eq_ite]
  split
  · next heq =>
    subst heq
    rw [hn]
    rfl
  · rfl

theorem Rooted.insert (h : Rooted t) (hp : (t.lookup p).isSome) (n : Node) :
    Rooted (t.insert p n) := by
  have hsome (q : Path) : ((t.insert p n).lookup q).isSome ↔ (t.lookup q).isSome := by
    rw [Table.lookup_insert_eq_ite]
    split
    · next heq =>
      subst heq
      simp [hp]
    · rfl
  exact ⟨(hsome _).mpr h.root, fun hq ↦ (hsome _).mpr (h.parent ((hsome _).mp hq))⟩

theorem Cleared.explicitAt (h : Cleared p t t') (q : Path) :
    explicitAt t' q = if p <+: q ∧ q ≠ p then none else explicitAt t q := by
  rw [MountTable.explicitAt, h]
  split
  · rfl
  · rfl

/-- A mount takes away what is below it. -/
theorem ensures_mount (name server : Str) (ttlsecs : ℕ) (flags : MountFlags) (h : Idle s) :
    Ensures (mount cfg cc name server ttlsecs flags) s fun r s' ↦ Idle s' ∧ s'.log = s.log ∧
      (r ≠ .ok () → explicitAt s'.nodes = explicitAt s.nodes) ∧
      (r = .ok () → ∀ q, explicitAt s'.nodes q =
        if elemsOf name <+: q ∧ q ≠ elemsOf name then none else explicitAt s.nodes q) := by
  rw [mount]
  split
  · exact .pure ⟨h, rfl, fun _ ↦ rfl, by rintro ⟨⟩⟩
  · split
    · exact .pure ⟨h, rfl, fun _ ↦ rfl, by rintro ⟨⟩⟩
    · refine .bind ((ensures_findNode cfg _ (elemsOf name) mountTags none h.rooted h.free).mono ?_)
      rintro r s₁ ⟨⟨hstep, -, hquiet⟩, hfound⟩
      split
      · exact .pure ⟨⟨hstep.rooted, hfound⟩, hquiet.1, fun _ ↦ hstep.explicitAt, by rintro ⟨⟩⟩
      · exact .pure ⟨⟨hstep.rooted, hfound⟩, hquiet.1, fun _ ↦ hstep.explicitAt, by rintro ⟨⟩⟩
      · obtain ⟨hlocked, rfl, hp, -⟩ := hfound
        obtain ⟨n, hn⟩ := isSome_iff_exists.mp hp
        refine .bind (hlocked.ensures_unlock_parent ?_)
        refine .bind (ensures_getNode hn ?_)
        split
        · refine .bind (ensures_unlock_last rfl (.pure ?_))
          exact ⟨⟨hstep.rooted, rfl⟩, hquiet.1, fun _ ↦ hstep.explicitAt, by rintro ⟨⟩⟩
        · split
          · refine .bind (ensures_unlock_last rfl (.pure ?_))
            exact ⟨⟨hstep.rooted, rfl⟩, hquiet.1, fun _ ↦ hstep.explicitAt, by rintro ⟨⟩⟩
          · refine .bind (.get (.bind (.mono (ensures_clear ?_ rfl) ?_)))
            · exact hstep.rooted
            rintro _ s₂ ⟨hrooted₂, hquiet₂, hheld₂, hcleared⟩
            have hn₂ : s₂.nodes.lookup (elemsOf name) = some n := by
              rw [hcleared, if_neg (by simp)]
              exact hn
            refine .bind (ensures_getNode hn₂ ?_)
            refine .bind (ensures_now ?_)
            refine .bind (ensures_putNode (.bind (ensures_unlock_last hheld₂ ?_)))
            refine .pure ⟨⟨hrooted₂.insert (isSome_of_eq_some hn₂) _, rfl⟩,
              hquiet₂.1.trans hquiet.1, fun hne ↦ absurd rfl hne, fun _ q ↦ ?_⟩
            rw [explicitAt_mount hn₂, hcleared.explicitAt]
            rw [hstep.explicitAt]

/-! ## Unmounting -/

theorem target_nil {tags : Option (List Tag)} {clock : ℕ → ℤ} :
    target cfg cc tags [] s = some (n, clock) ↔
      s.nodes.lookup [] = some n ∧ s.clock = clock ∧ n.satisfies cfg cc tags = true := by
  rw [target, filter_eq_some_iff, bind_eq_some_iff]
  constructor
  · rintro ⟨⟨root, hroot, hlead⟩, hsat⟩
    obtain ⟨⟩ := hlead
    exact ⟨hroot, rfl, hsat⟩
  · rintro ⟨hroot, rfl, hsat⟩
    exact ⟨⟨n, hroot, rfl⟩, hsat⟩

/-- The root is of no use once a server is unmounted there. -/
def RootUseless (cfg : Config) (cc : CallContext) (server : Str) (s : St) : Prop :=
  ∃ n, AList.lookup [] s.nodes = some n ∧ n.satisfies cfg cc mountTags = true ∧
    useless s.nodes (s.clock 0) [] { n with mount := removeServer n.mount server } = true

theorem SameBelow.insert (h : SameBelow p t t') (n : Node) : SameBelow p t (t'.insert p n) := by
  intro q hle hne
  rw [AList.lookup_insert_ne hne]
  exact h q hle hne

theorem ensures_unmountNode (server : Str) (h : Rooted s.nodes)
    (hn : s.nodes.lookup p = some n) (hlocked : Locked p s) :
    Ensures (unmountNode p server) s fun removed s' ↦ Idle s' ∧ Quiet s s' ∧
        explicitAt s'.nodes = explicitAt s.nodes ∧
        removed = useless s.nodes (s.clock 0) p { n with
          mount := removeServer n.mount server } := by
  refine .bind (ensures_getNode hn (.bind (ensures_putNode ?_)))
  refine .bind (.mono (ensures_removeUseless ?_ (AList.lookup_insert _) ?_) ?_)
  · exact h.insert (isSome_of_eq_some hn) _
  · exact hlocked
  · rintro removed s₁ ⟨hstep, hquiet, hheld, hremoved, -⟩
    have hlocked₁ : Locked p s₁ := hheld.trans hlocked
    refine .bind (hlocked₁.ensures_release (.pure ?_))
    refine ⟨⟨hstep.rooted, rfl⟩, hquiet, hstep.explicitAt.trans (explicitAt_mount hn), ?_⟩
    rw [hremoved]
    exact useless_of_sameBelow (SameBelow.insert (fun _ _ _ ↦ rfl) _)

theorem ensures_unmount (name server : Str) (h : Idle s)
    (hroot : elemsOf name = [] → ¬RootUseless cfg cc server s) :
    Ensures (unmount cfg cc name server) s fun _ s' ↦ Idle s' ∧ s'.log = s.log ∧
      explicitAt s'.nodes = explicitAt s.nodes := by
  set cc' : CallContext := { cc with create := false }
  refine .bind (((ensures_findNode cfg cc' (elemsOf name) mountTags none h.rooted h.free).and
    (returns_findNode cfg cc' (elemsOf name) mountTags h.rooted)).mono ?_)
  rintro r s₁ ⟨⟨⟨hstep, -, hquiet⟩, hfound⟩, htarget⟩
  split
  · exact .pure ⟨⟨hstep.rooted, hfound⟩, hquiet.1, hstep.explicitAt⟩
  · exact .pure ⟨⟨hstep.rooted, hfound⟩, hquiet.1, hstep.explicitAt⟩
  · obtain ⟨hlocked, rfl, hp, -⟩ := hfound
    obtain ⟨n, hn⟩ := isSome_iff_exists.mp hp
    refine .bind ((ensures_unmountNode server hstep.rooted hn hlocked).mono ?_)
    rintro removed s₂ ⟨hidle₂, hquiet₂, hexplicit₂, hremoved⟩
    have hlog := hquiet₂.1.trans hquiet.1
    have hexplicit := hexplicit₂.trans hstep.explicitAt
    split
    · next htrue =>
      have hne : elemsOf name ≠ [] := by
        intro hnil
        refine hroot hnil ?_
        rw [hnil] at htarget hn hremoved
        obtain ⟨m, clock, heq, hm, hclock, -, hsame⟩ := htarget.exists_of_ok
        obtain rfl : n = m := some.inj (hn.symm.trans hm)
        obtain ⟨hroot, rfl, hsat⟩ := target_nil.mp heq
        refine ⟨n, hroot, hsat, ?_⟩
        rw [← useless_of_sameBelow hsame, ← hclock, ← hremoved, htrue]
      refine .bind (.mono (Q := fun elems s ↦ s = s₂) ?_ ?_)
      · rw [initSlice, if_neg hne]
        exact .pure rfl
      · rintro elems _ rfl
        refine .bind (.mono (ensures_removeUselessRecursive rfl _ _ hidle₂.rooted hidle₂.free) ?_)
        rintro _ s₃ ⟨hstep₃, hquiet₃, hheld₃⟩
        exact .pure ⟨⟨hstep₃.rooted, hheld₃⟩, hquiet₃.1.trans hlog,
          hstep₃.explicitAt.trans hexplicit⟩
    · exact .pure ⟨hidle₂, hlog, hexplicit⟩

/-! ## Deleting -/

/-- The entry of the log for a deletion. -/
def deletion (name : Str) : StoreElement := ⟨name, ⟨0, none⟩, true, []⟩

/-- What was set explicitly and the log, after `Delete`. -/
def Deletes (cfg : Config) (name : Str) (s s' : St) : Prop :=
  (s'.log = s.log ∧ explicitAt s'.nodes = explicitAt s.nodes) ∨
    elemsOf name ≠ [] ∧ s'.log = s.log ++ (if cfg.persisting then [deletion name] else []) ∧
      ∀ q, explicitAt s'.nodes q = if elemsOf name <+: q then none else explicitAt s.nodes q

theorem ensures_delete (deleteSubTree : Bool) (h : Idle s) :
    Ensures (delete cfg cc name deleteSubTree) s fun _ s' ↦ Idle s' ∧ Deletes cfg name s s' := by
  rw [delete]
  split
  · exact .pure ⟨h, .inl ⟨rfl, rfl⟩⟩
  · next child hchild =>
    have hne : elemsOf name ≠ [] := by
      rintro hnil
      rw [hnil] at hchild
      exact nomatch hchild
    have hconcat : (elemsOf name).dropLast ++ [child] = elemsOf name :=
      List.dropLast_append_getLast? child hchild
    refine .bind
      ((ensures_findNode cfg _ (elemsOf name) removeTags removeTags h.rooted h.free).mono ?_)
    rintro r s₁ ⟨⟨hstep, -, hquiet⟩, hfound⟩
    split
    · exact .pure ⟨⟨hstep.rooted, hfound⟩, .inl ⟨hquiet.1, hstep.explicitAt⟩⟩
    · exact .pure ⟨⟨hstep.rooted, hfound⟩, .inl ⟨hquiet.1, hstep.explicitAt⟩⟩
    · obtain ⟨hlocked, rfl, hp, -⟩ := hfound
      refine .bind (.get ?_)
      split
      · refine .bind (hlocked.ensures_unlock_node (.bind (ensures_unlock_last rfl ?_)))
        exact .pure ⟨⟨hstep.rooted, rfl⟩, .inl ⟨hquiet.1, hstep.explicitAt⟩⟩
      · refine .bind (.mono (ensures_deleteNode hstep.rooted ?_) ?_)
        · have hlocked' := hlocked
          rw [← hconcat] at hlocked'
          exact fun _ ↦ hlocked'.not_mem_of_below
        rintro _ s₂ ⟨hpruned, hquiet₂, hheld₂, -⟩
        rw [hconcat] at hpruned
        have hrooted₂ := hstep.rooted.pruned hne hpruned
        have hexplicit (q : Path) : explicitAt s₂.nodes q =
            if elemsOf name <+: q then none else explicitAt s.nodes q := by
          rw [hpruned.explicitAt, hstep.explicitAt]
        have hlog := hquiet₂.1.trans hquiet.1
        have hlocked₂ : Locked (elemsOf name) s₂ := hheld₂.trans hlocked
        split
        · next hpersisting =>
          refine .bind (.modify (.bind (Locked.ensures_unlock_node ?_ ?_)))
          · exact hlocked₂
          refine .bind (ensures_unlock_last rfl (.pure ?_))
          refine ⟨⟨hrooted₂, rfl⟩, .inr ⟨hne, ?_, hexplicit⟩⟩
          rw [if_pos hpersisting, ← hlog]
          rfl
        · next hpersisting =>
          refine .bind (hlocked₂.ensures_unlock_node ?_)
          refine .bind (ensures_unlock_last rfl (.pure ?_))
          refine ⟨⟨hrooted₂, rfl⟩, .inr ⟨hne, ?_, hexplicit⟩⟩
          rw [if_neg hpersisting, List.append_nil, ← hlog]

/-! ## Setting permissions -/

/-- The map of permissions with the caller kept in `Admin`. -/
def withAdmins (lib : Lib) (perms : Option Permissions) (bs : List Str) : Option Permissions :=
  perms.map fun P ↦ bs.foldl (fun P b ↦ lib.add P b .admin) P

theorem addAdmins_some (P : Permissions) (bs : List Str) :
    addAdmins cfg (some P) bs = pure (withAdmins cfg.lib (some P) bs) := by
  induction bs generalizing P with
  | nil => rfl
  | cons b bs ih =>
    rw [addAdmins, ih]
    rfl

theorem ensures_addAdmins {bs : List Str} (h : perms = none → bs = [])
    {Q : Option Permissions → St → Prop} (hQ : Q (withAdmins cfg.lib perms bs) s) :
    Ensures (addAdmins cfg perms bs) s Q := by
  rcases perms with _ | P
  · rw [h rfl] at hQ ⊢
    exact .pure hQ
  · rw [addAdmins_some]
    exact .pure hQ

/-- `SetPermissions` is about to write to a map that is nil. -/
def NilMapWrite (cfg : Config) (cc : CallContext) (name : Str)
    (perms : Option Permissions) (s : St) : Prop :=
  perms = none ∧ checkElementLengths (elemsOf name) = true ∧ ∃ n clock,
    target cfg { cc with create := true } setTags (elemsOf name) s = some (n, clock) ∧
      keptAdmins cfg cc n.vPerms none ≠ []

/-- `SetPermissions` finds a node, in a tree in which it may have made it. -/
structure SetsAt (cfg : Config) (cc : CallContext) (name : Str) (s : St) (t : Table Path Node)
    (n : Node) : Prop where
  lengths : checkElementLengths (elemsOf name) = true
  target : ∃ clock, target cfg { cc with create := true } setTags (elemsOf name) s = some (n, clock)
  lookup : AList.lookup (elemsOf name) t = some n
  step : Step true s.nodes t
  keeps : Keeps s.nodes t

/-- How `SetPermissions` may end. -/
inductive SetOutcome (cfg : Config) (cc : CallContext) (name version : Str) (s : St) :
    Except MtError Unit → St → Prop
  | failed {err : MtError} {s' : St} (hstep : Step true s.nodes s'.nodes)
      (hkeeps : Keeps s.nodes s'.nodes) (hlog : s'.log = s.log)
      (hnone : checkElementLengths (elemsOf name) = true →
        target cfg { cc with create := true } setTags (elemsOf name) s = none) :
      SetOutcome cfg cc name version s (.error err) s'
  | rejected {n : Node} {t : Table Path Node} {s' : St} (hat : SetsAt cfg cc name s t n)
      (hversion : VersionedPermissions.versionMatches (n.vPerms.getD ⟨0, none⟩).V version = false)
      (hnodes : s'.nodes = AList.insert (elemsOf name)
        { n with vPerms := some (n.vPerms.getD ⟨0, none⟩) } t) (hlog : s'.log = s.log) :
      SetOutcome cfg cc name version s (.error .badVersion) s'
  | set {n : Node} {t : Table Path Node} {vPerms : VersionedPermissions} {s' : St}
      (hat : SetsAt cfg cc name s t n)
      (hversion : VersionedPermissions.versionMatches (n.vPerms.getD ⟨0, none⟩).V version = true)
      (hnodes : s'.nodes = AList.insert (elemsOf name)
        { n with vPerms := some vPerms, explicitPermissions := true } t)
      (hlog : s'.log = s.log ++ if cfg.persisting then [⟨name, vPerms, false, n.creator⟩] else []) :
      SetOutcome cfg cc name version s (.ok ()) s'

theorem ensures_setPermissions (perms : Option Permissions) (version : Str) (h : Idle s)
    (hadmins : ¬NilMapWrite cfg cc name perms s) :
    Ensures (setPermissions cfg cc name perms version) s fun r s' ↦
      Idle s' ∧ SetOutcome cfg cc name version s r s' := by
  set cc' : CallContext := { cc with create := true }
  rw [setPermissions]
  split
  · next hlengths =>
    refine .pure ⟨h, .failed (Step.refl h.rooted) (Keeps.refl _) rfl fun hok ↦ ?_⟩
    rw [hok] at hlengths
    exact nomatch hlengths
  · next hlengths =>
    have hlengths' : checkElementLengths (elemsOf name) = true := by simpa using hlengths
    refine .bind (((ensures_findNode cfg cc' (elemsOf name) setTags none h.rooted h.free).and
      (returns_findNode cfg cc' (elemsOf name) setTags h.rooted)).mono ?_)
    rintro r s₁ ⟨⟨⟨hstep, hkeeps, hquiet⟩, hfound⟩, htarget⟩
    split
    · exact .pure ⟨⟨hstep.rooted, hfound⟩,
        .failed hstep hkeeps hquiet.1 fun _ ↦ htarget.eq_none (by rintro _ ⟨⟩)⟩
    · exact .pure ⟨⟨hstep.rooted, hfound⟩,
        .failed hstep hkeeps hquiet.1 fun _ ↦ htarget.eq_none (by rintro _ ⟨⟩)⟩
    · obtain ⟨hlocked, rfl, hp, -⟩ := hfound
      obtain ⟨n, hn⟩ := isSome_iff_exists.mp hp
      have hat : SetsAt cfg cc name s s₁.nodes n := by
        obtain ⟨m, clock, heq, hm, -⟩ := htarget.exists_of_ok
        obtain rfl : n = m := some.inj (hn.symm.trans hm)
        exact ⟨hlengths', ⟨clock, heq⟩, hn, hstep, hkeeps⟩
      have hadmins' : perms = none → keptAdmins cfg cc n.vPerms perms = [] := by
        rintro rfl
        by_contra hne
        obtain ⟨clock, htarget'⟩ := hat.target
        exact hadmins ⟨rfl, hlengths', n, clock, htarget', hne⟩
      refine .bind (hlocked.ensures_unlock_parent ?_)
      refine .bind (ensures_getNode hn (.bind (ensures_addAdmins hadmins' ?_)))
      have hrooted (n' : Node) := hstep.rooted.insert hp n'
      rw [VersionedPermissions.set]
      by_cases hversion :
        VersionedPermissions.versionMatches (n.vPerms.getD ⟨0, none⟩).V version = true
      · rw [if_pos hversion]
        dsimp only
        rw [if_pos rfl]
        split
        · next hpersisting =>
          refine .bind (.modify (.bind (ensures_putNode ?_)))
          refine .bind (ensures_unlock_last rfl (.pure ⟨⟨hrooted _, rfl⟩, ?_⟩))
          refine .set hat hversion rfl ?_
          rw [if_pos hpersisting, ← hquiet.1]
        · next hpersisting =>
          refine .bind (ensures_putNode ?_)
          refine .bind (ensures_unlock_last rfl (.pure ⟨⟨hrooted _, rfl⟩, ?_⟩))
          refine .set hat hversion rfl ?_
          rw [if_neg hpersisting, List.append_nil, ← hquiet.1]
      · rw [if_neg hversion]
        dsimp only
        rw [if_neg Bool.false_ne_true]
        refine .bind (ensures_putNode ?_)
        refine .bind (ensures_unlock_last rfl (.pure ⟨⟨hrooted _, rfl⟩, ?_⟩))
        exact .rejected hat (Bool.eq_false_of_not_eq_true hversion) rfl hquiet.1

/-- A write to the nil map does not return. -/
theorem NilMapWrite.returns {name : Str} {version : Str}
    (h : NilMapWrite cfg cc name perms s) (hidle : Idle s) :
    Returns (setPermissions cfg cc name perms version) s fun _ _ ↦ False := by
  obtain ⟨rfl, hlengths, n, clock, htarget, hne⟩ := h
  rw [setPermissions, hlengths, Bool.not_true, if_neg Bool.false_ne_true]
  refine .bind ((returns_findNode cfg _ (elemsOf name) setTags hidle.rooted).mono ?_)
  intro r s₁ hr
  rw [htarget] at hr
  obtain ⟨rfl, hn, -⟩ := hr
  refine .bind (returns_unlock fun _ ↦ .bind (returns_getNode hn (.bind ?_)))
  obtain ⟨b, bs, hbs⟩ := List.exists_cons_of_ne_nil hne
  rw [hbs, addAdmins]
  rintro _ _ ⟨⟩

/-- A slice without elements has no first elements. -/
theorem RootUseless.returns {name server : Str} (h : RootUseless cfg cc server s)
    (hname : elemsOf name = []) (hidle : Idle s) :
    Returns (unmount cfg cc name server) s fun _ _ ↦ False := by
  set cc' : CallContext := { cc with create := false }
  obtain ⟨n, hn, hsat, huseless⟩ := h
  have htarget : target cfg cc' mountTags [] s = some (n, s.clock) := target_nil.mpr ⟨hn, rfl, hsat⟩
  rw [unmount, hname]
  refine .bind (((ensures_findNode cfg cc' [] mountTags none hidle.rooted
    hidle.free).and (returns_findNode cfg cc' [] mountTags hidle.rooted)).returns.mono ?_)
  rintro r s₁ ⟨⟨⟨hstep, -, -⟩, hfound⟩, hr⟩
  rw [htarget] at hr
  obtain ⟨rfl, hn₁, hclock, -, hsame⟩ := hr
  refine .bind ((ensures_unmountNode server hstep.rooted hn₁ hfound.1).returns.mono ?_)
  rintro removed s₂ ⟨-, -, -, hremoved⟩
  rw [hclock, useless_of_sameBelow hsame, huseless] at hremoved
  rw [hremoved, if_pos rfl]
  refine .bind ?_
  rintro _ _ ⟨⟩

end Vanadium.MountTable
