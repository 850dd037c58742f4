import Vanadium.MountTable.Tree

/-!
# What traversal and cleanup do

Each function of the tree has one specification. It says that the function ends without a fault,
which locks are held then, and how the tree has changed (`Step`): nodes keep their permissions, no
node with permissions of its own goes away, and nodes appear only if the caller creates them.
-/

namespace Vanadium.MountTable

open Foundations Table Program
open Option hiding bind_apply
open List hiding lookup_eq_none_iff

variable {cfg : Config} {cc : CallContext} {s s' s'' : St} {p q : Path}

/-! ## Locks -/

/-- A node and its parent are locked, and nothing else. -/
def Locked (p : Path) (s : St) : Prop := s.held = {some p, parentLock p}

theorem parentLock_ne (p : Path) : parentLock p ≠ some p := by
  rw [parentLock]
  split
  · exact nofun
  · next hne =>
    intro h
    have hlen := congrArg length (some.inj h)
    rw [length_dropLast] at hlen
    have := length_pos_iff.mpr hne
    omega

@[simp] theorem parentLock_append (p : Path) (e : Str) : parentLock (p ++ [e]) = some p := by
  rw [parentLock, if_neg (by simp), dropLast_concat]

variable {l : Option Path} {Q : Unit → St → Prop} {e : Str} {n n' : Node} {t t' : Table Path Node}
  {first : Path}

theorem ensures_lock (h : l ∉ s.held)
    (hQ : Q () { s with held := insert l s.held }) : Ensures (lock l) s Q := by
  refine ⟨(), _, ?_, hQ⟩
  rw [lock, bind_apply, get_apply]
  dsimp only
  rw [if_neg h]
  rfl

theorem ensures_unlock (h : l ∈ s.held)
    (hQ : Q () { s with held := s.held.erase l }) : Ensures (unlock l) s Q := by
  refine ⟨(), _, ?_, hQ⟩
  rw [unlock, bind_apply, get_apply]
  dsimp only
  rw [if_pos h]
  rfl

/-- The lock of the parent is released. -/
theorem Locked.ensures_unlock_parent (h : Locked p s)
    (hQ : Q () { s with held := {some p} }) : Ensures (unlock (parentLock p)) s Q := by
  have heq : s.held.erase (parentLock p) = {some p} := by
    rw [h, Finset.pair_comm, Finset.erase_insert]
    rw [Finset.mem_singleton]
    exact parentLock_ne p
  refine ensures_unlock (by rw [h]; simp) ?_
  rw [heq]
  exact hQ

theorem ensures_unlock_last (h : s.held = {l})
    (hQ : Q () { s with held := ∅ }) : Ensures (unlock l) s Q := by
  refine ensures_unlock (by rw [h]; simp) ?_
  rw [h, Finset.erase_singleton]
  exact hQ

/-- The lock of the node is released first. -/
theorem Locked.ensures_unlock_node (h : Locked p s)
    (hQ : Q () { s with held := {parentLock p} }) : Ensures (unlock (some p)) s Q := by
  refine ensures_unlock (by rw [h]; simp) ?_
  rw [h, Finset.erase_insert (by simpa using (parentLock_ne p).symm)]
  exact hQ

theorem Locked.ensures_release (h : Locked p s)
    (hQ : Q () { s with held := ∅ }) : Ensures (release p) s Q :=
  .bind (h.ensures_unlock_parent (ensures_unlock_last rfl hQ))

/-- The lock of a child is taken while its parent is locked. -/
theorem ensures_lock_child (h : s.held = {some p})
    (hQ : ∀ s', s' = { s with held := {some (p ++ [e]), parentLock (p ++ [e])} } → Q () s') :
    Ensures (lock (some (p ++ [e]))) s Q := by
  refine ensures_lock (by rw [h]; simp) (hQ _ ?_)
  rw [h, parentLock_append]

/-! ## Nodes -/

theorem ensures_getNode {Q : Node → St → Prop} (h : s.nodes.lookup p = some n)
    (hQ : Q n s) : Ensures (getNode p) s Q := by
  refine ⟨n, s, ?_, hQ⟩
  rw [getNode, bind_apply, get_apply]
  dsimp only
  rw [h]
  rfl

theorem ensures_putNode
    (hQ : Q () { s with nodes := s.nodes.insert p n }) : Ensures (putNode p n) s Q :=
  .modify hQ

theorem ensures_now {Q : ℤ → St → Prop}
    (hQ : Q (s.clock 0) { s with clock := fun i ↦ s.clock (i + 1) }) : Ensures now s Q :=
  ⟨_, _, rfl, hQ⟩

theorem ensures_shouldAbort {Q : Bool → St → Prop}
    (hQ : Q (s.done 0) { s with done := fun i ↦ s.done (i + 1) }) : Ensures shouldAbort s Q :=
  ⟨_, _, rfl, hQ⟩

/-- Every node but the root has a parent. -/
structure Rooted (nodes : Table Path Node) : Prop where
  root : (AList.lookup [] nodes).isSome
  parent : ∀ {p e}, (AList.lookup (p ++ [e]) nodes).isSome → (AList.lookup p nodes).isSome

/-- Nodes that differ in the servers that have expired, and in the map of their children. -/
structure Node.Like (n n' : Node) : Prop where
  mount : n'.mount.isSome = n.mount.isSome
  servers : ∀ m', n'.mount = some m' → ∃ m, n.mount = some m ∧ m'.servers ⊆ m.servers
  vPerms : n'.vPerms = n.vPerms
  permsTemplate : n'.permsTemplate = n.permsTemplate
  explicitPermissions : n'.explicitPermissions = n.explicitPermissions
  creator : n'.creator = n.creator

theorem Node.Like.refl (n : Node) : n.Like n :=
  ⟨rfl, fun m hm ↦ ⟨m, hm, List.Subset.refl _⟩, rfl, rfl, rfl, rfl⟩

theorem Node.Like.trans {n'' : Node} (h : n.Like n') (h' : n'.Like n'') : n.Like n'' where
  mount := h'.mount.trans h.mount
  servers m'' hm'' := by
    obtain ⟨m', hm', hsub'⟩ := h'.servers m'' hm''
    obtain ⟨m, hm, hsub⟩ := h.servers m' hm'
    exact ⟨m, hm, List.Subset.trans hsub' hsub⟩
  vPerms := h'.vPerms.trans h.vPerms
  permsTemplate := h'.permsTemplate.trans h.permsTemplate
  explicitPermissions := h'.explicitPermissions.trans h.explicitPermissions
  creator := h'.creator.trans h.creator

/-- A node without the servers that have expired. -/
theorem Node.like_removeExpired {m : Mount} (hm : n.mount = some m) (now : ℤ) :
    n.Like { n with mount := some (m.removeExpired now) } where
  mount := by rw [hm]; rfl
  servers m' hm' := by
    obtain ⟨⟩ := hm'
    exact ⟨m, hm, filter_subset_self _⟩
  vPerms := rfl
  permsTemplate := rfl
  explicitPermissions := rfl
  creator := rfl

theorem Node.Like.mount_eq_none (h : n.Like n') (hm : n.mount = none) : n'.mount = none := by
  rw [← isNone_iff_eq_none, ← not_isSome, h.mount, hm]
  rfl

theorem Node.Like.satisfies (h : n.Like n') (tags : Option (List Tag)) :
    n'.satisfies cfg cc tags = n.satisfies cfg cc tags := by
  unfold Node.satisfies
  rw [h.vPerms]

/-- How the tree changes when a path is followed or cleaned. -/
structure Step (create : Bool) (t t' : Table Path Node) : Prop where
  rooted : Rooted t'
  /-- where the nodes come from -/
  comes : ∀ {q n'}, AList.lookup q t' = some n' →
    (∃ n, AList.lookup q t = some n ∧ n.Like n') ∨
      create = true ∧ n'.explicitPermissions = false ∧ n'.mount = none
  /-- what stays -/
  stays : ∀ {q n}, AList.lookup q t = some n → n.explicitPermissions = true →
    ∃ n', AList.lookup q t' = some n' ∧ n.Like n'

/-- No node is removed. -/
structure Keeps (t t' : Table Path Node) : Prop where
  keep : ∀ {q n}, AList.lookup q t = some n → ∃ n', AList.lookup q t' = some n' ∧ n.Like n'

/-- No node is removed that is not below a path. -/
structure KeepsOutside (p : Path) (t t' : Table Path Node) : Prop where
  keep : ∀ {q n}, ¬p <+: q → AList.lookup q t = some n →
    ∃ n', AList.lookup q t' = some n' ∧ n.Like n'

/-- Nothing is logged or sent. -/
def Quiet (s s' : St) : Prop := s'.log = s.log ∧ s'.replies = s.replies

theorem Quiet.trans (h : Quiet s s') (h' : Quiet s' s'') : Quiet s s'' :=
  ⟨h'.1.trans h.1, h'.2.trans h.2⟩

section Tables

variable {create : Bool} {t t' t'' : Table Path Node}

theorem Keeps.refl (t : Table Path Node) : Keeps t t := ⟨fun hq ↦ ⟨_, hq, Node.Like.refl _⟩⟩

theorem Keeps.trans (h : Keeps t t') (h' : Keeps t' t'') : Keeps t t'' := by
  refine ⟨fun hq ↦ ?_⟩
  obtain ⟨n', hn', hlike⟩ := h.keep hq
  obtain ⟨n'', hn'', hlike'⟩ := h'.keep hn'
  exact ⟨n'', hn'', hlike.trans hlike'⟩

theorem Keeps.isSome (h : Keeps t t') (hq : (t.lookup q).isSome) : (t'.lookup q).isSome := by
  obtain ⟨n, hn⟩ := isSome_iff_exists.mp hq
  obtain ⟨n', hn', -⟩ := h.keep hn
  exact isSome_of_eq_some hn'

theorem Keeps.outside (h : Keeps t t') (p : Path) : KeepsOutside p t t' := ⟨fun _ hq ↦ h.keep hq⟩

theorem KeepsOutside.trans (h : KeepsOutside p t t') (h' : KeepsOutside p t' t'') :
    KeepsOutside p t t'' := by
  refine ⟨fun hnot hq ↦ ?_⟩
  obtain ⟨n', hn', hlike⟩ := h.keep hnot hq
  obtain ⟨n'', hn'', hlike'⟩ := h'.keep hnot hn'
  exact ⟨n'', hn'', hlike.trans hlike'⟩

theorem Step.refl (h : Rooted t) : Step create t t where
  rooted := h
  comes hq := .inl ⟨_, hq, Node.Like.refl _⟩
  stays hq _ := ⟨_, hq, Node.Like.refl _⟩

theorem Step.trans (h : Step create t t') (h' : Step create t' t'') : Step create t t'' where
  rooted := h'.rooted
  comes {q n''} hq := by
    rcases h'.comes hq with ⟨n', hn', hlike'⟩ | hnew
    · rcases h.comes hn' with ⟨n, hn, hlike⟩ | ⟨hc, hexp, hmount⟩
      · exact .inl ⟨n, hn, hlike.trans hlike'⟩
      · exact .inr ⟨hc, hlike'.explicitPermissions.trans hexp, hlike'.mount_eq_none hmount⟩
    · exact .inr hnew
  stays {q n} hq hexp := by
    obtain ⟨n', hn', hlike⟩ := h.stays hq hexp
    obtain ⟨n'', hn'', hlike'⟩ := h'.stays hn' (hlike.explicitPermissions.trans hexp)
    exact ⟨n'', hn'', hlike.trans hlike'⟩

/-- A node is replaced by one like it. -/
theorem Step.put (create : Bool) (h : Rooted t) {n n' : Node} (hn : t.lookup p = some n)
    (hlike : n.Like n') : Step create t (t.insert p n') ∧ Keeps t (t.insert p n') := by
  have hkeeps : Keeps t (t.insert p n') := by
    refine ⟨fun {q m} hq ↦ ?_⟩
    rw [lookup_insert_eq_ite]
    split
    · next heq =>
      subst heq
      rw [hn] at hq
      obtain rfl := some.inj hq
      exact ⟨n', rfl, hlike⟩
    · exact ⟨m, hq, Node.Like.refl m⟩
  have hsome {q : Path} (hq : ((t.insert p n').lookup q).isSome) : (t.lookup q).isSome := by
    rw [lookup_insert_eq_ite] at hq
    split at hq
    · next heq => rw [heq, hn]; rfl
    · exact hq
  refine ⟨⟨⟨hkeeps.isSome h.root, fun hq ↦ hkeeps.isSome (h.parent (hsome hq))⟩,
    fun {q m'} hq ↦ .inl ?_, fun hq _ ↦ hkeeps.keep hq⟩, hkeeps⟩
  rw [lookup_insert_eq_ite] at hq
  split at hq
  · next heq =>
    obtain rfl := some.inj hq
    exact ⟨n, heq ▸ hn, hlike⟩
  · exact ⟨m', hq, Node.Like.refl m'⟩

/-- A node is added below one that is there. -/
theorem Step.add (h : Rooted t) {e : Str} {n : Node} (hp : (t.lookup p).isSome)
    (hnone : t.lookup (p ++ [e]) = none) (hexp : n.explicitPermissions = false)
    (hmount : n.mount = none) : Step true t (t.insert (p ++ [e]) n) ∧
    Keeps t (t.insert (p ++ [e]) n) := by
  have hkeeps : Keeps t (t.insert (p ++ [e]) n) := by
    refine ⟨fun {q m} hq ↦ ⟨m, ?_, Node.Like.refl m⟩⟩
    rw [lookup_insert_eq_ite, if_neg ?_]
    · exact hq
    · rintro rfl
      rw [hnone] at hq
      exact nomatch hq
  refine ⟨⟨⟨hkeeps.isSome h.root, fun {q e'} hq ↦ hkeeps.isSome ?_⟩, fun {q m'} hq ↦ ?_,
    fun hq _ ↦ hkeeps.keep hq⟩, hkeeps⟩
  · rw [lookup_insert_eq_ite] at hq
    split at hq
    · next heq =>
      obtain ⟨rfl, -⟩ := append_inj' heq rfl
      exact hp
    · exact h.parent hq
  · rw [lookup_insert_eq_ite] at hq
    split at hq
    · obtain rfl := some.inj hq
      exact .inr ⟨rfl, hexp, hmount⟩
    · exact .inl ⟨m', hq, Node.Like.refl m'⟩

end Tables

/-- How the state changes when a path is followed. -/
structure Follows (create : Bool) (s s' : St) : Prop where
  step : Step create s.nodes s'.nodes
  keeps : Keeps s.nodes s'.nodes
  quiet : Quiet s s'

theorem Follows.refl {create : Bool} (h : Rooted s.nodes) : Follows create s s :=
  ⟨Step.refl h, Keeps.refl _, rfl, rfl⟩

theorem Follows.trans {create : Bool} (h : Follows create s s') (h' : Follows create s' s'') :
    Follows create s s'' :=
  ⟨h.step.trans h'.step, h.keeps.trans h'.keeps, h.quiet.trans h'.quiet⟩

/-! ## Servers -/

/-- Whether a node has a mount with servers at a time. -/
def Node.activeAt (n : Node) (now : ℤ) : Bool :=
  n.mount.any fun m ↦ !(m.removeExpired now).servers.isEmpty

/-- `isActive` removes servers that have expired. -/
theorem ensures_isActive (create : Bool) (h : Rooted s.nodes) (hn : s.nodes.lookup p = some n) :
    Ensures (isActive p) s fun r s' ↦ Follows create s s' ∧ s'.held = s.held ∧
      r = n.activeAt (s.clock 0) := by
  refine .bind (ensures_getNode hn ?_)
  split
  · next hm =>
    exact .pure ⟨.refl h, rfl, by rw [Node.activeAt, hm]; rfl⟩
  · next m hm =>
    refine .bind (ensures_now (.bind (ensures_putNode (.pure ?_))))
    obtain ⟨hstep, hkeeps⟩ := Step.put create h hn (Node.like_removeExpired hm (s.clock 0))
    exact ⟨⟨hstep, hkeeps, rfl, rfl⟩, rfl, by rw [Node.activeAt, hm]; rfl⟩

/-! ## Following a path -/

theorem ensures_incrUser {creator : Str} {i : ℤ} {Q : ℤ → St → Prop}
    (hQ : ∀ count perUser, Q count { s with perUser := perUser }) :
    Ensures (incrUser creator i) s Q :=
  ⟨_, _, rfl, hQ _ _⟩

theorem ensures_debit {Q : Bool → St → Prop}
    (hQ : ∀ ok perUser, Q ok { s with perUser := perUser }) : Ensures (debit cfg cc) s Q := by
  refine .bind (ensures_incrUser fun count perUser ↦ ?_)
  split
  · exact .bind (ensures_incrUser fun _ _ ↦ .pure (hQ false _))
  · exact .pure (hQ true _)

/-- The caller may pass every node above a path. -/
def Passed (cfg : Config) (cc : CallContext) (t : Table Path Node) (p : Path) : Prop :=
  ∀ q, q <+: p → q ≠ p → ∃ n, AList.lookup q t = some n ∧ n.satisfies cfg cc traverseTags = true

theorem Passed.keeps (h : Passed cfg cc t p) (hkeeps : Keeps t t') :
    Passed cfg cc t' p := by
  intro q hle hne
  obtain ⟨n, hn, hsat⟩ := h q hle hne
  obtain ⟨n', hn', hlike⟩ := hkeeps.keep hn
  exact ⟨n', hn', (hlike.satisfies _).trans hsat⟩

theorem Passed.append (h : Passed cfg cc t p)
    (hn : t.lookup p = some n) (hsat : n.satisfies cfg cc traverseTags = true) (e : Str) :
    Passed cfg cc t (p ++ [e]) := by
  intro q hle hne
  have hle' : q <+: p := by
    rcases prefix_concat_iff.mp hle with heq | hle'
    · exact absurd heq hne
    · exact hle'
  by_cases heq : q = p
  · exact ⟨n, heq ▸ hn, hsat⟩
  · exact h q hle' heq

/-- What `walk` finds, and which locks it holds then. -/
def Found (cfg : Config) (cc : CallContext) (elems : Path) (s : St) :
    Except MtError (Option (Path × List Str)) → Prop
  | .ok (some (p, rest)) =>
    Locked p s ∧ (AList.lookup p s.nodes).isSome ∧ p ++ rest = elems ∧ Passed cfg cc s.nodes p
  | _ => s.held = ∅

theorem ensures_makeChild (cfg : Config) (cc : CallContext) (h : Rooted s.nodes)
    (hp : (s.nodes.lookup p).isSome)
    (hnone : ¬(s.nodes.lookup (p ++ [e])).isSome) (hheld : s.held = {some p}) :
    Ensures (makeChild cfg cc p e) s fun _ s' ↦ Follows true s s' ∧ Locked (p ++ [e]) s' ∧
      (s'.nodes.lookup (p ++ [e])).isSome := by
  obtain ⟨n, hn⟩ := isSome_iff_exists.mp hp
  have hlike : n.Like { n with childrenMade := true } :=
    ⟨rfl, (Node.Like.refl n).servers, rfl, rfl, rfl, rfl⟩
  obtain ⟨hstep, hkeeps⟩ := Step.put true h hn hlike
  have hnone' : AList.lookup (p ++ [e])
      (AList.insert p { n with childrenMade := true } s.nodes) = none := by
    rw [AList.lookup_insert_ne (by simp)]
    exact not_isSome_iff_eq_none.mp hnone
  obtain ⟨hstep', hkeeps'⟩ :=
    Step.add (n := newChild cfg cc n e) hstep.rooted (hkeeps.isSome hp) hnone' rfl rfl
  refine .bind (ensures_getNode hn (.bind (ensures_putNode (.bind ?_))))
  refine .bind (ensures_getNode (AList.lookup_insert _) ?_)
  refine ensures_putNode (ensures_lock_child hheld ?_)
  rintro s' rfl
  exact ⟨⟨hstep.trans hstep', hkeeps.trans hkeeps', rfl, rfl⟩, rfl,
    isSome_of_eq_some (AList.lookup_insert _)⟩

theorem ensures_walk (cfg : Config) (cc : CallContext) (elems : List Str) (h : Rooted s.nodes)
    (hp : (s.nodes.lookup p).isSome) (hlocked : Locked p s) (hpassed : Passed cfg cc s.nodes p) :
    Ensures (walk cfg cc p elems) s fun r s' ↦ Follows cc.create s s' ∧
      Found cfg cc (p ++ elems) s' r := by
  induction elems generalizing s p with
  | nil => exact .pure ⟨.refl h, hlocked, hp, rfl, hpassed⟩
  | cons e elems ih =>
    obtain ⟨n, hn⟩ := isSome_iff_exists.mp hp
    -- what is found from the child on is what is found from here on
    have hdown {s₁ : St} (hfol : Follows cc.create s s₁) (hlocked₁ : Locked (p ++ [e]) s₁)
        (hchild : (s₁.nodes.lookup (p ++ [e])).isSome)
        (hpassed₁ : Passed cfg cc s₁.nodes (p ++ [e])) :
        Ensures (walk cfg cc (p ++ [e]) elems) s₁ fun r s' ↦ Follows cc.create s s' ∧
          Found cfg cc (p ++ e :: elems) s' r := by
      refine (ih hfol.step.rooted hchild hlocked₁ hpassed₁).mono ?_
      rintro r s' ⟨hfol', hfound⟩
      rw [append_assoc, singleton_append] at hfound
      exact ⟨hfol.trans hfol', hfound⟩
    refine .bind (ensures_getNode hn ?_)
    split
    · next hsat =>
      refine .bind ((ensures_isActive cc.create h hn).mono ?_)
      rintro active s₁ ⟨hfol, hheld, -⟩
      obtain ⟨n₁, hn₁, hlike⟩ := hfol.keeps.keep hn
      have hlocked₁ : Locked p s₁ := hheld.trans hlocked
      have hpassed₁ := hpassed.keeps hfol.keeps
      have hpassed₂ := hpassed₁.append hn₁ ((hlike.satisfies _).trans hsat) e
      split
      · exact .pure ⟨hfol, hlocked₁, isSome_of_eq_some hn₁, rfl, hpassed₁⟩
      · refine .bind (.get ?_)
        split
        · next hchild =>
          refine .bind (hlocked₁.ensures_unlock_parent ?_)
          refine .bind (ensures_lock_child rfl ?_)
          rintro s₂ rfl
          exact hdown { hfol with } rfl hchild hpassed₂
        · next hchild =>
          split
          · next hcreate =>
            refine .bind (hlocked₁.ensures_unlock_parent ?_)
            split
            · exact .bind (ensures_unlock_last rfl (.pure ⟨{ hfol with }, rfl⟩))
            · refine .bind (ensures_debit fun ok perUser ↦ ?_)
              split
              · refine .bind (.mono (ensures_makeChild cfg cc ?_ ?_ ?_ ?_) ?_)
                · exact hfol.step.rooted
                · exact isSome_of_eq_some hn₁
                · exact hchild
                · rfl
                rintro _ s₂ ⟨hfol₂, hlocked₂, hchild₂⟩
                rw [← hcreate] at hfol₂
                exact hdown (hfol.trans { hfol₂ with })
                  hlocked₂ hchild₂ (hpassed₂.keeps hfol₂.keeps)
              · exact .bind (ensures_unlock_last rfl (.pure ⟨{ hfol with }, rfl⟩))
          · exact .bind (hlocked₁.ensures_release (.pure ⟨{ hfol with }, rfl⟩))
    · exact .bind (hlocked.ensures_release (.pure ⟨{ Follows.refl h with }, rfl⟩))

theorem passed_nil (t : Table Path Node) : Passed cfg cc t [] := by
  intro q hle hne
  exact absurd (prefix_nil.mp hle) hne

theorem ensures_traverse (cfg : Config) (cc : CallContext) (elems : List Str) (h : Rooted s.nodes)
    (hfree : s.held = ∅) :
    Ensures (traverse cfg cc elems) s fun r s' ↦ Follows cc.create s s' ∧
    Found cfg cc elems s' r := by
  refine .bind (ensures_lock (by rw [hfree]; simp) ?_)
  refine .bind (ensures_lock (by rw [hfree]; simp [parentLock]) ?_)
  refine .mono (ensures_walk cfg cc elems h h.root ?_ (passed_nil _)) ?_
  · rw [Locked, hfree]
    rfl
  · rintro r s' ⟨hfol, hfound⟩
    exact ⟨{ hfol with }, hfound⟩

/-- What `findNode` finds, and which locks it holds then. -/
def FoundNode (cfg : Config) (cc : CallContext) (elems : Path) (s : St) :
    Except MtError (Option Path) → Prop
  | .ok (some p) =>
    Locked p s ∧ p = elems ∧ (AList.lookup p s.nodes).isSome ∧ Passed cfg cc s.nodes p
  | _ => s.held = ∅

theorem ensures_parentSatisfies (tags : List Tag) (h : Rooted s.nodes)
    (hp : (s.nodes.lookup p).isSome) {Q : Bool → St → Prop} (hQ : ∀ b, Q b s) :
    Ensures (parentSatisfies cfg cc tags p) s Q := by
  rw [parentSatisfies]
  split
  · exact .pure (hQ _)
  · next hne =>
    rw [← dropLast_append_getLast hne] at hp
    obtain ⟨n, hn⟩ := isSome_iff_exists.mp (h.parent hp)
    exact .bind (ensures_getNode hn (.pure (hQ _)))

theorem ensures_findNode (cfg : Config) (cc : CallContext) (elems : List Str)
    (tags ptags : Option (List Tag)) (h : Rooted s.nodes) (hfree : s.held = ∅) :
    Ensures (findNode cfg cc elems tags ptags) s fun r s' ↦ Follows cc.create s s' ∧
      FoundNode cfg cc elems s' r := by
  refine .bind ((ensures_traverse cfg cc elems h hfree).mono ?_)
  rintro r s₁ ⟨hfol, hfound⟩
  have hreleased {r : Except MtError (Option Path)} (hr : ∀ p, r ≠ .ok (some p)) {p : Path}
      (hlocked : Locked p s₁) : Ensures (do release p; pure r) s₁ fun r s' ↦
        Follows cc.create s s' ∧ FoundNode cfg cc elems s' r := by
    refine .bind (hlocked.ensures_release (.pure ⟨{ hfol with }, ?_⟩))
    match r, hr with
    | .error _, _ => rfl
    | .ok none, _ => rfl
    | .ok (some p), hr => exact absurd rfl (hr p)
  split
  · exact .pure ⟨hfol, hfound⟩
  · exact .pure ⟨hfol, hfound⟩
  · obtain ⟨hlocked, hp, helems, hpassed⟩ := hfound
    rw [append_nil] at helems
    obtain ⟨n, hn⟩ := isSome_iff_exists.mp hp
    refine .bind (ensures_getNode hn ?_)
    split
    · exact .pure ⟨hfol, hlocked, helems, hp, hpassed⟩
    · split
      · exact hreleased (by rintro _ ⟨⟩) hlocked
      · refine .bind (ensures_parentSatisfies _ hfol.step.rooted hp fun b ↦ ?_)
        split
        · exact .pure ⟨hfol, hlocked, helems, hp, hpassed⟩
        · exact hreleased (by rintro _ ⟨⟩) hlocked
  · exact hreleased (by rintro _ ⟨⟩) hfound.1

/-! ## Removing nodes -/

/-- A node is gone with all that is below it. -/
def Pruned (first : Path) (t t' : Table Path Node) : Prop :=
  ∀ q, AList.lookup q t' = if first <+: q then none else AList.lookup q t

theorem Rooted.lookup_of_prefix (h : Rooted t) (hle : p <+: q)
    (hq : (t.lookup q).isSome) : (t.lookup p).isSome := by
  obtain ⟨xs, rfl⟩ := hle
  induction xs using reverseRecOn with
  | nil => rwa [append_nil] at hq
  | append_singleton xs x ih =>
    rw [← append_assoc] at hq
    exact ih (h.parent hq)

theorem Rooted.pruned (h : Rooted t) (hne : first ≠ [])
    (hpruned : Pruned first t t') : Rooted t' where
  root := by
    rw [hpruned, if_neg fun hle ↦ hne (prefix_nil.mp hle)]
    exact h.root
  parent {p e} hp := by
    rw [hpruned] at hp
    split at hp
    · exact nomatch hp
    · next hnot =>
      rw [hpruned, if_neg fun hle ↦ hnot (hle.trans (prefix_append p [e]))]
      exact h.parent hp

theorem ensures_deleteNode {child : Str} (h : Rooted s.nodes)
    (hheld : ∀ q, p ++ [child] <+: q → q ≠ p ++ [child] → some q ∉ s.held) :
    Ensures (deleteNode p child) s fun _ s' ↦ Pruned (p ++ [child]) s.nodes s'.nodes ∧ Quiet s s' ∧
      s'.held = s.held ∧ s'.clock = s.clock := by
  refine .bind (.get ?_)
  split
  · next hfirst =>
    refine .bind (.mono (.forM ?_ rfl) ?_)
    · rintro q hq t rfl
      rw [mem_filter, mem_filter] at hq
      have hle : p ++ [child] <+: q := by simpa using hq.1.2
      have hnot := hheld q hle (by simpa using hq.2)
      refine .bind (ensures_lock hnot (ensures_unlock (by simp) ?_))
      rw [Finset.erase_insert hnot]
    rintro _ _ rfl
    refine .bind (.mono
      (.forM (I := fun t ↦ ∃ perUser, t = { s with perUser := perUser }) ?_ ⟨_, rfl⟩) ?_)
    · rintro q hq t ⟨perUser, rfl⟩
      obtain ⟨n, hn⟩ := mem_keys_iff.mp (mem_filter.mp hq).1
      refine .bind (ensures_getNode hn ?_)
      exact .bind (ensures_incrUser fun _ _ ↦ .pure ⟨_, rfl⟩)
    rintro _ _ ⟨perUser, rfl⟩
    refine .modify ⟨fun q ↦ ?_, ⟨rfl, rfl⟩, rfl, rfl⟩
    rw [lookup_foldl_erase]
    simp only [mem_filter, isPrefixOf_iff_prefix]
    by_cases hle : p ++ [child] <+: q
    · rw [if_pos hle]
      split
      · rfl
      · next hnot =>
        rw [lookup_eq_none_iff]
        exact fun hmem ↦ hnot ⟨hmem, hle⟩
    · rw [if_neg hle, if_neg fun hmem ↦ hle hmem.2]
  · next hfirst =>
    refine .pure ⟨fun q ↦ ?_, ⟨rfl, rfl⟩, rfl, rfl⟩
    split
    · next hle =>
      by_contra hne
      exact hfirst (h.lookup_of_prefix hle (isSome_iff_ne_none.mpr hne))
    · rfl

theorem childNames_eq_nil_iff : childNames t p = [] ↔ ∀ e, t.lookup (p ++ [e]) = none := by
  rw [childNames, filterMap_eq_nil_iff]
  constructor
  · intro h e
    rw [lookup_eq_none_iff]
    intro hmem
    have := h _ hmem
    simp at this
  · intro h q hq
    rcases eq_nil_or_concat q with rfl | ⟨q, e, rfl⟩
    · simp
    · rw [concat_eq_append] at hq ⊢
      rw [if_neg]
      rintro ⟨-, hp⟩
      rw [dropLast_concat] at hp
      subst hp
      exact lookup_eq_none_iff.mp (h e) hq

theorem mem_childNames_iff : e ∈ childNames t p ↔ (t.lookup (p ++ [e])).isSome := by
  rw [childNames, mem_filterMap, isSome_iff_exists, ← mem_keys_iff]
  constructor
  · rintro ⟨q, hq, hlast⟩
    split at hlast
    · next hp =>
      obtain ⟨q, rfl⟩ := getLast?_eq_some_iff.mp hlast
      rw [dropLast_concat] at hp
      exact hp.2 ▸ hq
    · exact nomatch hlast
  · intro hmem
    exact ⟨p ++ [e], hmem, by simp⟩

theorem nodup_childNames (t : Table Path Node) (p : Path) : (childNames t p).Nodup := by
  refine List.Nodup.filterMap (fun q q' e he he' ↦ ?_) t.keys_nodup
  split at he
  · next hp =>
    split at he'
    · next hp' =>
      obtain ⟨r, rfl⟩ := getLast?_eq_some_iff.mp he
      obtain ⟨r', rfl⟩ := getLast?_eq_some_iff.mp he'
      rw [dropLast_concat] at hp hp'
      rw [hp.2, hp'.2]
    · exact nomatch he'
  · exact nomatch he

/-- A node without children and permissions of its own goes. -/
theorem Step.pruned (h : Rooted t) (hne : first ≠ [])
    (hpruned : Pruned first t t') (hleaf : childNames t first = [])
    (hexp : ∀ n, t.lookup first = some n → n.explicitPermissions = false) : Step false t t' where
  rooted := h.pruned hne hpruned
  comes {q n'} hq := by
    rw [hpruned] at hq
    split at hq
    · exact nomatch hq
    · exact .inl ⟨n', hq, Node.Like.refl n'⟩
  stays {q n} hq hexpq := by
    refine ⟨n, ?_, Node.Like.refl n⟩
    rw [hpruned, if_neg ?_]
    · exact hq
    · rintro ⟨xs, rfl⟩
      cases xs with
      | nil =>
        rw [append_nil] at hq
        rw [hexp n hq] at hexpq
        exact nomatch hexpq
      | cons x xs =>
        have hchild := h.lookup_of_prefix (p := first ++ [x]) ⟨xs, by simp⟩ (isSome_of_eq_some hq)
        rw [childNames_eq_nil_iff.mp hleaf x] at hchild
        exact nomatch hchild

/-- A node without children, servers and permissions of its own. -/
def useless (t : Table Path Node) (now : ℤ) (p : Path) (n : Node) : Bool :=
  (childNames t p).isEmpty && !n.activeAt now && !n.explicitPermissions

/-- What is below a node is not locked. -/
theorem Locked.not_mem_of_below (h : Locked (p ++ [e]) s) (hle : p ++ [e] <+: q)
    (hne : q ≠ p ++ [e]) : some q ∉ s.held := by
  rw [h, parentLock_append, Finset.mem_insert, Finset.mem_singleton, not_or, some.injEq, some.injEq]
  refine ⟨hne, ?_⟩
  rintro rfl
  exact absurd hle.length_le (by simp)

theorem ensures_removeUseless (h : Rooted s.nodes) (hn : s.nodes.lookup p = some n)
    (hlocked : Locked p s) :
    Ensures (removeUseless p) s fun r s' ↦ Step false s.nodes s'.nodes ∧ Quiet s s' ∧
      s'.held = s.held ∧ r = useless s.nodes (s.clock 0) p n ∧
      (r = false ∨ p = [] → Keeps s.nodes s'.nodes) ∧ KeepsOutside p s.nodes s'.nodes := by
  refine .bind (.get ?_)
  split
  · next hchildren =>
    refine .pure ⟨Step.refl h, ⟨rfl, rfl⟩, rfl, ?_, fun _ ↦ Keeps.refl _, (Keeps.refl _).outside p⟩
    rw [useless]
    simp_all
  · next hchildren =>
    have hleaf : (childNames s.nodes p).isEmpty = true := by simpa using hchildren
    refine .bind ((ensures_isActive false h hn).mono ?_)
    rintro active s₁ ⟨⟨hstep, hkeeps, hquiet⟩, hheld, rfl⟩
    obtain ⟨n₁, hn₁, hlike⟩ := hkeeps.keep hn
    split
    · next hactive =>
      exact .pure ⟨hstep, hquiet, hheld, by rw [useless, hactive]; simp, fun _ ↦ hkeeps,
        hkeeps.outside p⟩
    · next hactive =>
      refine .bind (ensures_getNode hn₁ ?_)
      split
      · next hexp =>
        rw [hlike.explicitPermissions] at hexp
        exact .pure ⟨hstep, hquiet, hheld, by rw [useless, hexp]; simp, fun _ ↦ hkeeps,
          hkeeps.outside p⟩
      · next hexp =>
        rw [hlike.explicitPermissions] at hexp
        have huseless : true = useless s.nodes (s.clock 0) p n := by
          rw [useless, hleaf]
          simp_all
        split
        · exact .pure ⟨hstep, hquiet, hheld, huseless, fun _ ↦ hkeeps, hkeeps.outside p⟩
        · next child hchild =>
          obtain ⟨q, rfl⟩ := getLast?_eq_some_iff.mp hchild
          have hlocked₁ : Locked (q ++ [child]) s₁ := hheld.trans hlocked
          rw [dropLast_concat]
          refine .bind ((ensures_deleteNode hstep.rooted fun _ ↦ hlocked₁.not_mem_of_below).mono ?_)
          rintro _ s₂ ⟨hpruned, hquiet₂, hheld₂, -⟩
          refine .pure ⟨?_, hquiet.trans hquiet₂, hheld₂.trans hheld, huseless, ?_, ?_⟩
          · refine hstep.trans (Step.pruned hstep.rooted (by simp) hpruned ?_ fun m hm ↦ ?_)
            · rw [childNames_eq_nil_iff]
              intro e
              by_contra hne
              obtain ⟨m, hm⟩ := ne_none_iff_exists'.mp hne
              rcases hstep.comes hm with ⟨m₀, hm₀, -⟩ | ⟨hfalse, -⟩
              · rw [childNames_eq_nil_iff.mp (isEmpty_iff.mp hleaf) e] at hm₀
                exact nomatch hm₀
              · exact nomatch hfalse
            · rw [hn₁] at hm
              obtain rfl := some.inj hm
              rw [hlike.explicitPermissions]
              simpa using hexp
          · rintro (h | h)
            · exact nomatch h
            · simp at h
          · refine (hkeeps.outside _).trans ⟨fun hnot hq ↦ ⟨_, ?_, Node.Like.refl _⟩⟩
            rw [hpruned, if_neg hnot]
            exact hq

theorem ensures_removeUselessRecursive (hcreate : cc.create = false) (elems : List Str) (i : ℕ)
    (h : Rooted s.nodes) (hfree : s.held = ∅) :
    Ensures (removeUselessRecursive cfg cc elems i) s fun _ s' ↦ Step false s.nodes s'.nodes ∧
      Quiet s s' ∧ s'.held = ∅ := by
  induction i generalizing s with
  | zero => exact .pure ⟨Step.refl h, ⟨rfl, rfl⟩, hfree⟩
  | succ i ih =>
    refine .bind ((ensures_traverse cfg cc (elems.take (i + 1)) h hfree).mono ?_)
    rintro r s₁ ⟨⟨hstep, -, hquiet⟩, hfound⟩
    rw [hcreate] at hstep
    split
    · obtain ⟨hlocked, hp, -, -⟩ := hfound
      obtain ⟨n, hn⟩ := isSome_iff_exists.mp hp
      refine .bind ((ensures_removeUseless hstep.rooted hn hlocked).mono ?_)
      rintro removed s₂ ⟨hstep₂, hquiet₂, hheld₂, -, -, -⟩
      have hlocked₂ : Locked _ s₂ := hheld₂.trans hlocked
      refine .bind (hlocked₂.ensures_release ?_)
      split
      · refine .mono (ih ?_ rfl) ?_
        · exact hstep₂.rooted
        rintro _ s₃ ⟨hstep₃, hquiet₃, hheld₃⟩
        exact ⟨(hstep.trans hstep₂).trans hstep₃, (hquiet.trans hquiet₂).trans hquiet₃, hheld₃⟩
      · exact .pure ⟨hstep.trans hstep₂, hquiet.trans hquiet₂, rfl⟩
    · exact hfound.1.ensures_release ⟨hstep, hquiet, rfl⟩
    · next hnone hsome =>
      refine .pure ⟨hstep, hquiet, ?_⟩
      match r, hfound with
      | .error _, hfound => exact hfound
      | .ok none, hfound => exact hfound
      | .ok (some (p, [])), _ => exact absurd rfl (hnone p)
      | .ok (some (p, e :: es)), _ => exact absurd rfl (hsome p e es)

/-- What `findMountPoint` finds, and which locks it holds then. -/
def FoundMountPoint (cfg : Config) (cc : CallContext) (elems : Path) (s : St) :
    Except MtError (Option (Path × List Str)) → Prop
  | .ok (some (p, rest)) =>
    Locked p s ∧ p ++ rest = elems ∧ Passed cfg cc s.nodes p ∧
      ∃ n, AList.lookup p s.nodes = some n ∧ n.mount.isSome ∧ n.satisfies cfg cc resolveTags = true
  | _ => s.held = ∅

theorem ensures_findMountPoint (hcreate : cc.create = false) (elems : List Str) (h : Rooted s.nodes)
    (hfree : s.held = ∅) :
    Ensures (findMountPoint cfg cc elems) s fun r s' ↦ Step false s.nodes s'.nodes ∧ Quiet s s' ∧
      FoundMountPoint cfg cc elems s' r := by
  refine .bind ((ensures_traverse cfg cc elems h hfree).mono ?_)
  rintro r s₁ ⟨⟨hstep, -, hquiet⟩, hfound⟩
  rw [hcreate] at hstep
  split
  · exact .pure ⟨hstep, hquiet, hfound⟩
  · exact .pure ⟨hstep, hquiet, hfound⟩
  · obtain ⟨hlocked, hp, helems, hpassed⟩ := hfound
    obtain ⟨n, hn⟩ := isSome_iff_exists.mp hp
    refine .bind (ensures_getNode hn ?_)
    split
    · next hsat =>
      refine .bind ((ensures_isActive false hstep.rooted hn).mono ?_)
      rintro active s₂ ⟨⟨hstep₂, hkeeps₂, hquiet₂⟩, hheld₂, hactive⟩
      obtain ⟨n₂, hn₂, hlike⟩ := hkeeps₂.keep hn
      have hlocked₂ : Locked _ s₂ := hheld₂.trans hlocked
      split
      · next htrue =>
        refine .pure ⟨hstep.trans hstep₂, hquiet.trans hquiet₂, hlocked₂, helems,
          hpassed.keeps hkeeps₂, n₂, hn₂, ?_, (hlike.satisfies _).trans hsat⟩
        rw [hlike.mount]
        rw [htrue, Node.activeAt] at hactive
        exact isSome_of_any hactive.symm
      · refine .bind ((ensures_removeUseless hstep₂.rooted hn₂ hlocked₂).mono ?_)
        rintro removed s₃ ⟨hstep₃, hquiet₃, hheld₃, -, -, -⟩
        have hlocked₃ : Locked _ s₃ := hheld₃.trans hlocked₂
        have hstep₀ := (hstep.trans hstep₂).trans hstep₃
        have hquiet₀ := (hquiet.trans hquiet₂).trans hquiet₃
        refine .bind (hlocked₃.ensures_release ?_)
        split
        · refine .bind ((ensures_removeUselessRecursive hcreate _ _ ?_ rfl).mono ?_)
          · exact hstep₃.rooted
          rintro _ s₄ ⟨hstep₄, hquiet₄, hheld₄⟩
          exact .pure ⟨hstep₀.trans hstep₄, hquiet₀.trans hquiet₄, hheld₄⟩
        · exact .pure ⟨hstep₀, hquiet₀, rfl⟩
    · exact .bind (hlocked.ensures_release (.pure ⟨hstep, hquiet, rfl⟩))

end Vanadium.MountTable
