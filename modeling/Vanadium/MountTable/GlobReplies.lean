import Vanadium.MountTable.Following

/-!
# What a glob visits and replies

`globStep` is called with a node and its parent locked and returns with both unlocked. It visits the
children that were there when it came to the node; what it removes on the way is below the child
that it visits, so that the others are still there. The recursion ends because paths get longer.

Every reply is about a node that may be shown: the caller may pass everything above it and has some
access to it, and servers are listed only if the caller may resolve it (`Shown`). There is one
exception, the node at which the glob starts, if it has a mount.
-/

namespace Vanadium.MountTable

open Foundations Program List
open Option hiding any_eq_true

variable {cfg : Config} {cc : CallContext} {γ : Type} {gl : GlobLib γ} {s s' : St} {p q : Path}
  {t t' : Table Path Node} {n : Node} {pattern : γ} {P : Reply → Prop} {name : Str} {fuel : ℕ}
  {r : Reply}

/-- A reply that discloses only what the caller may see. -/
structure Shown (cfg : Config) (cc : CallContext) (t : Table Path Node) (r : Reply) : Prop where
  passed : Passed cfg cc t r.node
  node : ∃ n, AList.lookup r.node t = some n ∧ n.satisfies cfg cc allTags = true ∧
    (r.entry.servers ≠ [] → n.satisfies cfg cc resolveTags = true)

theorem Passed.of_step (hstep : Step false t t') (h : Passed cfg cc t' p) : Passed cfg cc t p := by
  intro q hle hne
  obtain ⟨n', hn', hsat⟩ := h q hle hne
  rcases hstep.comes hn' with ⟨n, hn, hlike⟩ | ⟨hfalse, -⟩
  · exact ⟨n, hn, (hlike.satisfies _).symm.trans hsat⟩
  · exact nomatch hfalse

theorem Shown.of_create {create : Bool}
    (h : Shown cfg { cc with create := create } t r) : Shown cfg cc t r :=
  ⟨h.passed, h.node⟩

theorem Shown.of_step (hstep : Step false t t') (h : Shown cfg cc t' r) :
    Shown cfg cc t r := by
  obtain ⟨n', hn', hall, hres⟩ := h.node
  rcases hstep.comes hn' with ⟨n, hn, hlike⟩ | ⟨hfalse, -⟩
  · exact ⟨h.passed.of_step hstep, n, hn, (hlike.satisfies _).symm.trans hall,
      fun hne ↦ (hlike.satisfies _).symm.trans (hres hne)⟩
  · exact nomatch hfalse

/-- What is removed is not on the way to the node. -/
theorem Passed.of_keepsOutside (hkeeps : KeepsOutside q t t')
    (hnot : ∀ ⦃r⦄, r <+: p → r ≠ p → ¬q <+: r) (h : Passed cfg cc t p) : Passed cfg cc t' p := by
  intro r hle hne
  obtain ⟨m, hm, hsat⟩ := h r hle hne
  obtain ⟨m', hm', hlike⟩ := hkeeps.keep (hnot hle hne) hm
  exact ⟨m', hm', (hlike.satisfies _).trans hsat⟩

/-- Some replies are sent. -/
def Sends (P : Reply → Prop) (s s' : St) : Prop :=
  s'.log = s.log ∧ ∃ new, s'.replies = s.replies ++ new ∧ ∀ r ∈ new, P r

theorem Quiet.sends (h : Quiet s s') : Sends P s s' :=
  ⟨h.1, [], by rw [h.2, append_nil], nofun⟩

theorem Sends.trans {s'' : St} (h : Sends P s s') (h' : Sends P s' s'') :
    Sends P s s'' := by
  obtain ⟨hlog, new, hnew, hP⟩ := h
  obtain ⟨hlog', new', hnew', hP'⟩ := h'
  refine ⟨hlog'.trans hlog, new ++ new', by rw [hnew', hnew, append_assoc], fun r hr ↦ ?_⟩
  rcases mem_append.mp hr with hr | hr
  · exact hP r hr
  · exact hP' r hr

theorem Sends.mono {P P' : Reply → Prop} (h : Sends P s s') (hP : ∀ r, P r → P' r) :
    Sends P' s s' := by
  obtain ⟨hlog, new, hnew, hall⟩ := h
  exact ⟨hlog, new, hnew, fun r hr ↦ hP r (hall r hr)⟩

theorem ensures_send {entry : MountEntry} {Q : Unit → St → Prop}
    (hQ : Q () { s with replies := s.replies ++ [⟨p, entry⟩] }) : Ensures (send p entry) s Q :=
  .modify hQ

/-- What a visit of a node does: no locks are left, only nodes below are removed, and replies are
sent that may be shown, if a condition holds. -/
def Visited (cfg : Config) (cc : CallContext) (p : Path) (cond : Prop) (s s' : St) : Prop :=
  Step false s.nodes s'.nodes ∧ KeepsOutside p s.nodes s'.nodes ∧ s'.held = ∅ ∧
    Sends (fun r ↦ cond → Shown cfg cc s.nodes r) s s'

/-- A visit that comes after others below the same node. -/
theorem Visited.after {s₁ : St} {cond : Prop} (hstep : Step false s.nodes s₁.nodes)
    (houtside : KeepsOutside p s.nodes s₁.nodes) (hsends : Sends (Shown cfg cc s.nodes) s s₁)
    (h : Visited cfg cc p cond s₁ s') : Visited cfg cc p cond s s' := by
  obtain ⟨hstep', houtside', hheld, hsends'⟩ := h
  refine ⟨hstep.trans hstep', houtside.trans houtside', hheld, ?_⟩
  exact (hsends.mono fun r hr _ ↦ hr).trans (hsends'.mono fun r hr hcond ↦ (hr hcond).of_step hstep)

theorem Visited.weaken {cond cond' : Prop} (hcond : cond' → cond) (h : Visited cfg cc p cond s s') :
    Visited cfg cc p cond' s s' := by
  obtain ⟨hstep, houtside, hheld, hsends⟩ := h
  exact ⟨hstep, houtside, hheld, hsends.mono fun r hr hcond' ↦ hr (hcond hcond')⟩

theorem ensures_globOut (pattern : γ) (name : Str) (h : Rooted s.nodes)
    (hp : (s.nodes.lookup p).isSome) (hlocked : Locked p s) (hpassed : Passed cfg cc s.nodes p) :
    Ensures (globOut cfg cc gl p name pattern) s fun _ ↦ Visited cfg cc p True s := by
  obtain ⟨n, hn⟩ := isSome_iff_exists.mp hp
  refine .bind ((ensures_removeUseless h hn hlocked).mono ?_)
  rintro removed s₁ ⟨hstep, hquiet, hheld, -, hkeeps, houtside⟩
  have hlocked₁ : Locked p s₁ := hheld.trans hlocked
  split
  · exact hlocked₁.ensures_release ⟨hstep, houtside, rfl, hquiet.sends⟩
  · next hnot =>
    have hremoved : removed = false := by
      rw [Bool.or_eq_true, not_or, Bool.not_eq_true] at hnot
      exact hnot.1
    obtain ⟨n₁, hn₁, hlike⟩ := (hkeeps (.inl hremoved)).keep hn
    refine .bind (hlocked₁.ensures_unlock_parent ?_)
    refine .bind (ensures_getNode hn₁ ?_)
    refine .bind (ensures_unlock_last rfl ?_)
    split
    · next hall =>
      refine ensures_send ⟨hstep, houtside, rfl, hquiet.sends.trans ⟨rfl, _, rfl, fun r hr _ ↦ ?_⟩⟩
      rw [mem_singleton.mp hr]
      exact ⟨hpassed, n, hn, (hlike.satisfies _).symm.trans hall, fun hne ↦ absurd rfl hne⟩
    · exact .pure ⟨hstep, houtside, rfl, hquiet.sends⟩

theorem ensures_globMount (name : Str) (h : Rooted s.nodes) (hn : s.nodes.lookup p = some n)
    (hm : n.mount.isSome) (hlocked : Locked p s) (hpassed : Passed cfg cc s.nodes p) :
    Ensures (globMount cfg cc p name) s fun _ s' ↦
      Visited cfg cc p
        (useless s.nodes (s.clock 0) p n = true ∨ n.satisfies cfg cc allTags = true) s s' ∧
      (useless s.nodes (s.clock 0) p n = false → ∃ r, s'.replies = s.replies ++ [r] ∧
        r.node = p) := by
  refine .bind ((ensures_removeUseless h hn hlocked).mono ?_)
  rintro removed s₁ ⟨hstep, hquiet, hheld, rfl, hkeeps, houtside⟩
  have hlocked₁ : Locked p s₁ := hheld.trans hlocked
  split
  · next huseless =>
    exact hlocked₁.ensures_release ⟨⟨hstep, houtside, rfl, hquiet.sends⟩, by simp [huseless]⟩
  · next hnot =>
    obtain ⟨n₁, hn₁, hlike⟩ := (hkeeps (.inl (Bool.eq_false_of_not_eq_true hnot))).keep hn
    refine .bind (hlocked₁.ensures_unlock_parent ?_)
    refine .bind (ensures_getNode hn₁ ?_)
    split
    · next hnone =>
      rw [← hlike.mount, hnone] at hm
      exact nomatch hm
    · next m hsome =>
      refine .bind (ensures_unlock_last rfl ?_)
      split
      · next hres =>
        refine ensures_send ⟨⟨hstep, houtside, rfl,
          hquiet.sends.trans ⟨rfl, _, rfl, fun r hr hall ↦ ?_⟩⟩,
            fun _ ↦ ⟨_, congrArg (· ++ [_]) hquiet.2, rfl⟩⟩
        rw [mem_singleton.mp hr]
        exact ⟨hpassed, n, hn, hall.resolve_left hnot, fun _ ↦ (hlike.satisfies _).symm.trans hres⟩
      · refine ensures_send ⟨⟨hstep, houtside, rfl,
          hquiet.sends.trans ⟨rfl, _, rfl, fun r hr hall ↦ ?_⟩⟩,
            fun _ ↦ ⟨_, congrArg (· ++ [_]) hquiet.2, rfl⟩⟩
        rw [mem_singleton.mp hr]
        exact ⟨hpassed, n, hn, hall.resolve_left hnot, fun hne ↦ absurd rfl hne⟩

/-- What visits of the children of a node do. The node stays, and is locked again. -/
theorem ensures_globChildren {step : Path → Str → M Unit} {ks : List Str}
    {L : ℕ} (hks : ks.Nodup) (h : Rooted s.nodes) (hn : s.nodes.lookup p = some n)
    (hchildren : ∀ k ∈ ks, (s.nodes.lookup (p ++ [k])).isSome) (hheld : s.held = {some p})
    (hpassed : Passed cfg cc s.nodes p) (hsat : n.satisfies cfg cc traverseTags = true)
    (hlength : ∀ q, (s.nodes.lookup q).isSome → q.length < L)
    (hstep : ∀ (t : St) (k name : Str) (m : Node), Rooted t.nodes →
      t.nodes.lookup (p ++ [k]) = some m → Locked (p ++ [k]) t →
      Passed cfg cc t.nodes (p ++ [k]) → (∀ q, (t.nodes.lookup q).isSome → q.length < L) →
      m.satisfies cfg cc allTags = true →
      Ensures (step (p ++ [k]) name) t fun _ ↦ Visited cfg cc (p ++ [k]) True t) :
    Ensures (globChildren cfg cc gl step pattern p name ks) s fun aborted s' ↦
      Step false s.nodes s'.nodes ∧ KeepsOutside p s.nodes s'.nodes ∧
      (s'.nodes.lookup p).isSome ∧ s'.held = (if aborted then ∅ else {some p}) ∧
      Sends (Shown cfg cc s.nodes) s s' := by
  induction ks generalizing s n with
  | nil =>
    refine .pure ⟨Step.refl h, (Keeps.refl _).outside p, isSome_of_eq_some hn, hheld, ?_⟩
    exact Quiet.sends ⟨rfl, rfl⟩
  | cons k ks ih =>
    obtain ⟨hk, hks⟩ := nodup_cons.mp hks
    obtain ⟨hchild, hrest⟩ := forall_mem_cons.mp hchildren
    refine .bind (ensures_shouldAbort ?_)
    split
    · refine .bind (ensures_unlock_last hheld (.pure ?_))
      exact ⟨Step.refl h, (Keeps.refl _).outside p, isSome_of_eq_some hn, rfl,
        Quiet.sends ⟨rfl, rfl⟩⟩
    · split
      · obtain ⟨c, hc⟩ := isSome_iff_exists.mp hchild
        refine .bind (ensures_lock_child hheld ?_)
        rintro s₁ rfl
        refine .bind (ensures_getNode hc ?_)
        split
        · next hall =>
          refine .bind (.mono (hstep _ k _ c h hc rfl (hpassed.append hn hsat k) hlength hall) ?_)
          rintro _ s₁ ⟨hstep₁, houtside₁, hheld₁, hsends₁⟩
          -- neither the node nor the other children are below the child
          have hnot : ¬p ++ [k] <+: p := fun hle ↦ absurd hle.length_le (by simp)
          have hnot' {k' : Str} (hk' : k' ∈ ks) : ¬p ++ [k] <+: p ++ [k'] := by
            intro hle
            obtain rfl : k = k' := by simpa using hle.eq_of_length (by simp)
            exact hk hk'
          obtain ⟨n₁, hn₁, hlike⟩ := houtside₁.keep hnot hn
          refine .bind (ensures_lock (by rw [hheld₁]; simp) ?_)
          refine .mono (ih hks ?_ hn₁ ?_ ?_ ?_ ?_ ?_) ?_
          · exact hstep₁.rooted
          · intro k' hk'
            obtain ⟨c', hc'⟩ := isSome_iff_exists.mp (hrest k' hk')
            obtain ⟨c'', hc'', -⟩ := houtside₁.keep (hnot' hk') hc'
            exact isSome_of_eq_some hc''
          · rw [hheld₁]
            rfl
          · exact hpassed.of_keepsOutside houtside₁ fun q hle _ hle' ↦ hnot (hle'.trans hle)
          · exact (hlike.satisfies _).trans hsat
          · intro q hq
            obtain ⟨m', hm'⟩ := isSome_iff_exists.mp hq
            rcases hstep₁.comes hm' with ⟨m, hm, -⟩ | ⟨hfalse, -⟩
            · exact hlength q (isSome_of_eq_some hm)
            · exact nomatch hfalse
          · rintro aborted s₂ ⟨hstep₂, houtside₂, hp₂, hheld₂, hsends₂⟩
            refine ⟨hstep₁.trans hstep₂, ?_, hp₂, hheld₂, ?_⟩
            · refine KeepsOutside.trans ⟨fun hnot hq ↦ houtside₁.keep ?_ hq⟩ houtside₂
              exact fun hle ↦ hnot ((prefix_append p [k]).trans hle)
            · exact (hsends₁.mono fun r hr ↦ hr trivial).trans
                (hsends₂.mono fun r hr ↦ hr.of_step hstep₁)
        · refine .bind (ensures_unlock (Finset.mem_insert_self _ _) ?_)
          refine ih hks h hn hrest ?_ hpassed hsat hlength
          rw [Finset.erase_insert (by simp [parentLock_append]), parentLock_append]
      · exact ih hks h hn hrest hheld hpassed hsat hlength

/-! ## A whole glob -/

/-- A check for a list of tags passes for every list with more. -/
theorem satisfies_of_subset {ts ts' : List Tag} (hts : ts ⊆ ts')
    (h : n.satisfies cfg cc (some ts) = true) : n.satisfies cfg cc (some ts') = true := by
  revert h
  unfold Node.satisfies
  rcases n.vPerms with _ | vPerms
  · exact fun _ ↦ rfl
  · simp only [Bool.or_eq_true, any_eq_true]
    rintro ((h | ⟨tag, htag, h⟩) | h)
    · exact .inl (.inl h)
    · exact .inl (.inr ⟨tag, hts htag, h⟩)
    · exact .inr h

/-- A node with a mount that a glob must not start at. -/
structure Hidden (cfg : Config) (cc : CallContext) (s : St) (p : Path) (n : Node) : Prop where
  mount : n.mount.isSome
  denied : n.satisfies cfg cc allTags = false
  useful : useless s.nodes (s.clock 0) p n = false
  waiting : s.done 0 = false

theorem ensures_globStep (h : Rooted s.nodes) (hn : s.nodes.lookup p = some n)
    (hlocked : Locked p s) (hpassed : Passed cfg cc s.nodes p)
    (hlength : ∀ q, (s.nodes.lookup q).isSome → q.length < fuel + p.length) :
    Ensures (globStep cfg cc gl fuel p name pattern) s fun _ ↦
      Visited cfg cc p (¬Hidden cfg cc s p n) s := by
  induction fuel generalizing s p n pattern name with
  | zero => exact absurd (hlength p (isSome_of_eq_some hn)) (by simp)
  | succ fuel ih =>
    have hout {s₁ : St} (hstep : Step false s.nodes s₁.nodes)
        (houtside : KeepsOutside p s.nodes s₁.nodes) (hp : (s₁.nodes.lookup p).isSome)
        (hsends : Sends (Shown cfg cc s.nodes) s s₁) (hlocked₁ : Locked p s₁) :
        Ensures (globOut cfg cc gl p name pattern) s₁ fun _ ↦
          Visited cfg cc p (¬Hidden cfg cc s p n) s := by
      have hpassed₁ : Passed cfg cc s₁.nodes p :=
        hpassed.of_keepsOutside houtside fun q hle hne hle' ↦
          hne (hle.eq_of_length_le hle'.length_le)
      refine (ensures_globOut pattern name hstep.rooted hp hlocked₁ hpassed₁).mono ?_
      exact fun _ s₂ hvisited ↦ (hvisited.weaken fun _ ↦ trivial).after hstep houtside hsends
    have hp : (s.nodes.lookup p).isSome := isSome_of_eq_some hn
    refine .bind (ensures_shouldAbort ?_)
    split
    · refine Locked.ensures_release ?_ ?_
      · exact hlocked
      · exact ⟨Step.refl h, (Keeps.refl _).outside p, rfl, Quiet.sends ⟨rfl, rfl⟩⟩
    · next hdone =>
      refine .bind (ensures_getNode hn ?_)
      split
      · next hm =>
        refine .mono (ensures_globMount name ?_ hn hm ?_ ?_) ?_
        · exact h
        · exact hlocked
        · exact hpassed
        · rintro _ s₁ ⟨hvisited, -⟩
          refine Visited.weaken (fun hhidden ↦ ?_) hvisited
          by_contra hnot
          rw [not_or, Bool.not_eq_true, Bool.not_eq_true] at hnot
          exact hhidden ⟨hm, hnot.2, hnot.1, Bool.eq_false_of_not_eq_true hdone⟩
      · split
        · exact hout (Step.refl h) ((Keeps.refl _).outside p) hp (Quiet.sends ⟨rfl, rfl⟩) hlocked
        · split
          · next htags =>
            have hsat : n.satisfies cfg cc traverseTags = true := by
              rw [Bool.or_eq_true, Bool.and_eq_true] at htags
              rcases htags with hglob | ⟨htraverse, -⟩
              · exact satisfies_of_subset (by decide) hglob
              · exact htraverse
            refine .bind (.get ?_)
            refine .bind (Locked.ensures_unlock_parent ?_ ?_)
            · exact hlocked
            refine .bind (.mono
              (ensures_globChildren (L := fuel + (p.length + 1)) ?_ ?_ hn ?_ rfl ?_ hsat ?_ ?_) ?_)
            · exact nodup_childNames _ _
            · exact h
            · exact fun k hk ↦ mem_childNames_iff.mp hk
            · exact hpassed
            · intro q hq
              have := hlength q hq
              omega
            · intro t k name m ht hm hlocked' hpassed' hlength' hall
              refine .mono (ih ht hm hlocked' hpassed' ?_) ?_
              · simpa using hlength'
              · refine fun _ _ hvisited ↦ hvisited.weaken fun _ hhidden ↦ ?_
                exact absurd hall (by simp [hhidden.denied])
            · rintro aborted s₁ ⟨hstep, houtside, hp₁, hheld, hsends⟩
              rcases aborted with _ | _
              · refine .bind (ensures_unlock_last hheld ?_)
                refine .bind (ensures_lock (Finset.notMem_empty _) ?_)
                refine .bind (ensures_lock ?_ ?_)
                · simpa using (parentLock_ne p).symm
                · exact hout hstep houtside hp₁ hsends rfl
              · refine .pure ⟨hstep, houtside, hheld, ?_⟩
                exact hsends.mono fun r hr _ ↦ hr
          · exact hout (Step.refl h) ((Keeps.refl _).outside p) hp (Quiet.sends ⟨rfl, rfl⟩) hlocked

/-- At a hidden node there is a reply all the same. -/
theorem Hidden.ensures_globStep (hhidden : Hidden cfg cc s p n) (h : Rooted s.nodes)
    (hn : s.nodes.lookup p = some n) (hlocked : Locked p s) (hpassed : Passed cfg cc s.nodes p) :
    Ensures (globStep cfg cc gl (fuel + 1) p name pattern) s fun _ s' ↦
      ∃ r, s'.replies = s.replies ++ [r] ∧ r.node = p := by
  refine .bind (ensures_shouldAbort ?_)
  rw [hhidden.waiting, if_neg Bool.false_ne_true]
  refine .bind (ensures_getNode hn ?_)
  rw [if_pos hhidden.mount]
  refine .mono (ensures_globMount name ?_ hn hhidden.mount ?_ ?_) ?_
  · exact h
  · exact hlocked
  · exact hpassed
  · exact fun _ s' hreply ↦ hreply.2 hhidden.useful

theorem ensures_linkToLeaf (hcreate : cc.create = false) (elems : List Str) (h : Rooted s.nodes)
    (hfree : s.held = ∅) :
    Ensures (linkToLeaf cfg cc elems) s fun _ s' ↦
      Step false s.nodes s'.nodes ∧ s'.held = ∅ ∧ Sends (Shown cfg cc s.nodes) s s' := by
  refine .bind ((ensures_findMountPoint hcreate elems h hfree).mono ?_)
  rintro r s₁ ⟨hstep, hquiet, hfound⟩
  split
  · obtain ⟨hlocked, -, hpassed, n, hn, hm, hres⟩ := hfound
    refine .bind (hlocked.ensures_unlock_parent ?_)
    refine .bind (ensures_getNode hn ?_)
    split
    · next hnone => exact absurd hm (by simp [hnone])
    · refine .bind (ensures_unlock_last rfl (ensures_send ⟨hstep, rfl, ?_⟩))
      refine hquiet.sends.trans ⟨rfl, _, rfl, fun r hr ↦ ?_⟩
      rw [mem_singleton.mp hr]
      exact Shown.of_step hstep ⟨hpassed, n, hn, satisfies_of_subset (by decide) hres, fun _ ↦ hres⟩
  · next hnone =>
    refine .pure ⟨hstep, ?_, hquiet.sends⟩
    match r, hfound with
    | .error _, hfound => exact hfound
    | .ok none, hfound => exact hfound
    | .ok (some (p, rest)), _ => exact absurd rfl (hnone p rest)

theorem length_lt_height (hq : (t.lookup q).isSome) : q.length < height t := by
  have hmem : q ∈ t.keys := by
    obtain ⟨n, hn⟩ := isSome_iff_exists.mp hq
    exact Table.mem_keys_iff.mpr ⟨n, hn⟩
  rw [height, Nat.lt_add_one_iff]
  exact le_max_of_le' 0 (mem_map_of_mem hmem) le_rfl

theorem useless_of_sameBelow {now : ℤ} (h : SameBelow p t t') :
    useless t' now p n = useless t now p n := by
  have hempty : (childNames t' p).isEmpty = (childNames t p).isEmpty := by
    rw [Bool.eq_iff_iff, List.isEmpty_iff, List.isEmpty_iff, childNames_eq_nil_iff,
      childNames_eq_nil_iff]
    exact forall_congr' fun e ↦ by rw [h (p ++ [e]) (prefix_append p [e]) (by simp)]
  rw [useless, useless, hempty]

/-- A glob starts at a hidden node. -/
structure StartHidden (cfg : Config) (cc : CallContext) (elems : List Str) (s : St) : Prop where
  start : ∃ n clock, target cfg cc none elems s = some (n, clock) ∧ n.mount.isSome ∧
    n.satisfies cfg cc allTags = false ∧ useless s.nodes (clock 0) elems n = false
  waiting : s.done 0 = false

theorem ensures_glob (name : Str) (pattern : γ) (h : Rooted s.nodes) (hfree : s.held = ∅) :
    Ensures (glob cfg cc gl name pattern) s fun _ s' ↦
      Step false s.nodes s'.nodes ∧ s'.held = ∅ ∧
      Sends (fun r ↦ ¬StartHidden cfg { cc with create := false } (elemsOf name) s →
        Shown cfg cc s.nodes r) s s' ∧
      (StartHidden cfg { cc with create := false } (elemsOf name) s →
        ∃ r, s'.replies = s.replies ++ [r] ∧ r.node = elemsOf name) := by
  set cc' : CallContext := { cc with create := false }
  refine .bind (((ensures_findNode cfg cc' (elemsOf name) none none h hfree).and
    (returns_findNode cfg cc' (elemsOf name) none h)).mono ?_)
  rintro r s₁ ⟨⟨⟨hstep, hkeeps, hquiet⟩, hfound⟩, htarget⟩
  have hnot (hr : ∀ p, r ≠ .ok (some p)) : ¬StartHidden cfg cc' (elemsOf name) s := by
    rintro ⟨⟨n, clock, htarget', -⟩, -⟩
    exact nomatch htarget'.symm.trans (htarget.eq_none hr)
  split
  · exact .pure ⟨hstep, hfound, hquiet.sends, fun hh ↦ absurd hh (hnot (by rintro _ ⟨⟩))⟩
  · refine .mono (ensures_linkToLeaf rfl _ hstep.rooted hfound) ?_
    rintro _ s₂ ⟨hstep₂, hheld₂, hsends₂⟩
    refine ⟨hstep.trans hstep₂, hheld₂, ?_, fun hh ↦ absurd hh (hnot (by rintro _ ⟨⟩))⟩
    exact hquiet.sends.trans (hsends₂.mono fun r hr _ ↦ (hr.of_step hstep).of_create)
  · next p =>
    obtain ⟨hlocked, rfl, hp, hpassed⟩ := hfound
    obtain ⟨n, hn⟩ := isSome_iff_exists.mp hp
    refine .bind (.get ?_)
    have hstart : StartHidden cfg cc' (elemsOf name) s ↔ Hidden cfg cc' s₁ (elemsOf name) n := by
      obtain ⟨m, clock, heq, hm, rfl, hdone, hsame⟩ := htarget.exists_of_ok
      obtain rfl : n = m := some.inj (hn.symm.trans hm)
      constructor
      · rintro ⟨⟨n', clock', htarget', hmount, hdenied, huseless⟩, hwaiting⟩
        obtain ⟨⟩ := heq.symm.trans htarget'
        exact ⟨hmount, hdenied, (useless_of_sameBelow hsame).trans huseless, by rwa [hdone]⟩
      · rintro ⟨hmount, hdenied, huseless, hwaiting⟩
        refine ⟨⟨n, _, heq, hmount, hdenied, ?_⟩, by rwa [← hdone]⟩
        exact (useless_of_sameBelow hsame).symm.trans huseless
    have hlength : ∀ q, (s₁.nodes.lookup q).isSome →
        q.length < height s₁.nodes + (elemsOf name).length :=
      fun q hq ↦ (length_lt_height hq).trans_le (Nat.le_add_right _ _)
    have hreplies : Returns (globStep cfg cc' gl (height s₁.nodes) (elemsOf name) [] pattern) s₁
        fun _ s' ↦ Hidden cfg cc' s₁ (elemsOf name) n →
          ∃ r, s'.replies = s₁.replies ++ [r] ∧ r.node = elemsOf name := fun a s' hx hhidden ↦
      (hhidden.ensures_globStep hstep.rooted hn hlocked hpassed).returns a s' hx
    refine ((ensures_globStep hstep.rooted hn hlocked hpassed hlength).and hreplies).mono ?_
    rintro _ s₂ ⟨⟨hstep₂, -, hheld₂, hsends₂⟩, hreply⟩
    refine ⟨hstep.trans hstep₂, hheld₂, hquiet.sends.trans (hsends₂.mono fun r hr hnot ↦ ?_), ?_⟩
    · exact ((hr (mt hstart.mpr hnot)).of_step hstep).of_create
    · intro hh
      rw [← hquiet.2]
      exact hreply (hstart.mp hh)

end Vanadium.MountTable
