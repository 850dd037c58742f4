import Vanadium.MountTable.Calls
import Vanadium.MountTable.Traversal

/-!
# Where a name leads

`lead` follows a name in a tree that stands still: it gives the node at the end, which may be one
that the call creates on the way, and the readings of the clock that are left then. The walk of a
call ends at the full name exactly if `lead` gives a node, and it ends with that node.

A walk reads the clock once for each node with a mount that it passes, so what a call does
afterwards can be said with the state in which it starts.
-/

namespace Vanadium.MountTable

open Foundations Program List Option AList

variable {cfg : Config} {cc : CallContext} {s s' : St} {p : Path} {t : Table Path Node}
  {o : Option (Node × (ℕ → ℤ))} {l : Option Path}

/-! ## Programs that may fault -/

variable {Q : Unit → St → Prop} {n : Node} {elems : List Str} {c : ℤ}

theorem returns_lock (hQ : ∀ held, Q () { s with held := held }) : Returns (lock l) s Q := by
  refine .bind (.get ?_)
  split
  · rintro _ _ ⟨⟩
  · rintro _ _ ⟨⟩
    exact hQ _

theorem returns_unlock (hQ : ∀ held, Q () { s with held := held }) : Returns (unlock l) s Q := by
  refine .bind (.get ?_)
  split
  · rintro _ _ ⟨⟩
    exact hQ _
  · rintro _ _ ⟨⟩

theorem returns_release (hQ : ∀ held, Q () { s with held := held }) : Returns (release p) s Q :=
  .bind (returns_unlock fun _ ↦ returns_unlock hQ)

theorem returns_getNode {Q : Node → St → Prop} (h : s.nodes.lookup p = some n)
    (hQ : Q n s) : Returns (getNode p) s Q :=
  (ensures_getNode h hQ).returns

/-- The readings of the clock that are left after `isActive`. -/
def Node.clockAfter (n : Node) (clock : ℕ → ℤ) : ℕ → ℤ :=
  if n.mount.isSome then fun i ↦ clock (i + 1) else clock

theorem returns_isActive (hn : s.nodes.lookup p = some n) {Q : Bool → St → Prop}
    (hQ : ∀ nodes n', nodes.lookup p = some n' → n.Like n' →
      (∀ q, q ≠ p → nodes.lookup q = s.nodes.lookup q) →
      Q (n.activeAt (s.clock 0)) { s with nodes := nodes, clock := n.clockAfter s.clock }) :
    Returns (isActive p) s Q := by
  refine .bind (returns_getNode hn ?_)
  split
  · next hm =>
    refine .pure ?_
    have := hQ s.nodes n hn (Node.Like.refl n) fun _ _ ↦ rfl
    rw [Node.clockAfter, Node.activeAt, hm] at this
    exact this
  · next m hm =>
    refine .bind ?_
    rintro _ _ ⟨⟩
    refine .bind (.modify (.pure ?_))
    have := hQ _ _ (lookup_insert s.nodes) (Node.like_removeExpired hm (s.clock 0))
      fun q hq ↦ lookup_insert_ne hq
    rw [Node.clockAfter, Node.activeAt, hm] at this
    exact this

/-! ## Following a name -/

/-- The number of nodes that a user has. -/
def St.userCount (s : St) (creator : Str) : ℤ := (AList.lookup creator s.perUser).getD 0

theorem returns_debit (hcount : s.userCount cc.creator = c) {Q : Bool → St → Prop}
    (hQ : ∀ perUser,
      (c < cfg.maxNodesPerUser ∨ cc.ignoreLimits = true →
        (perUser.lookup cc.creator).getD 0 = c + 1) →
      Q (decide (c < cfg.maxNodesPerUser) || cc.ignoreLimits) { s with perUser := perUser }) :
    Returns (debit cfg cc) s Q := by
  rw [St.userCount] at hcount
  refine .bind ?_
  rintro _ _ ⟨⟩
  rw [hcount]
  split
  · next hover =>
    refine .bind ?_
    rintro _ _ ⟨⟩
    have hmax : ¬c < cfg.maxNodesPerUser := by omega
    rw [decide_eq_false hmax, hover.2] at hQ
    exact .pure (hQ _ fun h ↦ absurd h (by simp [hmax]))
  · next hunder =>
    have hallowed : (decide (c < cfg.maxNodesPerUser) || cc.ignoreLimits) = true := by
      rw [not_and_or, Bool.not_eq_false] at hunder
      rw [Bool.or_eq_true, decide_eq_true_iff]
      exact hunder.imp_left fun h ↦ by omega
    rw [hallowed] at hQ
    exact .pure (hQ _ fun _ ↦ by rw [lookup_insert]; rfl)

theorem returns_makeChild {e : Str} (hn : s.nodes.lookup p = some n)
    (hQ : ∀ held, Q ()
      { s with
        nodes := insert (p ++ [e]) (newChild cfg cc n e)
          (insert p { n with childrenMade := true } s.nodes)
        held := held }) :
    Returns (makeChild cfg cc p e) s Q := by
  refine .bind (returns_getNode hn (.bind (.modify (.bind ?_))))
  refine .bind (returns_getNode (lookup_insert _) ?_)
  exact .modify (returns_lock hQ)

/-- The node that some elements lead to from a node, and the readings of the clock that are left.
The counter is the number of nodes of the user. -/
def lead (cfg : Config) (cc : CallContext) (t : Table Path Node) :
    Path → Node → List Str → (ℕ → ℤ) → ℤ → Option (Node × (ℕ → ℤ))
  | _, n, [], clock, _ => some (n, clock)
  | cur, n, e :: elems, clock, count =>
    if n.satisfies cfg cc traverseTags && !n.activeAt (clock 0) then
      match AList.lookup (cur ++ [e]) t with
      | some c => lead cfg cc t (cur ++ [e]) c elems (n.clockAfter clock) count
      | none =>
        if cc.create && n.satisfies cfg cc createTags && n.satisfiesTemplate cfg cc createTags e &&
            (decide (count < cfg.maxNodesPerUser) || cc.ignoreLimits) then
          lead cfg cc t (cur ++ [e]) (newChild cfg cc n e) elems (n.clockAfter clock) (count + 1)
        else none
    else none

/-- What is below a path is as it was. -/
def SameBelow (p : Path) (t t' : Table Path Node) : Prop :=
  ∀ q, p <+: q → q ≠ p → AList.lookup q t' = AList.lookup q t

theorem SameBelow.child {t' : Table Path Node} (h : SameBelow p t t') (e : Str) :
    SameBelow (p ++ [e]) t t' := by
  intro q hle hne
  refine h q ((prefix_append p [e]).trans hle) ?_
  rintro rfl
  exact absurd hle.length_le (by simp)

/-- The end of a walk, told by `lead`. -/
def Leads (t : Table Path Node) (elems : Path) (s s' : St)
    (r : Except MtError (Option (Path × List Str))) : Option (Node × (ℕ → ℤ)) → Prop
  | some (n, clock) =>
    r = .ok (some (elems, [])) ∧ AList.lookup elems s'.nodes = some n ∧ s'.clock = clock ∧
      s'.done = s.done ∧ SameBelow elems t s'.nodes
  | none => ∀ p, r ≠ .ok (some (p, []))

theorem newChild_like {n' : Node} (h : n.Like n') (e : Str) :
    newChild cfg cc n' e = newChild cfg cc n e := by
  rw [newChild, newChild, copyPermissions, copyPermissions, h.permsTemplate, h.vPerms]

theorem returns_walk (cfg : Config) (cc : CallContext)
    (hn : s.nodes.lookup p = some n) (hbelow : SameBelow p t s.nodes) :
    Returns (walk cfg cc p elems) s fun r s' ↦
      Leads t (p ++ elems) s s' r (lead cfg cc t p n elems s.clock (s.userCount cc.creator)) := by
  induction elems generalizing s p n with
  | nil =>
    refine .pure ?_
    rw [lead, append_nil]
    exact ⟨rfl, hn, rfl, rfl, hbelow⟩
  | cons e elems ih =>
    have hstops {r : Except MtError (Option (Path × List Str))} (hr : ∀ p, r ≠ .ok (some (p, [])))
        (s₁ : St) : Returns (pure r : M _) s₁ fun r s' ↦ Leads t (p ++ e :: elems) s s' r none :=
      .pure hr
    have hdown {s₁ : St} {c : Node} (hdone : s₁.done = s.done)
        (hc : s₁.nodes.lookup (p ++ [e]) = some c) (hbelow₁ : SameBelow (p ++ [e]) t s₁.nodes) :
        Returns (walk cfg cc (p ++ [e]) elems) s₁ fun r s' ↦ Leads t (p ++ e :: elems) s s' r
          (lead cfg cc t (p ++ [e]) c elems s₁.clock (s₁.userCount cc.creator)) := by
      refine (ih hc hbelow₁).mono fun r s' hleads ↦ ?_
      rw [append_assoc, singleton_append] at hleads
      unfold Leads at hleads ⊢
      rw [← hdone]
      exact hleads
    have hlookup {nodes : Table Path Node}
        (hsame : ∀ q, q ≠ p → nodes.lookup q = s.nodes.lookup q) :
        SameBelow p t nodes :=
      fun q hle hne ↦ (hsame q hne).trans (hbelow q hle hne)
    refine .bind (returns_getNode hn ?_)
    rw [lead]
    split
    · next hsat =>
      rw [hsat, Bool.true_and]
      refine .bind (returns_isActive hn fun nodes n₁ hn₁ hlike hsame ↦ ?_)
      have hbelow₁ := hlookup hsame
      have hchild := hbelow₁ (p ++ [e]) (prefix_append p [e]) (by simp)
      split
      · next hactive =>
        rw [hactive]
        exact hstops (by rintro _ ⟨⟩) _
      · next hactive =>
        simp only [Bool.eq_false_of_not_eq_true hactive, Bool.not_false, ↓reduceIte]
        refine .bind (.get ?_)
        rw [hchild]
        split
        · next hsome =>
          obtain ⟨c, hc⟩ := isSome_iff_exists.mp hsome
          rw [hc]
          refine .bind (returns_unlock fun _ ↦ ?_)
          refine .bind (returns_lock fun _ ↦ ?_)
          refine hdown ?_ ?_ ?_
          · rfl
          · exact hchild.trans hc
          · exact hbelow₁.child e
        · next hnone =>
          rw [not_isSome_iff_eq_none.mp hnone]
          split
          · next hcreate =>
            rw [hcreate, Bool.true_and]
            refine .bind (returns_unlock fun _ ↦ ?_)
            split
            · next hdenied =>
              rw [if_neg ?_]
              · exact .bind (returns_unlock fun _ ↦ hstops (by rintro _ ⟨⟩) _)
              · intro hallowed
                simp_all
            · next hallowed =>
              have hallowed' : (n.satisfies cfg cc createTags &&
                  n.satisfiesTemplate cfg cc createTags e) = true := by simpa using hallowed
              rw [hallowed', Bool.true_and]
              refine .bind (returns_debit (c := s.userCount cc.creator) ?_ fun perUser hcount ↦ ?_)
              · rfl
              split
              · next hok =>
                refine .bind (returns_makeChild hn₁ fun held ↦ ?_)
                rw [newChild_like hlike, ← hcount (by simpa using hok)]
                refine hdown ?_ ?_ ?_
                · rfl
                · exact lookup_insert _
                · intro q hle hne
                  rw [← hbelow₁.child e q hle hne]
                  rw [lookup_insert_ne hne, lookup_insert_ne]
                  rintro rfl
                  exact absurd hle.length_le (by simp)
              · exact .bind (returns_unlock fun _ ↦ hstops (by rintro _ ⟨⟩) _)
          · next hcreate =>
            rw [if_neg (by simp [hcreate])]
            exact .bind (returns_release fun _ ↦ hstops (by rintro _ ⟨⟩) _)
    · next hsat =>
      rw [if_neg (by simp [hsat])]
      exact .bind (returns_release fun _ ↦ hstops (by rintro _ ⟨⟩) _)

/-- Where there is a node, a name leads to that node or nowhere. -/
theorem lead_eq_of_lookup {n' m : Node} {clock clock' : ℕ → ℤ}
    (ht : Rooted t) (hn : t.lookup p = some n) (hm : t.lookup (p ++ elems) = some m)
    (h : lead cfg cc t p n elems clock c = some (n', clock')) : n' = m := by
  induction elems generalizing p n clock with
  | nil =>
    rw [lead] at h
    obtain ⟨⟩ := h
    rw [append_nil, hn] at hm
    exact some.inj hm
  | cons e elems ih =>
    have hm' : t.lookup ((p ++ [e]) ++ elems) = some m := by rwa [append_assoc, singleton_append]
    obtain ⟨-, h⟩ := ite_none_right_eq_some.mp h
    split at h
    · next hc => exact ih hc hm' h
    · next hnone =>
      have := ht.lookup_of_prefix (prefix_append _ elems) (isSome_of_eq_some hm')
      rw [hnone] at this
      exact nomatch this

/-! ## The node of a call -/

/-- The node that a call with some tags works on, and the readings of the clock that are left. -/
def target (cfg : Config) (cc : CallContext) (tags : Option (List Tag))
    (elems : List Str) (s : St) : Option (Node × (ℕ → ℤ)) :=
  ((AList.lookup [] s.nodes).bind fun root ↦
      lead cfg cc s.nodes [] root elems s.clock (s.userCount cc.creator)).filter
    fun x ↦ x.1.satisfies cfg cc tags

theorem target_eq_of_lookup {tags : Option (List Tag)} {m : Node} {clock : ℕ → ℤ}
    (h : Rooted s.nodes) (hm : s.nodes.lookup elems = some m)
    (htarget : target cfg cc tags elems s = some (n, clock)) : n = m := by
  rw [target, filter_eq_some_iff, bind_eq_some_iff] at htarget
  obtain ⟨⟨root, hroot, hlead⟩, -⟩ := htarget
  exact lead_eq_of_lookup h hroot hm hlead

/-- The end of `findNode`, told by `target`. -/
def Targets (elems : Path) (s s' : St) (r : Except MtError (Option Path)) :
    Option (Node × (ℕ → ℤ)) → Prop
  | some (n, clock) =>
    r = .ok (some elems) ∧ AList.lookup elems s'.nodes = some n ∧ s'.clock = clock ∧
      s'.done = s.done ∧ SameBelow elems s.nodes s'.nodes
  | none => ∀ p, r ≠ .ok (some p)

theorem Targets.exists_of_ok {elems : Path}
    (h : Targets elems s s' (.ok (some p)) o) : ∃ n clock, o = some (n, clock) ∧
      s'.nodes.lookup elems = some n ∧ s'.clock = clock ∧ s'.done = s.done ∧
      SameBelow elems s.nodes s'.nodes := by
  rcases o with _ | ⟨n, clock⟩
  · exact absurd rfl (h p)
  · exact ⟨n, clock, rfl, h.2⟩

theorem Targets.eq_none {elems : Path} {r : Except MtError (Option Path)}
    (h : Targets elems s s' r o) (hr : ∀ p, r ≠ .ok (some p)) :
    o = none := by
  rcases o with _ | ⟨n, clock⟩
  · rfl
  · exact absurd h.1 (hr elems)

theorem returns_findNode (cfg : Config) (cc : CallContext) (elems : List Str)
    (tags : Option (List Tag)) (h : Rooted s.nodes) :
    Returns (findNode cfg cc elems tags none) s fun r s' ↦
      Targets elems s s' r (target cfg cc tags elems s) := by
  obtain ⟨root, hroot⟩ := isSome_iff_exists.mp h.root
  have hwalk : Returns (traverse cfg cc elems) s fun r s' ↦ Leads s.nodes elems s s' r
        (lead cfg cc s.nodes [] root elems s.clock (s.userCount cc.creator)) := by
    refine .bind (returns_lock fun held ↦ .bind (returns_lock fun held' ↦ ?_))
    exact returns_walk (p := []) cfg cc hroot fun _ _ _ ↦ rfl
  rw [target, hroot, bind_some]
  refine .bind (hwalk.mono fun r s₁ hleads ↦ ?_)
  generalize lead cfg cc s.nodes [] root elems s.clock (s.userCount cc.creator) = o at hleads ⊢
  match o, hleads with
  | some (n, clock), ⟨hr, hn, hclock, hdone, hsame⟩ =>
    subst hr
    refine .bind (returns_getNode hn ?_)
    rw [filter_some]
    split
    · exact .pure ⟨rfl, hn, hclock, hdone, hsame⟩
    · exact .bind (returns_release fun _ ↦ .pure (by rintro _ ⟨⟩))
  | none, hr =>
    rw [filter_none]
    split
    · exact .pure (by rintro _ ⟨⟩)
    · exact .pure (by rintro _ ⟨⟩)
    · exact absurd rfl (hr _)
    · exact .bind (returns_release fun _ ↦ .pure (by rintro _ ⟨⟩))

end Vanadium.MountTable
