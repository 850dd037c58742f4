import Vanadium.Foundations.Transition
import Vanadium.MountTable.Guarantees

/-!
# The log of permissions

A persisting mount table appends an entry to a log for each `SetPermissions` and each `Delete` that
goes through. A new server replays the log and then writes a new one from its tree.

The log stands for a map from paths to permissions: an entry sets the permissions of a path, or
drops a path and all below it (`logged`). Replaying a log makes a tree whose explicit permissions
are this map. So permissions survive a restart as long as the log stands for those in memory. Three
things break that:

* The root is logged under the empty name, which is replayed as a name with one empty element.
* `Mount` drops what is below the node and does not log it.
* The new log is written with names made by `path.Join`, which drops elements that are empty or a
  dot and takes two dots as the parent.
-/

namespace Vanadium.MountTable

open Foundations Transition Table Program List StoreElement
open Option hiding all_eq_true

variable {cfg : Config} {s s' : St} {p q : Path} {t t' : Table Path Node} {v : VersionedPermissions}
  {rooted : Bool} {server : Str} (log : List StoreElement) (e : StoreElement)

/-! ## Paths as strings -/

/-- `Clean` on the next element of a path. -/
def cleanElem (rooted : Bool) (out : Path) (e : Str) : Path :=
  if e = [] ∨ e = ['.'] then out
  else if e = ['.', '.'] then
    if out = [] ∨ out.getLast? = some ['.', '.'] then if rooted then out else out ++ [e]
    else out.dropLast
  else out ++ [e]

def pathClean (name : Str) : Str :=
  let rooted : Bool := name.head? = some '/'
  let out := (name.splitOn '/').foldl (cleanElem rooted) []
  if rooted then '/' :: ['/'].intercalate out
  else if out = [] then ['.'] else ['/'].intercalate out

/-- `path.Join` of a name and an element. -/
def pathJoin (name e : Str) : Str :=
  if name = [] ∧ e = [] then [] else pathClean (if name = [] then e else name ++ '/' :: e)

/-- An element that `path.Join` keeps. -/
def plainElem (e : Str) : Bool := e ≠ [] && e ≠ ['.'] && e ≠ ['.', '.'] && !e.contains '/'

theorem cleanElem_of_plain {e : Str} (h : plainElem e = true) :
    cleanElem rooted p e = p ++ [e] := by
  simp only [plainElem, Bool.and_eq_true, decide_eq_true_eq, ne_eq] at h
  rw [cleanElem, if_neg (by simp [h]), if_neg h.1.2]

theorem foldl_cleanElem (h : ∀ e ∈ q, plainElem e = true) :
    q.foldl (cleanElem rooted) p = p ++ q := by
  induction q generalizing p with
  | nil => simp
  | cons e q ih =>
    obtain ⟨he, hq⟩ := forall_mem_cons.mp h
    rw [foldl_cons, cleanElem_of_plain he, ih hq, append_assoc, singleton_append]

theorem splitOn_intercalate_plain (h : ∀ e ∈ p, plainElem e = true) (hne : p ≠ []) :
    (['/'].intercalate p).splitOn '/' = p := by
  refine splitOn_intercalate '/' (fun e he ↦ ?_) hne
  have := h e he
  simp only [plainElem, Bool.and_eq_true] at this
  simpa using this.2

theorem pathClean_plain (h : ∀ e ∈ p, plainElem e = true) (hne : p ≠ []) :
    pathClean (['/'].intercalate p) = ['/'].intercalate p := by
  have hsplit := splitOn_intercalate_plain h hne
  have hrooted : (['/'].intercalate p).head? ≠ some '/' := by
    intro hhead
    obtain ⟨rest, hrest⟩ := head?_eq_some_iff.mp hhead
    rw [hrest, splitOn_cons_eq_if_modifyHead, if_pos (beq_self_eq_true '/')] at hsplit
    have := h [] (by rw [← hsplit]; exact mem_cons_self)
    exact nomatch this
  rw [pathClean, hsplit, foldl_cleanElem h, nil_append]
  rw [decide_eq_false hrooted, if_neg Bool.false_ne_true, if_neg hne]

theorem intercalate_concat (hne : p ≠ []) (e : Str) :
    ['/'].intercalate (p ++ [e]) = ['/'].intercalate p ++ '/' :: e := by
  induction p with
  | nil => exact absurd rfl hne
  | cons e' p ih =>
    by_cases hp : p = []
    · subst hp
      simp [intercalate_cons_cons]
    · rw [cons_append, intercalate_cons_of_ne_nil (by simp), ih hp, intercalate_cons_of_ne_nil hp]
      simp

/-- Names with plain elements are joined as they should be. -/
theorem pathJoin_plain {e : Str} (h : ∀ e' ∈ p ++ [e], plainElem e' = true) :
    pathJoin (['/'].intercalate p) e = ['/'].intercalate (p ++ [e]) := by
  have he : e ≠ [] := by
    rintro rfl
    exact nomatch h [] (by simp)
  rw [pathJoin, if_neg fun hnil ↦ he hnil.2, ← pathClean_plain h (by simp)]
  congr 1
  by_cases hp : p = []
  · subst hp
    simp
  · rw [intercalate_concat hp, if_neg ?_]
    intro hnil
    have hsplit := splitOn_intercalate_plain (fun e' he' ↦ h e' (mem_append_left _ he')) hp
    rw [hnil, splitOn_nil] at hsplit
    exact nomatch h [] (by rw [← hsplit]; simp)

/-! ## The store -/

/-- The call context of a replay: nodes are created, whatever the permissions and limits are. -/
def replayContext (creator : Str) : CallContext := ⟨[], true, creator, true, true⟩

/-- The loop body of `parseLogFile`. -/
def parseEntry (cfg : Config) (e : StoreElement) : M Unit := do
  let elems := e.N.splitOn '/'
  match ← findNode cfg (replayContext e.C) elems none none with
  | .ok (some p) =>
    if e.D then
      match elems.getLast? with
      | none => throw .sliceOutOfRange
      | some child => deleteNode p.dropLast child
    else
      let n ← getNode p
      putNode p { n with vPerms := some e.V, explicitPermissions := true }
    release p
  | _ => pure ()

/-- The order in which the children of a node are visited: any. -/
structure ChildOrder where
  perm : Path → List Str → List Str
  isPerm : ∀ p ks, (perm p ks).Perm ks

/-- Log the explicit permissions of a node and of all below it. -/
def depthFirstPersist (order : ChildOrder) : ℕ → Path → Str → M Unit
  | 0, _, _ => throw .outOfFuel
  | fuel + 1, p, name => do
    let n ← getNode p
    if n.explicitPermissions then
      match n.vPerms with
      | none => throw .nilDeref
      | some vPerms => persistPerms name n.creator vPerms
    (order.perm p (childNames (← get).nodes p)).forM fun k ↦
      depthFirstPersist order fuel (p ++ [k]) (pathJoin name k)

/-- A new server reads a log and writes another one. -/
def newPersistentStore (cfg : Config) (order : ChildOrder) (old : List StoreElement) : M Unit := do
  old.forM (parseEntry cfg)
  depthFirstPersist order (height (← get).nodes) [] []

/-! ## What a log stands for -/

/-- What an entry does to a map. -/
def StoreElement.apply (e : StoreElement) (f : Path → Option VersionedPermissions) :
    Path → Option VersionedPermissions :=
  fun q ↦
    if e.D then if e.N.splitOn '/' <+: q then none else f q
    else if q = e.N.splitOn '/' then some e.V else f q

/-- The map that a log stands for. -/
def logged (log : List StoreElement) : Path → Option VersionedPermissions :=
  log.foldl (fun f e ↦ e.apply f) fun _ ↦ none

theorem logged_concat :
    logged (log ++ [e]) = e.apply (logged log) := by
  rw [logged, foldl_append]
  rfl

/-- A log that sets only what a map has stands for the part of the map that it sets. -/
theorem logged_of_agree {log : List StoreElement} {g : Path → Option VersionedPermissions}
    (h : ∀ e ∈ log, e.D = false ∧ g (e.N.splitOn '/') = some e.V) (q : Path) :
    logged log q = if q ∈ log.map fun e ↦ e.N.splitOn '/' then g q else none := by
  induction log using reverseRecOn with
  | nil => rfl
  | append_singleton log e ih =>
    rw [logged_concat, apply]
    obtain ⟨hD, hV⟩ := h e (by simp)
    rw [hD, if_neg Bool.false_ne_true, ih fun e' he' ↦ h e' (mem_append_left _ he')]
    by_cases hq : q = e.N.splitOn '/'
    · subst hq
      simp [hV]
    · simp [hq]

/-! ## Replaying -/

/-- A tree that is made from a log: there are no mounts. -/
structure Replaying (s : St) : Prop extends Idle s where
  noMounts : ∀ {q n}, AList.lookup q s.nodes = some n → n.mount = none

theorem satisfies_replay (n : Node) (tags : Option (List Tag)) (creator : Str) :
    n.satisfies cfg (replayContext creator) tags = true := by
  unfold Node.satisfies
  split
  · rfl
  · rfl

theorem satisfiesTemplate_replay (n : Node) (tags : List Tag) (creator e : Str) :
    n.satisfiesTemplate cfg (replayContext creator) tags e = true := by
  unfold Node.satisfiesTemplate
  split
  · rfl
  · rfl

variable {n : Node} {f : Path → Option VersionedPermissions} {name : Str} {cc : CallContext}
  {r : Except MtError Unit} (clock : ℕ → ℤ) (done : ℕ → Bool) (order : ChildOrder)

/-- A replay comes to the end of every name. -/
theorem exists_lead_replay {elems : List Str} {creator : Str} {clock : ℕ → ℤ} {c : ℤ}
    (hmounts : ∀ {q m}, t.lookup q = some m → m.mount = none) (hn : n.mount = none) :
    ∃ n' clock', lead cfg (replayContext creator) t p n elems clock c = some (n', clock') := by
  induction elems generalizing p n clock c with
  | nil => exact ⟨n, clock, rfl⟩
  | cons e elems ih =>
    have hactive : n.activeAt (clock 0) = false := by
      rw [Node.activeAt, hn]
      rfl
    rw [lead, satisfies_replay, hactive, Bool.not_false, Bool.and_true, if_pos rfl]
    split
    · next m hm => exact ih (hmounts hm)
    · rw [satisfies_replay, satisfiesTemplate_replay, if_pos (by simp [replayContext])]
      exact ih rfl

/-- The explicit permissions of a tree are those of a map. -/
def Holds (t : Table Path Node) (f : Path → Option VersionedPermissions) : Prop :=
  ∀ q, explicitAt t q = (f q).map some

theorem Holds.isSome (h : Holds t f) (hv : f q = some v) : (t.lookup q).isSome := by
  have hq := h q
  rw [hv, explicitAt] at hq
  obtain ⟨n, hn, -⟩ := bind_eq_some_iff.mp hq
  exact isSome_of_eq_some hn

theorem explicitAt_set {vPerms : VersionedPermissions} :
    explicitAt (AList.insert p { n with vPerms := some vPerms, explicitPermissions := true } t) q =
      if q = p then some (some vPerms) else explicitAt t q := by
  rw [explicitAt, lookup_insert_eq_ite]
  split
  · rfl
  · rfl

/-- A replay finds or makes every node. -/
theorem ensures_findNode_replay (elems : List Str) (creator : Str) (h : Replaying s) :
    Ensures (findNode cfg (replayContext creator) elems none none) s fun r s' ↦
      r = .ok (some elems) ∧ Locked elems s' ∧ (s'.nodes.lookup elems).isSome ∧
      Step true s.nodes s'.nodes ∧ s'.log = s.log ∧
      ∀ {q n}, s'.nodes.lookup q = some n → n.mount = none := by
  obtain ⟨root, hroot⟩ := isSome_iff_exists.mp h.rooted.root
  obtain ⟨n, clock, hlead⟩ : ∃ n clock, lead cfg (replayContext creator) s.nodes
    [] root elems s.clock
      (s.userCount creator) = some (n, clock) := exists_lead_replay h.noMounts (h.noMounts hroot)
  have htarget : target cfg (replayContext creator) none elems s = some (n, clock) := by
    rw [target, filter_eq_some_iff, hroot]
    exact ⟨hlead, rfl⟩
  refine ((ensures_findNode cfg (replayContext creator) elems none none h.rooted h.free).and
    (returns_findNode cfg (replayContext creator) elems none h.rooted)).mono ?_
  rintro r s' ⟨⟨⟨hstep, -, hquiet⟩, hfound⟩, hr⟩
  rw [htarget] at hr
  obtain ⟨rfl, -⟩ := hr
  obtain ⟨hlocked, -, hp, -⟩ := hfound
  refine ⟨rfl, hlocked, hp, hstep, hquiet.1, fun hm ↦ ?_⟩
  rcases hstep.comes hm with ⟨m', hm', hlike⟩ | ⟨-, -, hmount⟩
  · exact hlike.mount_eq_none (h.noMounts hm')
  · exact hmount

theorem ensures_parseEntry (h : Replaying s) (hf : Holds s.nodes f) :
    Ensures (parseEntry cfg e) s fun _ s' ↦ Replaying s' ∧ s'.log = s.log ∧
      Holds s'.nodes (e.apply f) := by
  refine .bind ((ensures_findNode_replay (e.N.splitOn '/') e.C h).mono ?_)
  rintro r s₁ ⟨rfl, hlocked, hp, hstep, hlog, hmounts⟩
  dsimp only
  split
  · next hD =>
    split
    · next hnone =>
      exact absurd (getLast?_eq_none_iff.mp hnone) (splitOn_ne_nil _ _)
    · next child hchild =>
      have hconcat : (e.N.splitOn '/').dropLast ++ [child] = e.N.splitOn '/' :=
        dropLast_append_getLast? child hchild
      have hlocked' := hlocked
      rw [← hconcat] at hlocked'
      refine .bind ((ensures_deleteNode hstep.rooted fun _ ↦ hlocked'.not_mem_of_below).mono ?_)
      rintro _ s₂ ⟨hpruned, hquiet₂, hheld₂, -⟩
      rw [hconcat] at hpruned
      refine Locked.ensures_release (hheld₂.trans hlocked) ⟨⟨⟨?_, rfl⟩, fun {q n} hn ↦ ?_⟩, ?_, ?_⟩
      · exact hstep.rooted.pruned (splitOn_ne_nil _ _) hpruned
      · rw [hpruned] at hn
        split at hn
        · exact nomatch hn
        · exact hmounts hn
      · exact hquiet₂.1.trans hlog
      · intro q
        rw [hpruned.explicitAt, hstep.explicitAt, hf, apply, if_pos hD]
        split
        · rfl
        · rfl
  · next hD =>
    obtain ⟨n, hn⟩ := isSome_iff_exists.mp hp
    refine .bind (ensures_getNode hn (.bind (ensures_putNode ?_)))
    refine Locked.ensures_release ?_ ⟨⟨⟨hstep.rooted.insert hp _, rfl⟩,
      fun {q m} hm ↦ ?_⟩, hlog, ?_⟩
    · exact hlocked
    · dsimp only at hm
      rw [lookup_insert_eq_ite] at hm
      split at hm
      · obtain rfl := some.inj hm
        exact (hmounts hn : n.mount = none)
      · exact hmounts hm
    · intro q
      dsimp only
      rw [explicitAt_set, hstep.explicitAt, hf, apply, if_neg hD]
      split
      · rfl
      · rfl

/-- Replaying a log makes a tree with the permissions that the log stands for. -/
theorem ensures_parseLog (h : Replaying s) (hf : Holds s.nodes f) :
    Ensures (log.forM (parseEntry cfg)) s fun _ s' ↦ Replaying s' ∧ s'.log = s.log ∧
      Holds s'.nodes (log.foldl (fun f e ↦ e.apply f) f) := by
  induction log generalizing s f with
  | nil => exact ⟨(), s, rfl, h, rfl, hf⟩
  | cons e log ih =>
    refine .bind ((ensures_parseEntry e h hf).mono ?_)
    rintro _ s₁ ⟨h₁, hlog₁, hf₁⟩
    refine (ih h₁ hf₁).mono ?_
    rintro _ s₂ ⟨h₂, hlog₂, hf₂⟩
    exact ⟨h₂, hlog₂.trans hlog₁, hf₂⟩

/-! ## Writing the new log -/

/-- Entries are logged for paths that a map has, and for all of those in a set. -/
def Persists (f : Path → Option VersionedPermissions) (P : Set Path) (s s' : St) : Prop :=
  ∃ new, s' = { s with log := s.log ++ new } ∧
    (∀ e ∈ new, e.D = false ∧ ∃ q, f q = some e.V ∧ e.N = ['/'].intercalate q) ∧
    ∀ q ∈ P, ∀ v, f q = some v → ∃ e ∈ new, e.N = ['/'].intercalate q

section Persists

variable {f : Path → Option VersionedPermissions} {P P' : Set Path} {s'' : St}

theorem Persists.refl (s : St) : Persists f ∅ s s :=
  ⟨[], by rw [append_nil], nofun, nofun⟩

theorem Persists.trans (h : Persists f P s s') (h' : Persists f P' s' s'') :
    Persists f (P ∪ P') s s'' := by
  obtain ⟨new, rfl, hsound, hall⟩ := h
  obtain ⟨new', rfl, hsound', hall'⟩ := h'
  refine ⟨new ++ new', by rw [append_assoc], fun e he ↦ ?_, fun q hq v hv ↦ ?_⟩
  · rcases mem_append.mp he with he | he
    · exact hsound e he
    · exact hsound' e he
  · rcases hq with hq | hq
    · obtain ⟨e, he, hN⟩ := hall q hq v hv
      exact ⟨e, mem_append_left _ he, hN⟩
    · obtain ⟨e, he, hN⟩ := hall' q hq v hv
      exact ⟨e, mem_append_right _ he, hN⟩

theorem Persists.mono (h : Persists f P s s') (hP : ∀ q ∈ P', ∀ v, f q = some v → q ∈ P) :
    Persists f P' s s' := by
  obtain ⟨new, hs', hsound, hall⟩ := h
  exact ⟨new, hs', hsound, fun q hq v hv ↦ hall q (hP q hq v hv) v hv⟩

theorem Persists.nodes (h : Persists f P s s') : s'.nodes = s.nodes := by
  obtain ⟨new, rfl, -⟩ := h
  rfl

/-- The paths at and below a path. -/
def below (p : Path) : Set Path := {q | p <+: q}

/-- A loop over the children of a node, in a tree that stands still. -/
theorem ensures_forM_children {visit : Str → M Unit} {ks : List Str}
    (hvisit : ∀ k ∈ ks, ∀ s₁ : St, s₁.nodes = t →
      Ensures (visit k) s₁ fun _ ↦ Persists f (below (p ++ [k])) s₁) (ht : s.nodes = t) :
    Ensures (ks.forM visit) s fun _ ↦ Persists f {q | ∃ k ∈ ks, q ∈ below (p ++ [k])} s := by
  induction ks generalizing s with
  | nil => exact ⟨(), s, rfl, (Persists.refl s).mono (by simp)⟩
  | cons k ks ih =>
    obtain ⟨hk, hks⟩ := forall_mem_cons.mp hvisit
    refine .bind ((hk s ht).mono fun _ s₁ h₁ ↦ ?_)
    refine (ih hks (h₁.nodes.trans ht)).mono fun _ s₂ h₂ ↦ (h₁.trans h₂).mono ?_
    rintro q ⟨k', hk', hq⟩ v -
    rcases mem_cons.mp hk' with rfl | hk'
    · exact .inl hq
    · exact .inr ⟨k', hk', hq⟩

theorem ensures_depthFirstPersist {fuel : ℕ} {name : Str} (ht : Rooted t)
    (hf : Holds t f) (hplain : ∀ q v, f q = some v → ∀ e ∈ q, plainElem e = true)
    (hp : (t.lookup p).isSome) (hlength : ∀ q, (t.lookup q).isSome → q.length < fuel + p.length)
    (hname : (∀ e ∈ p, plainElem e = true) → name = ['/'].intercalate p) (hs : s.nodes = t) :
    Ensures (depthFirstPersist order fuel p name) s fun _ ↦ Persists f (below p) s := by
  induction fuel generalizing p name s with
  | zero => exact absurd (hlength p hp) (by simp)
  | succ fuel ih =>
    obtain ⟨n, hn⟩ := isSome_iff_exists.mp hp
    have hchildren {s₁ : St} (hs₁ : s₁.nodes = t) : Ensures
        ((order.perm p (childNames t p)).forM fun k ↦
          depthFirstPersist order fuel (p ++ [k]) (pathJoin name k)) s₁ fun _ ↦
        Persists f {q | ∃ k ∈ order.perm p (childNames t p), q ∈ below (p ++ [k])} s₁ := by
      refine ensures_forM_children (fun k hk s₂ hs₂ ↦ ih ?_ ?_ ?_ hs₂) hs₁
      · exact mem_childNames_iff.mp ((order.isPerm _ _).mem_iff.mp hk)
      · intro q hq
        have := hlength q hq
        rw [length_append, length_singleton]
        omega
      · intro hall
        rw [hname fun e he ↦ hall e (mem_append_left _ he)]
        exact pathJoin_plain hall
    have hbelow : ∀ q ∈ below p, ∀ v, f q = some v →
        q = p ∨ ∃ k ∈ order.perm p (childNames t p), q ∈ below (p ++ [k]) := by
      intro q hq v hv
      by_cases hqp : q = p
      · exact .inl hqp
      · obtain ⟨k, hk⟩ := exists_child_of_below hq hqp
        refine .inr ⟨k, ?_, hk⟩
        rw [(order.isPerm _ _).mem_iff, mem_childNames_iff]
        exact ht.lookup_of_prefix hk (hf.isSome hv)
    have hat := hf p
    rw [explicitAt, hn, bind_some] at hat
    subst hs
    refine .bind (ensures_getNode hn ?_)
    split
    · next hexp =>
      rw [if_pos hexp] at hat
      obtain ⟨v, hv, hvPerms⟩ := map_eq_some_iff.mp hat.symm
      rw [← hvPerms]
      refine .bind (.modify (.bind (.get ?_)))
      have hself : Persists f {p} s { s with log := s.log ++ [⟨name, v, false, n.creator⟩] } := by
        refine ⟨_, rfl, fun e he ↦ ?_, fun q hq _ _ ↦ ⟨_, mem_singleton_self _, ?_⟩⟩
        · rw [mem_singleton.mp he]
          exact ⟨rfl, p, hv, hname (hplain p v hv)⟩
        · rw [Set.mem_singleton_iff.mp hq]
          exact hname (hplain p v hv)
      refine .mono (hchildren ?_) fun _ s₁ h₁ ↦ (hself.trans h₁).mono hbelow
      rfl
    · next hexp =>
      rw [if_neg hexp] at hat
      refine .bind (.get ?_)
      refine (hchildren rfl).mono fun _ s₁ h₁ ↦ h₁.mono fun q hq v hv ↦ ?_
      rcases hbelow q hq v hv with rfl | hchild
      · rw [hv] at hat
        contradiction
      · exact hchild

end Persists

/-! ## Restarts -/

/-- A server whose log stands for the explicit permissions of its tree, all with plain names. -/
structure Logged (s : St) : Prop extends Idle s where
  plain : ∀ q v, logged s.log q = some v → q ≠ [] ∧ ∀ e ∈ q, plainElem e = true
  holds : Holds s.nodes (logged s.log)

theorem Logged.splitOn_intercalate (h : Logged s)
    (hv : logged s.log q = some v) : (['/'].intercalate q).splitOn '/' = q :=
  splitOn_intercalate_plain (h.plain q v hv).2 (h.plain q v hv).1

theorem replaying_fresh : Replaying (St.fresh clock done) where
  toIdle := idle_fresh clock done
  noMounts {q n} hn := by
    rw [St.fresh, lookup_insert_eq_ite] at hn
    split at hn
    · obtain ⟨⟩ := hn
      rfl
    · contradiction

theorem holds_fresh :
    Holds (St.fresh clock done).nodes fun _ ↦ none := by
  intro q
  rw [explicitAt, St.fresh, lookup_insert_eq_ite]
  split
  · rfl
  · rfl

/-- The new log stands for the same permissions as the old one, and so does the new tree. -/
theorem Logged.ensures_restart (h : Logged s) (clock : ℕ → ℤ) (done : ℕ → Bool) :
    Ensures (newPersistentStore cfg order s.log) (St.fresh clock done) fun _ s' ↦
      Logged s' ∧ logged s'.log = logged s.log := by
  refine .bind ((ensures_parseLog s.log (replaying_fresh clock done)
    (holds_fresh clock done)).mono ?_)
  rintro _ s₁ ⟨hreplayed, hlog, hholds⟩
  refine .bind (.get ((ensures_depthFirstPersist order hreplayed.rooted hholds
    (fun q v hv ↦ (h.plain q v hv).2) hreplayed.rooted.root (fun q hq ↦ ?_) (fun _ ↦
      rfl) rfl).mono ?_))
  · exact (length_lt_height hq).trans_le (Nat.le_add_right _ _)
  · rintro _ s₂ ⟨new, rfl, hsound, hall⟩
    have hnew : logged (s₁.log ++ new) = logged s.log := by
      rw [hlog, St.fresh, nil_append]
      have hagree : ∀ e ∈ new, e.D = false ∧ logged s.log (e.N.splitOn '/') = some e.V := by
        intro e he
        obtain ⟨hD, q, hq, hN⟩ := hsound e he
        rw [hN, h.splitOn_intercalate hq]
        exact ⟨hD, hq⟩
      funext q
      rw [logged_of_agree hagree]
      split
      · rfl
      · next hmem =>
        rcases hv : logged s.log q with _ | v
        · rfl
        · obtain ⟨e, he, hN⟩ := hall q List.nil_prefix v hv
          refine absurd (mem_map.mpr ⟨e, he, ?_⟩) hmem
          rw [hN, h.splitOn_intercalate hv]
    refine ⟨⟨⟨hreplayed.rooted, hreplayed.free⟩, ?_, ?_⟩, hnew⟩
    · dsimp only
      rw [hnew]
      exact h.plain
    · dsimp only
      rw [hnew]
      exact hholds

/-! ## Runs -/

inductive Event where
  | setPermissions (cc : CallContext) (name : Str) (perms : Option Permissions) (version : Str)
  | delete (cc : CallContext) (name : Str) (deleteSubTree : Bool)
  | mount (cc : CallContext) (name server : Str) (ttlsecs : ℕ) (flags : MountFlags)
  | unmount (cc : CallContext) (name server : Str)
  | restart (order : ChildOrder)

/-- The state in which a program returns. -/
def returned {α : Type} (x : M α) (s : St) : Option St :=
  match x s with
  | .ok _ s' => some s'
  | .error _ _ => none

theorem returned_eq_some_iff {α : Type} {x : M α} :
    returned x s = some s' ↔ ∃ a, x s = .ok a s' := by
  rw [returned]
  split
  · next hx => simp [hx]
  · next hx => simp [hx]

/-- A new server takes over. -/
def restart (cfg : Config) (order : ChildOrder) (s : St) : Option St :=
  returned (newPersistentStore cfg order s.log) (St.fresh s.clock s.done)

def step (cfg : Config) (s : St) : Event → Option St
  | .setPermissions cc name perms version => returned (setPermissions cfg cc name perms version) s
  | .delete cc name deleteSubTree => returned (delete cfg cc name deleteSubTree) s
  | .mount cc name server ttlsecs flags => returned (mount cfg cc name server ttlsecs flags) s
  | .unmount cc name server => returned (unmount cfg cc name server) s
  | .restart order => restart cfg order s

/-- Permissions are set under names with plain elements, and nothing is mounted above them. -/
def admissible (s : St) : Event → Bool
  | .setPermissions _ name _ _ => name ≠ [] && (elemsOf name).all plainElem
  | .mount _ name _ _ _ => s.nodes.keys.all fun q ↦
    !(decide (elemsOf name <+: q) && decide (q ≠ elemsOf name)) || (explicitAt s.nodes q).isNone
  | _ => true

theorem elemsOf_of_ne_nil (h : name ≠ []) : elemsOf name = name.splitOn '/' := if_neg h

theorem Logged.of_same (h : Logged s) (hidle : Idle s') (hlog : s'.log = s.log)
    (hexplicit : explicitAt s'.nodes = explicitAt s.nodes) : Logged s' := by
  refine ⟨hidle, ?_, fun q ↦ ?_⟩
  · rw [hlog]
    exact h.plain
  · rw [hexplicit, hlog]
    exact h.holds q

/-- A call that was rejected leaves the permissions that were set before. -/
theorem Logged.explicitAt_rejected (h : Holds t f) (hn : t.lookup p = some n) :
    explicitAt (AList.insert p { n with vPerms := some (n.vPerms.getD ⟨0, none⟩) } t) =
    explicitAt t := by
  funext q
  rw [explicitAt, lookup_insert_eq_ite]
  split
  · next heq =>
    subst heq
    have hq := h q
    rw [explicitAt, hn, bind_some] at hq ⊢
    rw [bind_some]
    dsimp only
    split
    · next hexp =>
      rw [if_pos hexp] at hq
      obtain ⟨v, -, hv⟩ := map_eq_some_iff.mp hq.symm
      rw [← hv]
      rfl
    · rfl
  · rfl

/-- One more entry, in the log and in the tree. -/
theorem Logged.concat {e : StoreElement} (h : Logged s) (hidle : Idle s')
    (hlog : s'.log = s.log ++ [e])
    (hplain : e.D = false → ∀ e' ∈ e.N.splitOn '/', plainElem e' = true)
    (hholds : Holds s'.nodes (e.apply (logged s.log))) : Logged s' := by
  refine ⟨hidle, fun q v hv ↦ ?_, ?_⟩
  · rw [hlog, logged_concat, apply] at hv
    split at hv
    · split at hv
      · exact nomatch hv
      · exact h.plain q v hv
    · next hD =>
      split at hv
      · next hq =>
        subst hq
        exact ⟨splitOn_ne_nil _ _, hplain (Bool.eq_false_of_not_eq_true hD)⟩
      · exact h.plain q v hv
  · rw [hlog, logged_concat]
    exact hholds

theorem Logged.setPermissions {version : Str} {perms : Option Permissions}
    (hcfg : cfg.persisting = true) (h : Logged s) (hname : name ≠ [])
    (hplain : ∀ e ∈ elemsOf name, plainElem e = true)
    (hrun : setPermissions cfg cc name perms version s = .ok r s') : Logged s' := by
  by_cases hnil : NilMapWrite cfg cc name perms s
  · exact (hnil.returns h.toIdle _ _ hrun).elim
  · obtain ⟨hidle, hout⟩ := (ensures_setPermissions name perms version h.toIdle
      hnil).returns _ _ hrun
    match r, hout with
    | _, .failed hstep _ hlog _ => exact h.of_same hidle hlog hstep.explicitAt
    | _, .rejected hat _ hnodes hlog =>
      have hholds : Holds _ (logged s.log) :=
        fun q ↦ (congrFun hat.step.explicitAt q).trans (h.holds q)
      refine h.of_same hidle hlog ?_
      rw [hnodes, Logged.explicitAt_rejected hholds hat.lookup, hat.step.explicitAt]
    | _, .set hat _ hnodes hlog =>
      rw [hcfg, if_pos rfl] at hlog
      rw [elemsOf_of_ne_nil hname] at hplain
      refine h.concat hidle hlog (fun _ ↦ hplain) fun q ↦ ?_
      rw [hnodes, explicitAt_set, hat.step.explicitAt, h.holds, apply,
        if_neg Bool.false_ne_true, elemsOf_of_ne_nil hname]
      split
      · rfl
      · rfl

theorem Logged.delete {deleteSubTree : Bool} (hcfg : cfg.persisting = true) (h : Logged s)
    (hrun : delete cfg cc name deleteSubTree s = .ok r s') : Logged s' := by
  obtain ⟨hidle, ⟨hlog, hexplicit⟩ | ⟨hne, hlog, hexplicit⟩⟩ :=
    (ensures_delete name deleteSubTree h.toIdle).returns _ _ hrun
  · exact h.of_same hidle hlog hexplicit
  · rw [hcfg, if_pos rfl] at hlog
    refine h.concat hidle hlog (fun hD ↦ nomatch hD) fun q ↦ ?_
    have hD : (deletion name).D = true := rfl
    have hN : (deletion name).N = name := rfl
    rw [hexplicit, h.holds, apply, if_pos hD, hN, elemsOf_of_ne_nil (by rintro rfl; exact hne rfl)]
    split
    · rfl
    · rfl

theorem Logged.mount {ttlsecs : ℕ} {flags : MountFlags} (h : Logged s)
    (hbelow : ∀ q, elemsOf name <+: q → q ≠ elemsOf name → explicitAt s.nodes q = none)
    (hrun : mount cfg cc name server ttlsecs flags s = .ok r s') : Logged s' := by
  obtain ⟨hidle, hlog, herror, hok⟩ :=
    (ensures_mount name server ttlsecs flags h.toIdle).returns _ _ hrun
  refine h.of_same hidle hlog ?_
  by_cases hr : r = .ok ()
  · funext q
    rw [hok hr]
    split
    · next hq => exact (hbelow q hq.1 hq.2).symm
    · rfl
  · exact herror hr

theorem Logged.unmount (h : Logged s)
    (hrun : unmount cfg cc name server s = .ok r s') : Logged s' := by
  by_cases hroot : elemsOf name = [] → ¬RootUseless cfg cc server s
  · obtain ⟨hidle, hlog, hexplicit⟩ := (ensures_unmount name server h.toIdle hroot).returns _ _ hrun
    exact h.of_same hidle hlog hexplicit
  · push Not at hroot
    exact (hroot.2.returns hroot.1 h.toIdle _ _ hrun).elim

theorem Logged.step (hcfg : cfg.persisting = true) (h : Logged s) {event : Event}
    (hok : admissible s event = true) (hstep : step cfg s event = some s') : Logged s' := by
  match event with
  | .setPermissions cc name perms version =>
    obtain ⟨r, hrun⟩ := returned_eq_some_iff.mp hstep
    rw [admissible, Bool.and_eq_true, decide_eq_true_eq, all_eq_true] at hok
    exact h.setPermissions hcfg hok.1 hok.2 hrun
  | .delete cc name deleteSubTree =>
    obtain ⟨r, hrun⟩ := returned_eq_some_iff.mp hstep
    exact h.delete hcfg hrun
  | .mount cc name server ttlsecs flags =>
    obtain ⟨r, hrun⟩ := returned_eq_some_iff.mp hstep
    rw [admissible, all_eq_true] at hok
    refine h.mount (fun q hle hne ↦ ?_) hrun
    by_contra hsome
    obtain ⟨v, hv⟩ := ne_none_iff_exists'.mp hsome
    obtain ⟨n, hn, -⟩ := bind_eq_some_iff.mp hv
    have := hok q (mem_keys_iff.mpr ⟨n, hn⟩)
    simp [hle, hne, hv] at this
  | .unmount cc name server =>
    obtain ⟨r, hrun⟩ := returned_eq_some_iff.mp hstep
    exact h.unmount hrun
  | .restart order =>
    obtain ⟨r, hrun⟩ := returned_eq_some_iff.mp hstep
    exact ((h.ensures_restart order s.clock s.done).returns _ _ hrun).1

theorem logged_fresh : Logged (St.fresh clock done) where
  toIdle := idle_fresh clock done
  plain _ _ hv := nomatch hv
  holds := holds_fresh clock done

/-- In every run in which permissions are set under names with plain elements and nothing is mounted
above them, a restart succeeds and finds the explicit permissions that were there. -/
theorem permissions_survive_restart (hcfg : cfg.persisting = true) {clock : ℕ → ℤ} {done : ℕ → Bool}
    {events : List Event}
    (h : Transition.run (Transition.guarded (fun s event ↦ admissible s event = true) (step cfg))
      (St.fresh clock done) events = some s) (order : ChildOrder) :
    ∃ s', restart cfg order s = some s' ∧ explicitAt s'.nodes = explicitAt s.nodes := by
  have hlogged : Logged s := Transition.guarded_invariant
    (fun _ _ _ hs hok hstep ↦ hs.step hcfg hok hstep) (logged_fresh clock done) h
  have hrestart : Ensures (newPersistentStore cfg order s.log) (St.fresh s.clock s.done) _ :=
    hlogged.ensures_restart order s.clock s.done
  obtain ⟨_, s', hrun, hlogged', hsame⟩ := hrestart
  refine ⟨s', returned_eq_some_iff.mpr ⟨_, hrun⟩, funext fun q ↦ ?_⟩
  rw [hlogged'.holds, hlogged.holds, hsame]

/-- Children in the order of the table. -/
def inOrder : ChildOrder := ⟨fun _ ks ↦ ks, fun _ ks ↦ .refl ks⟩

/-- Permissions are set twice, a server is mounted and unmounted, a node is deleted, and the server
is restarted in between. -/
def sampleRun : List Event :=
  [.setPermissions (caller ['a']) "x/y".toList (some ∅) [], .restart inOrder,
    .mount (caller ['a']) "x/z".toList ['s'] 60 ⟨false, false, false⟩,
    .setPermissions (caller ['a']) "x".toList (some ∅) [], .unmount (caller ['a']) "x/z".toList [],
    .delete (caller ['a']) "x/y".toList false]

theorem permissions_survive_restart_sampleRun :
    ∃ s s', Transition.run (Transition.guarded (fun s event ↦ admissible s event = true)
      (step plain))
        (St.fresh (fun _ ↦ 0) fun _ ↦ false) sampleRun = some s ∧
      restart plain inOrder s = some s' ∧ explicitAt s'.nodes = explicitAt s.nodes := by
  have hany : (Transition.run
      (Transition.guarded (fun s event ↦ admissible s event = true) (step plain))
      (St.fresh (fun _ ↦ 0) fun _ ↦ false) sampleRun).any (fun _ ↦ true) = true := by
    decide +kernel
  obtain ⟨s, hs, -⟩ := Transition.exists_run_of_any hany
  obtain ⟨s', hs', hsame⟩ := permissions_survive_restart rfl hs inOrder
  exact ⟨s, s', hs, hs', hsame⟩

/-- Whether there are explicit permissions for a path before and after a restart. -/
def aroundRestart (events : List Event) (q : Path) : Option (Bool × Bool) :=
  (Transition.run (step plain) (St.fresh (fun _ ↦ 0) fun _ ↦ false) events).bind fun s ↦
    (restart plain inOrder s).map fun s' ↦
      ((explicitAt s.nodes q).isSome, (explicitAt s'.nodes q).isSome)

/-- Permissions of the root are lost, permissions of a node below a mount come back, and permissions
under a name with an empty element are lost at the second restart. -/
theorem permissions_change_at_restart :
    aroundRestart [.setPermissions (caller ['a']) [] (some ∅) []] [] = some (true, false) ∧
    aroundRestart [.setPermissions (caller ['a']) "x/y".toList (some ∅) [],
      .mount (caller ['a']) "x".toList ['s'] 60 ⟨false, false, false⟩] [['x'], ['y']] =
        some (false, true) ∧
    aroundRestart [.setPermissions (caller ['a']) "x//y".toList (some ∅) [], .restart inOrder]
      [['x'], [], ['y']] = some (true, false) := by
  decide +kernel

end Vanadium.MountTable
