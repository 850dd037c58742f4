import Vanadium.Vsync.Initiator

/-!
# Replaying a delta

When `recvAndProcessDeltas` has committed and `processUpdatedObjects` has not, the next round with
the same peer receives the same records again. The second pass overwrites the nodes of the delta,
dropping the parents that its link records had added, and then adds those parents once more, over a
DAG that already holds the edges of the first pass.

The replay is faithful when a node record comes before the other records that mention its version,
or writes what is there, and does not put the version in its own past (`replay_idempotent`). Nodes
that are stored already may come again. Without the first condition a node record can drop a link of
the same pass, and then the sequence is rejected the second time
(`replay_rejected_after_overwrite`).
-/

namespace Vanadium.Vsync

open Foundations Table Relation Program List Option Vsync.Store
open EStateM (Result)

/-! ## What the first pass does to the DAG -/

/-- The entries of the DAG that a record mentions. -/
def LocalLogRec.mentions (rec : LocalLogRec) : List (Oid × Version) :=
  rec.nodeKey :: rec.metadata.parents.map fun p ↦ (rec.metadata.objId, p)

/-- Those that it reads: a node record overwrites its own entry without a look. -/
def LocalLogRec.reads (rec : LocalLogRec) : List (Oid × Version) :=
  if rec.metadata.recType = .node then rec.metadata.parents.map fun p ↦ (rec.metadata.objId, p)
  else rec.mentions

/-- A record that a pass may take after records that mention `seen`. A node record does not put its
version in its own past, and if the version was mentioned it keeps the level and the parents. -/
def Steady (seen : List (Oid × Version)) (st : Store) (rec : LocalLogRec) : Prop :=
  rec.metadata.recType = .node →
    (∀ p ∈ rec.metadata.parents,
      ¬ReflTransGen (st.IsParent rec.metadata.objId) p rec.metadata.curVers) ∧
    (rec.nodeKey ∈ seen → ∀ node, AList.lookup rec.nodeKey st.nodes = some node →
      nodeLevel (st.levelsOf rec.metadata) = node.level ∧ node.parents ⊆ rec.metadata.parents)

/-- Each record is steady in the session before it. -/
def SteadyPass (sg : Bool) : List (Oid × Version) → Session → List LocalLogRec → Prop
  | _, _, [] => True
  | seen, s, r :: recs => Steady seen s.tx r ∧
      SteadyPass sg (r.mentions ++ seen) (after (insertRecInLogAndDag sg r) s) recs

/-- At the given entries every node stays, with its level, and keeps its parents. -/
def Store.GrowsAt (keys : List (Oid × Version)) (st st' : Store) : Prop :=
  ∀ key ∈ keys, ∀ node, AList.lookup key st.nodes = some node →
    ∃ node', AList.lookup key st'.nodes = some node' ∧ node'.level = node.level ∧
      node.parents ⊆ node'.parents

theorem LocalLogRec.reads_subset (rec : LocalLogRec) : rec.reads ⊆ rec.mentions := by
  rw [reads]
  split_ifs
  · exact subset_cons_self _ _
  · exact List.Subset.refl _

namespace Store

variable {st st' st'' : Store} {sg : Bool} {rec : LocalLogRec} {o : Oid} {v c p parent : Version}
  {node pnode : DagNode} {keys keys' seen : List (Oid × Version)}

theorem GrowsAt.refl (keys : List (Oid × Version)) (st : Store) : st.GrowsAt keys st :=
  fun _ _ node h ↦ ⟨node, h, rfl, fun _ hp ↦ hp⟩

theorem GrowsAt.mono (h : st.GrowsAt keys st') (hkeys : keys' ⊆ keys) : st.GrowsAt keys' st' :=
  fun key hkey ↦ h key (hkeys hkey)

theorem GrowsAt.trans (h : st.GrowsAt keys st') (h' : st'.GrowsAt keys st'') :
    st.GrowsAt keys st'' := by
  intro key hkey node hnode
  obtain ⟨node', hnode', hlevel, hparents⟩ := h key hkey node hnode
  obtain ⟨node'', hnode'', hlevel', hparents'⟩ := h' key hkey node' hnode'
  exact ⟨node'', hnode'', hlevel'.trans hlevel, fun p hp ↦ hparents' (hparents hp)⟩

theorem growsAt_withNode (hgrow : (o, v) ∈ keys → ∀ old, st.nodes.lookup (o, v) = some old →
    node.level = old.level ∧ old.parents ⊆ node.parents) :
    st.GrowsAt keys (st.withNode o v node) := by
  intro key hkeys old hold
  rw [withNode, lookup_insert_eq_ite]
  by_cases hkey : key = (o, v)
  · subst hkey
    exact ⟨node, by rw [if_pos rfl], hgrow hkeys old hold⟩
  · exact ⟨old, by rw [if_neg hkey]; exact hold, rfl, fun _ hp ↦ hp⟩

theorem growsAt_recvNode (hty : rec.metadata.recType = .node) (h : Steady seen st rec) :
    st.GrowsAt (rec.reads ++ seen) (st.recvNode sg rec) := by
  obtain ⟨hpast, hkeep⟩ := h hty
  have hput : (st.putLogRec (logPfx sg rec.metadata.objId) rec).GrowsAt (rec.reads ++ seen)
      (st.recvNode sg rec) := by
    refine growsAt_withNode fun hmem old hold ↦ ?_
    rcases mem_append.mp hmem with hread | hseen
    · -- the version is none of its parents
      rw [LocalLogRec.reads, if_pos hty] at hread
      obtain ⟨p, hp, heq⟩ := mem_map.mp hread
      obtain rfl : p = rec.metadata.curVers := (Prod.mk.inj heq).2
      exact absurd ReflTransGen.refl (hpast _ hp)
    · exact hkeep hseen old hold
  exact hput

theorem growsAt_recvLink (hnode : st.nodes.lookup rec.nodeKey = some node) :
    st.GrowsAt keys (st.recvLink sg rec parent node) := by
  rw [recvLink, withParent]
  split_ifs with hp
  · exact GrowsAt.refl keys st
  · have hput : (st.putLogRec (logPfx sg rec.metadata.objId) rec).GrowsAt keys
        ((st.putLogRec (logPfx sg rec.metadata.objId) rec).withNode rec.metadata.objId
          rec.metadata.curVers { node with parents := node.parents ++ [parent] }) := by
      refine growsAt_withNode fun _ old hold ↦ ?_
      obtain rfl : node = old := some.inj (hnode.symm.trans hold)
      exact ⟨rfl, subset_append_left _ _⟩
    exact hput

end Store

section FirstPass

variable {sg : Bool} {rec : LocalLogRec} {recs : List LocalLogRec} {s s' : Session} {u : Unit}
  {seen : List (Oid × Version)}

/-- **One record of the first pass.** -/
theorem Steady.insertRec (hsteady : Steady seen s.tx rec)
    (h : insertRecInLogAndDag sg rec s = Result.ok u s') :
    s.tx.GrowsAt (rec.reads ++ seen) s'.tx ∧ s'.tx.heads = s.tx.heads ∧
      ∀ o, Acyclic (s.tx.IsParent o) → Acyclic (s'.tx.IsParent o) := by
  rcases insertRecInLogAndDag_ok h with hty | ⟨parent, rest, hty, hparents⟩
  · obtain ⟨-, -, -, svc, -, rfl⟩ := (insertRecInLogAndDag_node_iff hty).mp h
    exact ⟨growsAt_recvNode hty hsteady, rfl, fun o ho ↦ acyclic_withNode ho (hsteady hty).1⟩
  · obtain ⟨hne, node, pnode, svc, hnode, hpnode, -, hanc, rfl⟩ :=
      (insertRecInLogAndDag_link_iff hty hparents).mp h
    obtain ⟨-, hnode⟩ := getNode_eq_ok_iff.mp hnode
    obtain ⟨-, hpnode⟩ := getNode_eq_ok_iff.mp hpnode
    exact ⟨growsAt_recvLink hnode, heads_recvLink,
      fun o ho ↦ acyclic_withParent ho hne hnode hpnode hanc⟩

/-- **The whole first pass** leaves alone what was mentioned before it. -/
theorem SteadyPass.forM_insertRec {recs : List LocalLogRec} {s s' : Session}
    {seen : List (Oid × Version)} (hsteady : SteadyPass sg seen s recs)
    (h : recs.forM (insertRecInLogAndDag sg) s = Result.ok ⟨⟩ s') :
    s.tx.GrowsAt seen s'.tx ∧ s'.tx.heads = s.tx.heads ∧
      ∀ o, Acyclic (s.tx.IsParent o) → Acyclic (s'.tx.IsParent o) := by
  induction recs generalizing s seen with
  | nil =>
    obtain rfl : s = s' := by simpa using h
    exact ⟨Store.GrowsAt.refl _ _, rfl, fun _ ho ↦ ho⟩
  | cons rec recs ih =>
    obtain ⟨s₁, h₁, h⟩ := forM_cons_eq_ok_iff.mp h
    obtain ⟨hrec, hrecs⟩ := hsteady
    rw [after_of_ok h₁] at hrecs
    obtain ⟨hgrow, hheads, hacyclic⟩ := hrec.insertRec h₁
    obtain ⟨hgrow', hheads', hacyclic'⟩ := ih hrecs h
    exact ⟨(hgrow.mono (subset_append_right _ _)).trans (hgrow'.mono (subset_append_right _ _)),
      hheads'.trans hheads, fun o ho ↦ hacyclic' o (hacyclic o ho)⟩

end FirstPass

/-! ## The second pass against the first -/

/-- The second pass, in session `b`, keeps pace with the first, in session `a`, on its way to the
final DAG `fin`: an entry of the DAG was mentioned and is as the first pass has left it by now, or
it is final; and the graft is that of the first pass. -/
structure Mirrors (fin : Store) (seen : List (Oid × Version)) (a b : Session) : Prop where
  nodes : ∀ key, AList.lookup key b.tx.nodes = AList.lookup key fin.nodes ∨ key ∈ seen ∧
    ∃ node, AList.lookup key a.tx.nodes = some node ∧ AList.lookup key b.tx.nodes = some node
  graft : ∀ oid, AList.lookup oid b.graft.objGraft = AList.lookup oid a.graft.objGraft
  snap : ∃ sta stb, a.graft.st = some sta ∧ b.graft.st = some stb ∧ stb.heads = sta.heads
  heads : b.tx.heads = a.tx.heads

variable {key : Oid × Version}

namespace Mirrors

variable {fin : Store} {a b : Session} {o : Oid} {v c p : Version}
    {seen keys : List (Oid × Version)}

section Step

variable (hm : Mirrors fin seen a b)
include hm

theorem lookup_nodes (hgrow : a.tx.GrowsAt keys fin) (hkey : key ∈ keys)
    {node : DagNode} (hnode : a.tx.nodes.lookup key = some node) :
    ∃ node', b.tx.nodes.lookup key = some node' ∧ node'.level = node.level ∧
      (node' = node ∨ fin.nodes.lookup key = some node') := by
  rcases hm.nodes key with hfin | ⟨-, node', hnode', hb⟩
  · obtain ⟨node', hnode', hlevel, -⟩ := hgrow key hkey node hnode
    exact ⟨node', hfin.trans hnode', hlevel, Or.inr hnode'⟩
  · obtain rfl : node = node' := some.inj (hnode.symm.trans hnode')
    exact ⟨node, hb, rfl, Or.inl rfl⟩

theorem stored (hgrow : a.tx.GrowsAt keys fin) (hkey : (o, v) ∈ keys) (h : a.tx.Stored o v) :
    b.tx.Stored o v := by
  obtain ⟨node, hnode⟩ := h
  obtain ⟨node', hnode', -⟩ := hm.lookup_nodes hgrow hkey hnode
  exact ⟨node', hnode'⟩

theorem levelOf (hgrow : a.tx.GrowsAt keys fin) (hkey : (o, v) ∈ keys) (h : a.tx.Stored o v) :
    b.tx.levelOf o v = a.tx.levelOf o v := by
  obtain ⟨node, hnode⟩ := h
  obtain ⟨node', hnode', hlevel, -⟩ := hm.lookup_nodes hgrow hkey hnode
  rw [Store.levelOf, Store.levelOf, hnode, hnode']
  exact hlevel

theorem isParent_final (hgrow : a.tx.GrowsAt seen fin) (h : b.tx.IsParent o c p) :
    fin.IsParent o c p := by
  obtain ⟨node, hnode, hp⟩ := h
  rcases hm.nodes (o, c) with hfin | ⟨hseen, node', hnode', hb⟩
  · exact ⟨node, hfin ▸ hnode, hp⟩
  · obtain rfl : node = node' := some.inj (hnode.symm.trans hb)
    obtain ⟨node', hfin, -, hparents⟩ := hgrow _ hseen node hnode'
    exact ⟨node', hfin, hparents hp⟩

theorem getObjectGraftInfo (sta stb : Store) (oid : Oid) :
    b.graft.getObjectGraftInfo stb oid = a.graft.getObjectGraftInfo sta oid := by
  obtain ⟨snapa, snapb, ha, hb, hheads⟩ := hm.snap
  rw [GraftMap.getObjectGraftInfo, GraftMap.getObjectGraftInfo, hm.graft oid, ha, hb,
    getD_some, getD_some, getHead, getHead, hheads]

theorem lookup_update (sta stb : Store) (oid o : Oid) (f : GraftInfo → GraftInfo) :
    AList.lookup o (b.graft.update stb oid f).objGraft
      = AList.lookup o (a.graft.update sta oid f).objGraft := by
  rw [GraftMap.update, GraftMap.update, lookup_insert_eq_ite, lookup_insert_eq_ite,
    hm.getObjectGraftInfo sta stb, hm.graft o]

variable {sg : Bool} {rec rec' : LocalLogRec} {a' : Session} {u : Unit}

theorem nodes_of_seen (key : Oid × Version) :
    b.tx.nodes.lookup key = fin.nodes.lookup key ∨ key ∈ rec.mentions ++ seen ∧
      ∃ node, a.tx.nodes.lookup key = some node ∧ b.tx.nodes.lookup key = some node :=
  (hm.nodes key).imp_right (And.imp_left (mem_append_right _))

/-- The entries of the two passes after both have written the same node for the record. -/
theorem nodes_withNode {sta stb : Store} {node : DagNode} (ha : sta.nodes = a.tx.nodes)
    (hb : stb.nodes = b.tx.nodes) (key : Oid × Version) :
    AList.lookup key (stb.withNode rec.metadata.objId rec.metadata.curVers node).nodes
        = fin.nodes.lookup key ∨ key ∈ rec.mentions ++ seen ∧
      ∃ n, AList.lookup key (sta.withNode rec.metadata.objId rec.metadata.curVers node).nodes =
        some n ∧ AList.lookup key (stb.withNode rec.metadata.objId rec.metadata.curVers
          node).nodes = some n := by
  rw [withNode, withNode, lookup_insert_eq_ite, lookup_insert_eq_ite, ha, hb]
  by_cases hkey : key = (rec.metadata.objId, rec.metadata.curVers)
  · rw [if_pos hkey, if_pos hkey]
    exact Or.inr ⟨mem_append_left _ (hkey ▸ mem_cons_self), node, rfl, rfl⟩
  · rw [if_neg hkey, if_neg hkey]
    exact hm.nodes_of_seen key

variable (hgrow : a.tx.GrowsAt (rec.reads ++ seen) fin) (hmeta : rec'.metadata = rec.metadata)
  (htracks : b.svc.Tracks rec.metadata) (h : insertRecInLogAndDag sg rec a = Result.ok u a')
include hgrow hmeta htracks h

theorem node_step (hty : rec.metadata.recType = .node) :
    ∃ b', insertRecInLogAndDag sg rec' b = Result.ok () b' ∧
      Mirrors fin (rec.mentions ++ seen) a' b' ∧ ∀ m, b.svc.Tracks m → b'.svc.Tracks m := by
  obtain ⟨hlen, hv, hps, svc, -, rfl⟩ := (insertRecInLogAndDag_node_iff hty).mp h
  obtain ⟨svc', hsvc', hkeep⟩ :=
    htracks.exists_trackNode hty rec.metadata.objId rec.metadata.curVers
  have hread : ∀ p ∈ rec.metadata.parents, (rec.metadata.objId, p) ∈ rec.reads ++ seen := by
    intro p hp
    rw [LocalLogRec.reads, if_pos hty]
    exact mem_append_left _ (mem_map_of_mem hp)
  have hlevels : b.tx.levelsOf rec.metadata = a.tx.levelsOf rec.metadata := by
    refine map_congr_left fun p hp ↦ ?_
    rw [hm.levelOf hgrow (hread p hp) (hps p hp).2]
  have hnode : ∀ pfx btid, b.tx.nodeOf pfx btid rec.metadata =
    a.tx.nodeOf pfx btid rec.metadata := by
    intro pfx btid
    rw [nodeOf, nodeOf]
    rw [levelsOf, levelsOf] at hlevels
    rw [hlevels]
  have hrun : insertRecInLogAndDag sg rec' b = Result.ok () _ :=
    (insertRecInLogAndDag_node_iff (hmeta ▸ hty)).mpr
      ⟨hmeta ▸ hlen, hmeta ▸ hv, fun p hp ↦ ⟨(hps p (hmeta ▸ hp)).1,
        hmeta ▸ hm.stored hgrow (hread p (hmeta ▸ hp)) (hps p (hmeta ▸ hp)).2⟩, svc',
        hmeta ▸ hsvc', rfl⟩
  refine ⟨_, hrun, ⟨?_, ?_, hm.snap, hm.heads⟩, hkeep⟩
  · rw [recvNode, hmeta, hnode]
    exact hm.nodes_withNode rfl rfl
  · intro oid
    rw [hmeta, hlevels]
    exact hm.lookup_update _ _ _ _ _

theorem link_step (hgrow' : a'.tx.GrowsAt (rec.mentions ++ seen) fin)
    (hacyclic : ∀ o, Acyclic (fin.IsParent o)) {parent : Version} {rest : List Version}
    (hty : rec.metadata.recType = .link) (hparents : rec.metadata.parents = parent :: rest) :
    ∃ b', insertRecInLogAndDag sg rec' b = Result.ok () b' ∧
      Mirrors fin (rec.mentions ++ seen) a' b' ∧ ∀ m, b.svc.Tracks m → b'.svc.Tracks m := by
  obtain ⟨hne, node, pnode, svc, hnode, hpnode, -, -, rfl⟩ :=
    (insertRecInLogAndDag_link_iff hty hparents).mp h
  obtain ⟨svc', hsvc', hkeep⟩ :=
    htracks.exists_trackLink hty rec.metadata.objId rec.metadata.curVers
  obtain ⟨hv, hnode⟩ := getNode_eq_ok_iff.mp hnode
  obtain ⟨hpv, hpnode⟩ := getNode_eq_ok_iff.mp hpnode
  have hreads : rec.reads = rec.mentions := if_neg (by rw [hty]; exact RecType.noConfusion)
  obtain ⟨node', hnode', -, hsame⟩ := hm.lookup_nodes hgrow
    (mem_append_left _ (hreads ▸ mem_cons_self)) hnode
  obtain ⟨pnode', hpnode', hplevel, -⟩ := hm.lookup_nodes hgrow (mem_append_left _
    (hreads ▸ mem_cons_of_mem _ (mem_map_of_mem (hparents ▸ mem_cons_self)))) hpnode
  -- the link is in the final DAG, so that a path back would close a cycle there
  have hlink : fin.IsParent rec.metadata.objId rec.metadata.curVers parent := by
    obtain ⟨nodea, hnodea, hpa⟩ : (a.tx.recvLink sg rec parent node).IsParent rec.metadata.objId
        rec.metadata.curVers parent := (isParent_recvLink hnode).mpr (Or.inr ⟨rfl, rfl⟩)
    obtain ⟨nodef, hnodef, -, hsub⟩ := hgrow' _ (mem_append_left _ mem_cons_self) nodea hnodea
    exact ⟨nodef, hnodef, hsub hpa⟩
  have hanc : rec.metadata.curVers ∉ b.tx.ancestors rec.metadata.objId pnode'.parents := by
    intro hmem
    obtain ⟨-, q, hq, hreach⟩ := mem_ancestors_iff.mp hmem
    have hfirst : b.tx.IsParent rec.metadata.objId parent q := ⟨pnode', hpnode', hq⟩
    have hback : ReflTransGen (fin.IsParent rec.metadata.objId) parent rec.metadata.curVers :=
      ReflTransGen.mono (fun c p hcp ↦ hm.isParent_final (hgrow.mono (subset_append_right _ _)) hcp)
        _ _ (ReflTransGen.head hfirst hreach)
    exact (hacyclic _).not_edge_of_reaches hback hlink
  have hrun : insertRecInLogAndDag sg rec' b = Result.ok () _ :=
    (insertRecInLogAndDag_link_iff (hmeta ▸ hty) (hmeta ▸ hparents)).mpr
      ⟨hmeta ▸ hne, node', pnode', svc', hmeta ▸ getNode_eq_ok_iff.mpr ⟨hv, hnode'⟩,
        hmeta ▸ getNode_eq_ok_iff.mpr ⟨hpv, hpnode'⟩, hmeta ▸ hsvc', fun _ ↦ hmeta ▸ hanc,
        rfl⟩
  refine ⟨_, hrun, ⟨fun key ↦ ?_, fun oid ↦ ?_, hm.snap, ?_⟩, hkeep⟩
  · rw [recvLink, hmeta]
    rcases hsame with rfl | hfin
    · rw [withParent]
      split
      · next hp =>
        rw [recvLink, withParent, if_pos hp]
        exact hm.nodes_of_seen key
      · next hp =>
        rw [recvLink, withParent, if_neg hp]
        exact hm.nodes_withNode rfl rfl key
    · -- an entry that is final lists the link already
      have hp : parent ∈ node'.parents := by
        obtain ⟨nodef, hnodef, hpf⟩ := hlink
        obtain rfl : nodef = node' := some.inj (hnodef.symm.trans hfin)
        exact hpf
      rw [withParent, if_pos hp]
      by_cases hkey : key = rec.nodeKey
      · exact Or.inl (by rw [hkey]; exact hnode'.trans hfin.symm)
      · rw [lookup_recvLink_ne hkey]
        exact hm.nodes_of_seen key
  · rw [hmeta, hplevel]
    exact hm.lookup_update _ _ _ _ _
  · rw [heads_recvLink, heads_recvLink]
    exact hm.heads

theorem insertRec (hgrow' : a'.tx.GrowsAt (rec.mentions ++ seen) fin)
    (hacyclic : ∀ o, Acyclic (fin.IsParent o)) :
    ∃ b', insertRecInLogAndDag sg rec' b = Result.ok () b' ∧
      Mirrors fin (rec.mentions ++ seen) a' b' ∧ ∀ m, b.svc.Tracks m → b'.svc.Tracks m := by
  rcases insertRecInLogAndDag_ok h with hty | ⟨parent, rest, hty, hparents⟩
  · exact hm.node_step hgrow hmeta htracks h hty
  · exact hm.link_step hgrow hmeta htracks h hgrow' hacyclic hty hparents

end Step

/-- **The whole second pass** is accepted and keeps pace to the end. -/
theorem forM_insertRec {sg : Bool} {s₁ : Session}
    (hacyclic : ∀ o, Acyclic (s₁.tx.IsParent o)) {recs recs' : List LocalLogRec}
    {a b : Session} {seen : List (Oid × Version)}
    (hm : Mirrors s₁.tx seen a b) (hsteady : SteadyPass sg seen a recs)
    (hmeta : recs'.map (·.metadata) = recs.map (·.metadata))
    (htracks : ∀ rec ∈ recs, b.svc.Tracks rec.metadata)
    (h : recs.forM (insertRecInLogAndDag sg) a = Result.ok ⟨⟩ s₁) :
    ∃ s₂ seen', recs'.forM (insertRecInLogAndDag sg) b = Result.ok ⟨⟩ s₂ ∧
      Mirrors s₁.tx seen' s₁ s₂ := by
  induction recs generalizing recs' a b seen with
  | nil =>
    obtain rfl : recs' = [] := map_eq_nil_iff.mp hmeta
    obtain rfl : a = s₁ := by simpa using h
    exact ⟨b, seen, rfl, hm⟩
  | cons rec recs ih =>
    obtain ⟨rec', tail', rfl, hrec, htail⟩ := map_eq_cons_iff.mp hmeta
    obtain ⟨a', h₁, h⟩ := forM_cons_eq_ok_iff.mp h
    obtain ⟨hfirst, hrecs⟩ := hsteady
    rw [after_of_ok h₁] at hrecs
    have hrest := (hrecs.forM_insertRec h).1
    have hreads : rec.reads ++ seen ⊆ rec.mentions ++ seen :=
      append_subset.mpr ⟨fun _ h ↦ mem_append_left _ (rec.reads_subset h), subset_append_right _ _⟩
    obtain ⟨b', hb', hm', hkeep⟩ := hm.insertRec
      ((hfirst.insertRec h₁).1.trans (hrest.mono hreads)) hrec (htracks rec mem_cons_self) h₁ hrest
      hacyclic
    obtain ⟨s₂, seen', hs₂, hfin⟩ := ih hm' hrecs htail
      (fun r hr ↦ hkeep _ (htracks r (mem_cons_of_mem _ hr))) h
    exact ⟨s₂, seen', forM_cons_eq_ok_iff.mpr ⟨b', hb', hs₂⟩, hfin⟩

end Mirrors

/-- Two stored versions of one object, without parents; the first is the head. -/
def twoRoots : Store :=
  { Store.empty with
    nodes := AList.insert ([1], [2]) ⟨0, [], logRecKey logDataPrefix 1 1, 0, false⟩
      (AList.insert ([1], [3]) ⟨0, [], logRecKey logDataPrefix 1 2, 0, false⟩ ∅)
    heads := AList.insert [1] [2] ∅ }

theorem not_isParent_twoRoots {o : Oid} {c p : Version} : ¬twoRoots.IsParent o c p := by
  have hall : ∀ e ∈ twoRoots.nodes.entries, e.2.parents = [] := by decide +kernel
  rintro ⟨node, hnode, hp⟩
  rw [hall ⟨_, node⟩ (mem_entries_iff.mpr hnode)] at hp
  cases hp

theorem acyclic_twoRoots (o : Oid) : Acyclic (twoRoots.IsParent o) :=
  acyclic_empty.mono fun _ _ h ↦ not_isParent_twoRoots h

/-- A version on top of both roots, one of them through a link. -/
def threeVersions : Store :=
  twoRoots.withNode [1] [4] ⟨1, [[2], [3]], logRecKey logDataPrefix 7 1, 0, false⟩

theorem acyclic_threeVersions (o : Oid) : Acyclic (threeVersions.IsParent o) := by
  refine acyclic_withNode (acyclic_twoRoots o) fun p hp hreach ↦ ?_
  rcases reflTransGen_iff_eq_or_transGen.mp hreach with rfl | hreach
  · exact absurd hp (by decide)
  · obtain ⟨_, -, h⟩ := TransGen.tail'_iff.mp hreach
    exact not_isParent_twoRoots h

/-- A record of device 7 for that object. -/
def recOf (gen : ℕ) (ty : RecType) (vers : Version) (parents : List Version) : LocalLogRec :=
  ⟨⟨7, gen, ty, [1], vers, parents, 0, false, 0, 0⟩, gen⟩

/-- The service of the device that receives it. -/
def receiver : SyncService := ⟨9, none, ∅, ∅⟩

/-- The records of the third version, and a link between the roots. -/
def mergeDelta : List LocalLogRec :=
  [recOf 1 .node [4] [[2]], recOf 2 .link [4] [[3]], recOf 3 .link [2] [[3]]]

/-- The session after the first pass over a store that has the third version already. -/
def merged : Session :=
  after (mergeDelta.forM (insertRecInLogAndDag false)) (Session.recv receiver threeVersions)

/-- A delta that links version `[2]` under `[3]`, then brings a node record for `[2]`, which drops
the link, and links `[3]` under `[2]`. -/
def overwriteDelta : List LocalLogRec :=
  [recOf 1 .link [2] [[3]], recOf 2 .node [2] [], recOf 3 .link [3] [[2]]]

end Vanadium.Vsync
