import Vanadium.Foundations.Transition
import Vanadium.Vsync.Watcher

/-!
# The ancestor of a conflict

When the versions received in a round diverge from the local ones, `hasConflict` hands the graft
node with the largest level to the resolver. The edges between versions known before the round and
versions of the round are the only ways into the common past of the two heads, so this is a most
recent common ancestor as long as levels grow along every edge. `addNode` computes them so;
`addParent` leaves the level of the version as it is.
-/

namespace Vanadium.Vsync

open Foundations Relation Program Transition List Vsync.Store AList
open EStateM (Result)

/-- A call that adds to the DAG of one object. -/
inductive DagCall where
  | node (version : Version) (logrec : LogKey) (deleted : Bool) (parents : List Version)
      (btid : BatchId)
  | link (version parent : Version) (btid : BatchId)

def DagCall.exec (oid : Oid) (graft : Bool) : DagCall → SyncM Unit
  | .node version logrec deleted parents btid =>
    addNode oid version logrec deleted parents btid graft
  | .link version parent btid => addParent oid version parent btid graft

/-- A call, with or without the graft map. The transaction does not survive a call that fails. -/
def dagStep (oid : Oid) (s : Session) (c : DagCall × Bool) : Option Session :=
  match c.1.exec oid c.2 s with
  | .ok _ s' => some s'
  | .error _ _ => none

/-- A node is added once, and a version is linked to a parent of a smaller level. -/
def Ordered (oid : Oid) (s : Session) : DagCall × Bool → Prop
  | (.node version _ _ _ _, _) => AList.lookup (oid, version) s.tx.nodes = none
  | (.link version parent _, _) => s.tx.levelOf oid parent < s.tx.levelOf oid version

instance (oid : Oid) (s : Session) : ∀ c, Decidable (Ordered oid s c)
  | (.node _ _ _ _ _, _) => inferInstanceAs (Decidable (_ = _))
  | (.link _ _ _, _) => inferInstanceAs (Decidable (_ < _))

/-! ## Levels -/

variable {levels : List (Version × ℕ)} {g : GraftMap}

theorem lt_nodeLevel {e : Version × ℕ} (he : e ∈ levels) :
    e.2 < nodeLevel levels := by
  -- the level only grows, and after each parent it is above that parent
  have key : ∀ (l : List (Version × ℕ)) (n : ℕ),
      n ≤ l.foldl (fun level p ↦ if level ≤ p.2 then p.2 + 1 else level) n ∧
        ∀ e ∈ l, e.2 < l.foldl (fun level p ↦ if level ≤ p.2 then p.2 + 1 else level) n := by
    intro l
    induction l with
    | nil => simp
    | cons p l ih =>
      intro n
      obtain ⟨hle, hall⟩ := ih (if n ≤ p.2 then p.2 + 1 else n)
      rw [foldl_cons, forall_mem_cons]
      split_ifs at hle hall ⊢ <;> exact ⟨by omega, by omega, hall⟩
  exact (key levels 0).2 e he

namespace Store

variable {st st' : Store} {oid : Oid} {v p w : Version} {node : DagNode} {parents : List Version}

/-- Parents are stored, under a smaller level. -/
def Leveled (st : Store) (oid : Oid) : Prop :=
  ∀ c p, st.IsParent oid c p → st.Stored oid p ∧ st.levelOf oid p < st.levelOf oid c

/-- `st'` is `st` with edges from `v` to `parents`, which have smaller levels; `v` may be new. -/
structure Adds (oid : Oid) (st st' : Store) (v : Version) (parents : List Version) : Prop where
  edge : ∀ c p, st'.IsParent oid c p ↔ st.IsParent oid c p ∨ (c = v ∧ p ∈ parents)
  stored : ∀ w, st'.Stored oid w ↔ st.Stored oid w ∨ w = v
  level : ∀ w, st.Stored oid w → st'.levelOf oid w = st.levelOf oid w
  parents : ∀ p ∈ parents, p ≠ noVersion ∧ st.Stored oid p ∧ st'.levelOf oid p < st'.levelOf oid v

theorem Leveled.grows (h : st.Leveled oid) (hg : Adds oid st st' v parents) :
    st'.Leveled oid := by
  intro c p hcp
  rcases (hg.edge c p).mp hcp with hcp | ⟨rfl, hp⟩
  · obtain ⟨hp, hlt⟩ := h c p hcp
    rw [hg.level p hp, hg.level c hcp.stored]
    exact ⟨(hg.stored p).mpr (.inl hp), hlt⟩
  · obtain ⟨-, hstored, hlt⟩ := hg.parents p hp
    exact ⟨(hg.stored p).mpr (.inl hstored), hlt⟩

theorem levelOf_withNode :
    (st.withNode oid v node).levelOf oid w = if w = v then node.level else st.levelOf oid w := by
  rw [levelOf, withNode, Table.lookup_insert_eq_ite]
  by_cases h : w = v
  · simp [h]
  · rw [if_neg (fun heq ↦ h (Prod.ext_iff.mp heq).2), if_neg h, levelOf]

theorem adds_withNode {node : DagNode}
    (hv : st.nodes.lookup (oid, v) = none) (hlevels : st.parentLevels oid parents = .ok levels)
    (hnode : node.parents = parents) (hlevel : node.level = nodeLevel levels) :
    Adds oid st (st.withNode oid v node) v parents := by
  obtain ⟨hparents, rfl⟩ := parentLevels_eq_ok_iff.mp hlevels
  have hne : ∀ w, st.Stored oid w → w ≠ v := by
    rintro _ ⟨node, hnode⟩ rfl
    rw [hv] at hnode
    contradiction
  refine ⟨fun c p ↦ ?_, fun w ↦ ?_, fun w hw ↦ ?_, fun p hp ↦ ?_⟩
  · rw [isParent_withNode, hnode]
    by_cases hc : c = v
    · subst hc
      rw [if_pos rfl]
      exact ⟨fun hp ↦ .inr ⟨rfl, hp⟩, fun h ↦
        h.elim (fun h ↦ absurd rfl (hne c h.stored)) And.right⟩
    · rw [if_neg (fun h ↦ hc (Prod.ext_iff.mp h).2)]
      simp [hc]
  · rw [stored_withNode, Prod.mk.injEq, or_comm]
    simp
  · rw [levelOf_withNode, if_neg (hne w hw)]
  · obtain ⟨hp0, hps⟩ := hparents p hp
    rw [levelOf_withNode, if_neg (hne p hps), levelOf_withNode, if_pos rfl, hlevel]
    exact ⟨hp0, hps, lt_nodeLevel (e := (p, st.levelOf oid p)) (mem_map.mpr ⟨p, hp, rfl⟩)⟩

theorem adds_withParent {pnode : DagNode} (hnode : st.nodes.lookup (oid, v) = some node)
    (hpnode : st.getNode oid p = .ok pnode) (hlt : st.levelOf oid p < st.levelOf oid v) :
    Adds oid st (st.withParent oid v p node) v [p] := by
  have hlevel : ∀ w, (st.withParent oid v p node).levelOf oid w = st.levelOf oid w := by
    intro w
    rw [withParent]
    split_ifs
    · rfl
    · rw [levelOf_withNode]
      split_ifs with hw
      · rw [hw, levelOf, hnode]
        rfl
      · rfl
  obtain ⟨hp0, hp⟩ := getNode_eq_ok_iff.mp hpnode
  refine ⟨fun c q ↦ ?_, fun w ↦ ?_, fun w _ ↦ hlevel w, ?_⟩
  · rw [isParent_withParent hnode, Prod.mk.injEq, mem_singleton]
    simp
  · rw [stored_withParent hnode]
    exact ⟨Or.inl, fun h ↦ h.elim id fun h ↦ ⟨node, h ▸ hnode⟩⟩
  · intro q hq
    obtain rfl := mem_singleton.mp hq
    rw [hlevel, hlevel]
    exact ⟨hp0, ⟨pnode, hp⟩, hlt⟩

end Store

/-! ## Grafts -/

namespace GraftInfo

variable {info : GraftInfo} {f : Version → ℕ} {parents : List Version} {v p : Version}

theorem addNode_eq (info : GraftInfo) (v : Version) (f : Version → ℕ) (parents : List Version) :
    ∃ graftNodes, info.addNode v (parents.map fun p ↦ (p, f p)) =
        ⟨info.newNodes.insert v, (info.newHeads.filter (· ∉ parents)).insert v, graftNodes,
          info.oldHeadSnap⟩ ∧
      ∀ q, graftNodes.lookup q =
        if q ∈ parents ∧ q ∉ info.newNodes then some (f q) else info.graftNodes.lookup q := by
  rw [addNode]
  induction parents generalizing info with
  | nil => exact ⟨info.graftNodes, by simp, by simp⟩
  | cons p parents ih =>
    rw [map_cons, foldl_cons]
    obtain ⟨graftNodes, heq, hlook⟩ := ih
      { info with
        graftNodes := if p ∈ info.newNodes then info.graftNodes else info.graftNodes.insert p (f p)
        newHeads := info.newHeads.filter (· ≠ p) }
    refine ⟨graftNodes, heq.trans ?_, fun q ↦ (hlook q).trans ?_⟩
    · simp only [filter_filter, mem_cons, not_or, GraftInfo.mk.injEq, true_and, and_true]
      congr 1
      refine filter_congr fun w _ ↦ ?_
      by_cases hwp : w = p <;> simp [hwp]
    · by_cases hp : p ∈ info.newNodes
      · by_cases hq : q = p
        · simp [hp, hq]
        · simp [hp, hq]
      · by_cases hq : q = p
        · subst hq
          simp [hp]
        · simp [hp, hq, lookup_insert_ne hq]

/-- `info'` is `info` after edges from `v` to `parents`: parents on the other side become graft
nodes, and no parent stays a candidate for head. -/
structure Grows (oid : Oid) (st : Store) (info info' : GraftInfo) (v : Version)
    (parents : List Version) : Prop where
  new : ∀ w, w ∈ info'.newNodes ↔ w ∈ info.newNodes ∨ (w = v ∧ ¬st.Stored oid v)
  graft : ∀ q, AList.lookup q info'.graftNodes =
    if q ∈ parents ∧ ¬(v ∈ info'.newNodes ↔ q ∈ info.newNodes) then some (st.levelOf oid q)
    else AList.lookup q info.graftNodes
  heads : ∀ w ∈ info'.newHeads, w ∉ parents ∧ (w ∈ info.newHeads ∨ (w = v ∧ ¬st.Stored oid v))
  nodup : info.newHeads.Nodup → info'.newHeads.Nodup
  snap : info'.oldHeadSnap = info.oldHeadSnap

theorem grows_addNode {oid : Oid} {st : Store} (hv : ¬st.Stored oid v)
    (hparents : ∀ p ∈ parents, st.Stored oid p) :
    Grows oid st info (info.addNode v (parents.map fun p ↦ (p, st.levelOf oid p))) v parents := by
  obtain ⟨graftNodes, heq, hlook⟩ := addNode_eq info v (st.levelOf oid) parents
  rw [heq]
  refine ⟨fun w ↦ ?_, fun q ↦ ?_, fun w hw ↦ ?_, fun h ↦ (h.filter _).insert, rfl⟩
  · rw [mem_insert_iff, or_comm]
    simp [hv]
  · rw [hlook]
    simp
  · rcases mem_insert_iff.mp hw with rfl | hw
    · exact ⟨fun hp ↦ hv (hparents w hp), .inr ⟨rfl, hv⟩⟩
    · rw [mem_filter, decide_eq_true_iff] at hw
      exact ⟨hw.2, .inl hw.1⟩

theorem grows_addParent {oid : Oid} {st : Store} (hv : st.Stored oid v) :
    Grows oid st info (info.addParent v p (st.levelOf oid p)) v [p] := by
  refine ⟨fun w ↦ ?_, fun q ↦ ?_, fun w hw ↦ ?_, fun h ↦ h.filter _, rfl⟩
  · simp [hv, addParent]
  · by_cases hvn : v ∈ info.newNodes <;> by_cases hpn : p ∈ info.newNodes <;>
      rcases eq_or_ne q p with rfl | hq <;> simp_all [addParent, lookup_insert_ne]
  · rw [addParent, mem_filter, decide_eq_true_iff] at hw
    exact ⟨by simpa using hw.2, .inl hw.1⟩

end GraftInfo

/-- The graft entry of an object describes how its DAG grew from the versions `old` below `head`. -/
structure Grafted (oid : Oid) (old : Version → Prop) (head : Version) (st : Store)
    (info : GraftInfo) : Prop where
  leveled : st.Leveled oid
  stored : ∀ v, st.Stored oid v ↔ old v ∨ v ∈ info.newNodes
  fresh : ∀ v ∈ info.newNodes, ¬old v
  under : ∀ v, old v → ReflTransGen (st.IsParent oid) head v
  graft : ∀ c p, st.IsParent oid c p → ¬(c ∈ info.newNodes ↔ p ∈ info.newNodes) →
    AList.lookup p info.graftNodes = some (st.levelOf oid p)
  crossed : ∀ p l, AList.lookup p info.graftNodes = some l → l = st.levelOf oid p ∧ p ≠ noVersion ∧
    ∃ c, st.IsParent oid c p ∧ ¬(c ∈ info.newNodes ↔ p ∈ info.newNodes)
  heads : ∀ v ∈ info.newHeads, (v = head ∨ v ∈ info.newNodes) ∧ ∀ c, ¬st.IsParent oid c v
  nodup : info.newHeads.Nodup
  snap : info.oldHeadSnap = head

section Grafted

variable {oid : Oid} {old : Version → Prop} {head : Version} {st st' : Store}
    {info info' : GraftInfo}
  {v : Version} {parents : List Version}

/-- **One call.** -/
theorem Grafted.grows (h : Grafted oid old head st info) (hg : Store.Adds oid st st' v parents)
    (hi : GraftInfo.Grows oid st info info' v parents) : Grafted oid old head st' info' := by
  -- a version that was stored before is on the side where it was
  have hside : ∀ w, st.Stored oid w → (w ∈ info'.newNodes ↔ w ∈ info.newNodes) := by
    intro w hw
    rw [hi.new]
    exact ⟨fun h ↦ h.elim id fun hv ↦ absurd (hv.1 ▸ hw) hv.2, .inl⟩
  have hlevel : ∀ c p, st.IsParent oid c p → st'.levelOf oid p = st.levelOf oid p :=
    fun c p hcp ↦ hg.level p (h.leveled c p hcp).1
  have hcross : ∀ c p, st.IsParent oid c p →
      ((c ∈ info'.newNodes ↔ p ∈ info'.newNodes) ↔ (c ∈ info.newNodes ↔ p ∈ info.newNodes)) :=
    fun c p hcp ↦ iff_congr (hside c hcp.stored) (hside p (h.leveled c p hcp).1)
  refine ⟨h.leveled.grows hg, fun w ↦ ?_, fun w hw ↦ ?_, fun w hw ↦ ?_, fun c p hcp hne ↦ ?_,
    fun p l hl ↦ ?_, fun w hw ↦ ?_, hi.nodup h.nodup, hi.snap.trans h.snap⟩
  · rw [hg.stored, h.stored, hi.new]
    constructor
    · rintro ((hw | hw) | rfl)
      · exact .inl hw
      · exact .inr (.inl hw)
      · by_cases hv : st.Stored oid w
        · exact ((h.stored w).mp hv).imp_right .inl
        · exact .inr (.inr ⟨rfl, hv⟩)
    · rintro (hw | hw | hw)
      · exact .inl (.inl hw)
      · exact .inl (.inr hw)
      · exact .inr hw.1
  · rcases (hi.new w).mp hw with hw | ⟨rfl, hw⟩
    · exact h.fresh w hw
    · exact fun hold ↦ hw ((h.stored w).mpr (.inl hold))
  · exact ReflTransGen.mono (fun c p hcp ↦ (hg.edge c p).mpr (.inl hcp)) _ _ (h.under w hw)
  · rcases (hg.edge c p).mp hcp with hcp | ⟨rfl, hp⟩
    · rw [hcross c p hcp] at hne
      rw [hi.graft, h.graft c p hcp hne, hlevel c p hcp, ite_self]
    · obtain ⟨-, hstored, -⟩ := hg.parents p hp
      rw [hside p hstored] at hne
      rw [hi.graft, if_pos ⟨hp, hne⟩, hg.level p hstored]
  · rw [hi.graft] at hl
    split_ifs at hl with hp
    · obtain ⟨hp0, hstored, -⟩ := hg.parents p hp.1
      refine ⟨by rw [hg.level p hstored, Option.some.inj hl], hp0, v,
        (hg.edge v p).mpr (.inr ⟨rfl, hp.1⟩), ?_⟩
      rw [hside p hstored]
      exact hp.2
    · obtain ⟨rfl, hp0, c, hcp, hne⟩ := h.crossed p l hl
      exact ⟨(hlevel c p hcp).symm, hp0, c, (hg.edge c p).mpr (.inl hcp), by rwa [hcross c p hcp]⟩
  · obtain ⟨hwp, hw⟩ := hi.heads w hw
    refine ⟨?_, fun c hcw ↦ ?_⟩
    · rcases hw with hw | hw
      · exact (h.heads w hw).1.imp_right fun hw ↦ (hi.new w).mpr (.inl hw)
      · exact .inr ((hi.new w).mpr (.inr hw))
    · rcases (hg.edge c w).mp hcw with hcw | hcw
      · rcases hw with hw | ⟨rfl, hw⟩
        · exact (h.heads w hw).2 c hcw
        · exact hw (h.leveled c w hcw).1
      · exact hwp hcw.2

theorem Grafted.initial (hst : st.Leveled oid) (hhead : st.Stored oid head)
    (hunder : ∀ v, st.Stored oid v → ReflTransGen (st.IsParent oid) head v) :
    Grafted oid (st.Stored oid) head st ⟨[], [head], ∅, head⟩ := by
  refine ⟨hst, by simp, by simp, hunder, by simp, by simp, ?_, by simp, rfl⟩
  intro v hv
  obtain rfl := mem_singleton.mp hv
  refine ⟨Or.inl rfl, fun c hcv ↦ ?_⟩
  have hle := rank_le_of_reaches (fun a b hab ↦ (hst a b hab).2) (hunder c hcv.stored)
  exact hle.not_gt (hst c v hcv).2

/-- **Graft nodes are common ancestors**, when the new versions are below the new head `n`. -/
theorem Grafted.common {n : Version} (h : Grafted oid old head st info)
    (hn : ∀ v ∈ info.newNodes, ReflTransGen (st.IsParent oid) n v) (hheads : head ∈ info.newHeads)
    (hnheads : n ∈ info.newHeads) {p : Version} {l : ℕ} (hp : info.graftNodes.lookup p = some l) :
    TransGen (st.IsParent oid) head p ∧ TransGen (st.IsParent oid) n p := by
  obtain ⟨-, -, c, hcp, hne⟩ := h.crossed p l hp
  have hreach : ReflTransGen (st.IsParent oid) head p ∧ ReflTransGen (st.IsParent oid) n p := by
    have hc := (h.stored c).mp hcp.stored
    have hp := (h.stored p).mp (h.leveled c p hcp).1
    by_cases hpn : p ∈ info.newNodes
    · exact ⟨(h.under c (by tauto)).tail hcp, hn p hpn⟩
    · exact ⟨h.under p (by tauto), (hn c (by tauto)).tail hcp⟩
  -- a candidate for head has no children, so the graft node is neither of them
  have hproper : ∀ a ∈ info.newHeads, ReflTransGen (st.IsParent oid) a p →
    TransGen (st.IsParent oid) a p := by
    intro a ha hap
    rcases reflTransGen_iff_eq_or_transGen.mp hap with rfl | hap
    · exact absurd hcp ((h.heads p ha).2 c)
    · exact hap
  exact ⟨hproper head hheads hreach.1, hproper n hnheads hreach.2⟩

/-- **Common ancestors are below graft nodes**: a walk to one from the head on the other side
crosses over. -/
theorem Grafted.exists_graft {n x : Version} (h : Grafted oid old head st info) (hhead : old head)
    (hn : n ∈ info.newNodes) (hx : ReflTransGen (st.IsParent oid) head x)
    (hnx : ReflTransGen (st.IsParent oid) n x) :
    ∃ p, info.graftNodes.lookup p = some (st.levelOf oid p) ∧
    st.levelOf oid x ≤ st.levelOf oid p := by
  have hrank : ∀ a b, st.IsParent oid a b → st.levelOf oid b < st.levelOf oid a :=
    fun a b hab ↦ (h.leveled a b hab).2
  by_cases hxnew : x ∈ info.newNodes
  · obtain ⟨c, p, hcp, hc, hp, hpx⟩ := exists_crossing (P := (· ∉ info.newNodes)) hx
      (fun hnew ↦ h.fresh head hnew hhead) (not_not.mpr hxnew)
    exact ⟨p, h.graft c p hcp (by tauto), rank_le_of_reaches hrank hpx⟩
  · obtain ⟨c, p, hcp, hc, hp, hpx⟩ := exists_crossing (P := (· ∈ info.newNodes)) hnx hn hxnew
    exact ⟨p, h.graft c p hcp (by tauto), rank_le_of_reaches hrank hpx⟩

end Grafted

/-! ## Calls with a graft map -/

section Calls

variable {oid : Oid} {old : Version → Prop} {head : Version} {s s' : Session} {c : DagCall}

theorem GraftMap.getObjectGraftInfo_update {st st₁ st₂ : Store} {f : GraftInfo → GraftInfo}
    (h : st₁.heads = st.heads) :
    (g.update st₁ oid f).getObjectGraftInfo st₂ oid = f (g.getObjectGraftInfo st oid) := by
  have hinfo : g.getObjectGraftInfo st₁ oid = g.getObjectGraftInfo st oid := by
    rw [getObjectGraftInfo, getObjectGraftInfo]
    rcases g.st with _ | gst
    · rw [Option.getD_none, Option.getD_none, getHead, getHead, h]
    · rfl
  rw [← hinfo, getObjectGraftInfo, update]
  simp only [lookup_insert]

theorem Store.heads_withParent {st : Store} {v p : Version} {node : DagNode} :
    (st.withParent oid v p node).heads = st.heads := by
  rw [withParent]
  split_ifs <;> rfl

/-- What a call does to the DAG of its object and to the graft entry. -/
theorem dagStep_grows {graft : Bool} (hord : Ordered oid s (c, graft))
    (h : dagStep oid s (c, graft) = some s') : ∃ v parents, Store.Adds oid s.tx s'.tx v parents ∧
    s'.tx.heads = s.tx.heads ∧
      (graft = true → GraftInfo.Grows oid s.tx (s.graft.getObjectGraftInfo s.tx oid)
        (s'.graft.getObjectGraftInfo s'.tx oid) v parents) := by
  rw [dagStep] at h
  split at h
  · next s'' hexec =>
    cases h
    rcases c with ⟨v, logrec, deleted, parents, btid⟩ | ⟨v, p, btid⟩
    · obtain ⟨-, -, levels, svc, hlevels, -, rfl⟩ := addNode_eq_ok_iff.mp hexec
      refine ⟨v, parents, adds_withNode hord hlevels rfl rfl, rfl, ?_⟩
      rintro rfl
      obtain ⟨hparents, rfl⟩ := parentLevels_eq_ok_iff.mp hlevels
      rw [Session.withNode, if_pos rfl,
        GraftMap.getObjectGraftInfo_update (show (s.tx.withNode oid v _).heads =
          s.tx.heads from rfl)]
      refine GraftInfo.grows_addNode ?_ fun p hp ↦ (hparents p hp).2
      rintro ⟨node, hnode⟩
      rw [hord] at hnode
      contradiction
    · obtain ⟨-, node, pnode, svc, hnode, hpnode, -, -, rfl⟩ := addParent_eq_ok_iff.mp hexec
      have hv := (getNode_eq_ok_iff.mp hnode).2
      refine ⟨v, [p], adds_withParent hv hpnode hord, heads_withParent, ?_⟩
      rintro rfl
      have hlevel : pnode.level = s.tx.levelOf oid p := by
        rw [levelOf, (getNode_eq_ok_iff.mp hpnode).2]
        rfl
      rw [Session.withParent, if_pos rfl,
        GraftMap.getObjectGraftInfo_update heads_withParent, hlevel]
      exact GraftInfo.grows_addParent ⟨node, hv⟩
  · contradiction

end Calls

/-! ## The choice -/

theorem bestAncestor_spec {t : Table Version ℕ} (hne : t.entries ≠ [])
    (h0 : ∀ e ∈ t.entries, e.1 ≠ noVersion) :
    ∃ e ∈ t.entries, bestAncestor t = e.1 ∧ ∀ e' ∈ t.entries, e'.2 ≤ e.2 := by
  let f := fun (best : ℕ × Version) (e : (_ : Version) × ℕ) ↦
    if best.1 < e.2 ∨ (best.1 = e.2 ∧ best.2 < e.1) then (e.2, e.1) else best
  have key : ∀ (l : List ((_ : Version) × ℕ)) (b : ℕ × Version),
      b.1 ≤ (l.foldl f b).1 ∧ (∀ e ∈ l, e.2 ≤ (l.foldl f b).1) ∧
        (l.foldl f b = b ∨ ∃ e ∈ l, l.foldl f b = (e.2, e.1)) := by
    intro l
    induction l with
    | nil => simp
    | cons e l ih =>
      intro b
      obtain ⟨hle, hall, heq⟩ := ih (f b e)
      have hf : b.1 ≤ (f b e).1 ∧ e.2 ≤ (f b e).1 ∧ (f b e = b ∨ f b e = (e.2, e.1)) := by
        by_cases hlt : b.1 < e.2 ∨ (b.1 = e.2 ∧ b.2 < e.1)
        · simp only [f, if_pos hlt]
          exact ⟨by omega, le_rfl, .inr trivial⟩
        · simp only [f, if_neg hlt]
          exact ⟨le_rfl, by omega, .inl trivial⟩
      rw [foldl_cons]
      refine ⟨hf.1.trans hle, ?_, ?_⟩
      · rw [forall_mem_cons]
        exact ⟨hf.2.1.trans hle, hall⟩
      · rcases heq with heq | ⟨e', he', heq⟩
        · rw [heq]
          exact hf.2.2.imp_right fun h ↦ ⟨e, mem_cons_self, h⟩
        · exact .inr ⟨e', mem_cons_of_mem _ he', heq⟩
  obtain ⟨e, l, hl⟩ := exists_cons_of_ne_nil hne
  -- the first node is taken, whatever its level
  have hfirst : f (0, noVersion) e = (e.2, e.1) := by
    refine if_pos ?_
    obtain ⟨b, v, hv⟩ := exists_cons_of_ne_nil (h0 e (by rw [hl]; exact mem_cons_self))
    rw [hv]
    exact (Nat.eq_zero_or_pos e.2).symm.imp_right fun h ↦ ⟨h.symm, List.Lex.nil⟩
  have hbest : bestAncestor t = (l.foldl f (e.2, e.1)).2 := by
    change (t.entries.foldl f (0, noVersion)).2 = _
    rw [hl, foldl_cons, hfirst]
  obtain ⟨hle, hall, heq⟩ := key l (e.2, e.1)
  rw [hl, hbest]
  rcases heq with heq | ⟨e', he', heq⟩
  · rw [heq] at hle hall ⊢
    exact ⟨e, mem_cons_self, rfl, forall_mem_cons.mpr ⟨le_rfl, hall⟩⟩
  · rw [heq] at hle hall ⊢
    exact ⟨e', mem_cons_of_mem _ he', rfl, forall_mem_cons.mpr ⟨hle, hall⟩⟩

theorem hasConflict_two {st : Store} {oid : Oid} {info : GraftInfo} {c : HeadConflict}
    {head : Version} (hinfo : g.objGraft.lookup oid = some info) (htwo : info.newHeads.length = 2)
    (hnodup : info.newHeads.Nodup) (hhead : st.getHead oid = .ok head)
    (hsnap : info.oldHeadSnap = head)
    (hc : hasConflict st oid (some g) = .ok c) :
    c.oldHead = head ∧ c.ancestor = bestAncestor info.graftNodes ∧ c.newHead ∈ info.newHeads ∧
      c.newHead ≠ head := by
  obtain ⟨h₁, h₂, hheads⟩ := length_eq_two.mp htwo
  rw [hasConflict, hinfo] at hc
  simp only [hheads, hhead, hsnap, Except.ok.injEq] at hc
  subst hc
  rw [hheads, nodup_cons, mem_singleton] at hnodup
  refine ⟨rfl, rfl, ?_, ?_⟩
  · rw [hheads]
    split_ifs
    exacts [mem_cons_self, mem_cons_of_mem _ mem_cons_self]
  · split_ifs with h
    · exact h
    · rw [not_not.mp h] at hnodup
      exact fun h ↦ hnodup.1 h.symm

/-- **The conflict ancestor is a most recent common ancestor.** The DAG of the object is built by
the calls `base`, and all its versions are below its head; the calls `delta` of a round add versions
that are all below one of them. -/
theorem conflict_ancestor_most_recent {oid : Oid} {s₀ s₁ s₂ s₃ : Session}
    {base delta : List (DagCall × Bool)} {head new : Version} {g : GraftMap} {info : GraftInfo}
    {c : HeadConflict}
    (hempty : ∀ v, ¬s₀.tx.Stored oid v)
    (hbase : run (guarded (Ordered oid) (dagStep oid)) s₀ base = some s₁)
    (hhead : moveHead oid head s₁ = .ok () s₂)
    (hunder : ∀ v, s₂.tx.Stored oid v → ReflTransGen (s₂.tx.IsParent oid) head v)
    (hg : AList.lookup oid g.objGraft = none) (hgst : ∀ st ∈ g.st, st.getHead oid = .ok head)
    (hdelta : run (guarded (fun s c ↦ c.2 = true ∧ Ordered oid s c) (dagStep oid))
      { s₂ with graft := g } delta = some s₃)
    (hinfo : s₃.graft.objGraft.lookup oid = some info) (hnew : new ∈ info.newNodes)
    (hbelow : ∀ v ∈ info.newNodes, ReflTransGen (s₃.tx.IsParent oid) new v)
    (htwo : info.newHeads.length = 2) (hgraft : info.graftNodes.entries ≠ [])
    (hc : hasConflict s₃.tx oid (some s₃.graft) = .ok c) :
    TransGen (s₃.tx.IsParent oid) c.oldHead c.ancestor ∧
    TransGen (s₃.tx.IsParent oid) c.newHead c.ancestor ∧
      ∀ x, ReflTransGen (s₃.tx.IsParent oid) c.oldHead x →
        ReflTransGen (s₃.tx.IsParent oid) c.newHead x →
          ¬TransGen (s₃.tx.IsParent oid) x c.ancestor := by
  have hlev : s₁.tx.Leveled oid := by
    refine guarded_invariant (I := fun s ↦ s.tx.Leveled oid) (fun s a t hs hord hstep ↦ ?_) ?_ hbase
    · obtain ⟨v, parents, hgrows, -⟩ := dagStep_grows hord hstep
      exact hs.grows hgrows
    · exact fun c p hcp ↦ absurd hcp.stored (hempty c)
  obtain ⟨-, hstored, rfl⟩ := moveHead_eq_ok_iff.mp hhead
  have hgrafted : s₃.tx.heads = insert oid head s₁.tx.heads ∧
      Grafted oid (s₁.tx.Stored oid) head s₃.tx (s₃.graft.getObjectGraftInfo s₃.tx oid) := by
    refine guarded_invariant (I := fun s ↦ s.tx.heads = insert oid head s₁.tx.heads ∧
      Grafted oid (s₁.tx.Stored oid) head s.tx (s.graft.getObjectGraftInfo s.tx oid))
      (fun s a t hs hok hstep ↦ ?_) ⟨rfl, ?_⟩ hdelta
    · obtain ⟨v, parents, hgrows, hheads, hinfo⟩ := dagStep_grows hok.2 hstep
      exact ⟨hheads.trans hs.1, hs.2.grows hgrows (hinfo hok.1)⟩
    · have hsnap : g.getObjectGraftInfo { s₁.tx with heads := insert oid head s₁.tx.heads } oid =
          ⟨[], [head], ∅, head⟩ := by
        rw [GraftMap.getObjectGraftInfo, hg]
        rcases hst : g.st with _ | st
        · simp only [Option.getD_none, getHead, lookup_insert]
        · simp only [Option.getD_some, hgst st hst]
      rw [hsnap]
      exact Grafted.initial
        (show Store.Leveled { s₁.tx with heads := insert oid head s₁.tx.heads } oid from hlev)
        hstored hunder
  obtain ⟨hheads, hgr⟩ := hgrafted
  have hget : s₃.graft.getObjectGraftInfo s₃.tx oid = info :=
    by rw [GraftMap.getObjectGraftInfo, hinfo]
  rw [hget] at hgr
  obtain ⟨hold, hanc, hmem, hne⟩ := hasConflict_two hinfo htwo hgr.nodup
    (by rw [getHead, hheads, lookup_insert]) hgr.snap hc
  -- a new candidate for head is the version that all new ones are below, for it has no children
  have honly : ∀ w ∈ info.newHeads, w ≠ head → w = new := by
    intro w hw hwh
    rcases (hbelow w ((hgr.heads w hw).1.resolve_left hwh)).cases_tail with h | ⟨d, -, hd⟩
    · exact h
    · exact absurd hd ((hgr.heads w hw).2 d)
  have hheadmem : head ∈ info.newHeads := by
    by_contra hnot
    obtain ⟨h₁, h₂, hh⟩ := List.length_eq_two.mp htwo
    have hall : ∀ w ∈ info.newHeads, w = new := fun w hw ↦ honly w hw (fun h ↦ hnot (h ▸ hw))
    have hnd := hgr.nodup
    rw [hh, List.forall_mem_cons, List.forall_mem_singleton] at hall
    rw [hh, hall.1, hall.2] at hnd
    simp at hnd
  have hnewHead := honly c.newHead hmem hne
  rw [hnewHead] at hmem ⊢
  obtain ⟨e, he, hbest, hmax⟩ := bestAncestor_spec hgraft
    fun e he ↦ (hgr.crossed e.1 e.2 (Table.mem_entries_iff.mp he)).2.1
  have helook := Table.mem_entries_iff.mp he
  rw [hold, hanc, hbest]
  obtain ⟨hcommon, hcommon'⟩ := hgr.common hbelow hheadmem hmem helook
  refine ⟨hcommon, hcommon', fun x hx hnx hxe ↦ ?_⟩
  obtain ⟨p, hp, hle⟩ := hgr.exists_graft hstored hnew hx hnx
  have hpe : s₃.tx.levelOf oid p ≤ e.2 := hmax ⟨p, _⟩ (Table.mem_entries_iff.mpr hp)
  have hlt := rank_lt_of_transGen (fun a b hab ↦ (hgr.leveled a b hab).2) hxe
  rw [(hgr.crossed _ _ helook).1] at hpe
  omega

/-! ## Two rounds -/

theorem Store.reaches_of_mem_ancestors {st : Store} {oid : Oid} {v w : Version}
    (h : w ∈ st.ancestors oid [v]) : ReflTransGen (st.IsParent oid) v w := by
  obtain ⟨-, s, hs, hreach⟩ := mem_ancestors_iff.mp h
  rwa [mem_singleton.mp hs] at hreach

/-- A node without a batch, under the first log record. -/
def plainNode (version : Version) (parents : List Version) : DagCall :=
  .node version (logRecKey logDataPrefix 1 1) false parents noBatchId

/-- A new device. -/
def newDevice : Session := Session.start ⟨1, none, ∅, ∅⟩ Store.empty

/-- Build the DAG of an object, move its head, and add the versions of a round. -/
def round (step₁ step₂ : Session → DagCall × Bool → Option Session)
    (base delta : List (DagCall × Bool)) (head : Version) : Option (Session × Session × Session) :=
  (run step₁ newDevice base).bind fun s₁ ↦
    match moveHead [120] head s₁ with
    | .ok _ s₂ => (run step₂ { s₂ with graft := ⟨∅, none⟩ } delta).map (s₁, s₂, ·)
    | .error _ _ => none

/-- All versions are below the head before the round, all versions of the round below `new`, and
there is a conflict with the given ancestor. -/
def Diverges (head new ancestor : Version) (r : Session × Session × Session) : Prop :=
  (∀ e ∈ r.2.1.tx.nodes.entries, e.1.2 ∈ r.2.1.tx.ancestors [120] [head]) ∧
    (hasConflict r.2.2.tx [120] (some r.2.2.graft)).toOption = some ⟨true, new, head, ancestor⟩ ∧
    ∃ info ∈ AList.lookup [120] r.2.2.graft.objGraft, new ∈ info.newNodes ∧
      (∀ v ∈ info.newNodes, v ∈ r.2.2.tx.ancestors [120] [new]) ∧ info.newHeads.length = 2 ∧
      info.graftNodes.entries ≠ []

instance (head new ancestor : Version) (r : Session × Session × Session) :
    Decidable (Diverges head new ancestor r) :=
  inferInstanceAs (Decidable (_ ∧ _ ∧ _))

theorem exists_round (step₁ step₂ : Session → DagCall × Bool → Option Session)
    (base delta : List (DagCall × Bool)) (head : Version) (P : Session × Session × Session → Prop)
    [DecidablePred P] (h : (round step₁ step₂ base delta head).any (fun r ↦ decide (P r)) = true) :
    ∃ s₁ s₂ s₃, run step₁ newDevice base = some s₁ ∧ moveHead [120] head s₁ = .ok () s₂ ∧
      run step₂ { s₂ with graft := ⟨∅, none⟩ } delta = some s₃ ∧ P (s₁, s₂, s₃) := by
  rw [Option.any_eq_true] at h
  obtain ⟨r, hr, hP⟩ := h
  obtain ⟨s₁, hs₁, hr⟩ := Option.bind_eq_some_iff.mp hr
  split at hr
  · next s₂ hmove =>
    obtain ⟨s₃, hs₃, rfl⟩ := Option.map_eq_some_iff.mp hr
    exact ⟨s₁, s₂, s₃, hs₁, hmove, hs₃, of_decide_eq_true hP⟩
  · contradiction

theorem ok_of_toOption {x : Except SyncErr HeadConflict} {c : HeadConflict}
    (h : x.toOption = some c) : x = .ok c := by
  rcases x with e | c'
  · contradiction
  · rw [Option.some.inj h]

/-- Two devices change the first version. -/
theorem conflict_ancestor_first : ∃ s : Session,
    hasConflict s.tx [120] (some s.graft) = .ok ⟨true, [3], [2], [1]⟩ ∧
      TransGen (s.tx.IsParent [120]) [2] [1] ∧ TransGen (s.tx.IsParent [120]) [3] [1] := by
  obtain ⟨s₁, s₂, s₃, hbase, hhead, hdelta, hunder, hc, info, hinfo, hnew, hbelow, htwo, hgraft⟩ :=
    exists_round (guarded (Ordered [120]) (dagStep [120]))
      (guarded (fun s c ↦ c.2 = true ∧ Ordered [120] s c) (dagStep [120]))
      [(plainNode [1] [], false), (plainNode [2] [[1]], false)] [(plainNode [3] [[1]], true)] [2]
      (Diverges [2] [3] [1]) (by decide +kernel)
  have hc := ok_of_toOption hc
  obtain ⟨hold, hnewHead, -⟩ := conflict_ancestor_most_recent
    (by rintro v ⟨node, hnode⟩; contradiction) hbase hhead
    (by
      rintro v ⟨node, hnode⟩
      exact reaches_of_mem_ancestors (hunder ⟨([120], v), node⟩ (Table.mem_entries_iff.mpr hnode)))
    rfl (by simp) hdelta hinfo hnew (fun v hv ↦ reaches_of_mem_ancestors (hbelow v hv))
      htwo hgraft hc
  exact ⟨s₃, hc, hold, hnewHead⟩

/-- Version 5 is linked to version 4, which is deeper. A round that brings a version made from both
has version 4 as its conflict ancestor, though both heads come from version 5, which comes from
version 4. -/
theorem linked_version_overlooked : ∃ s₁ s₂ s₃,
    run (dagStep [120]) newDevice [(plainNode [1] [], false), (plainNode [2] [[1]], false),
      (plainNode [3] [[2]], false), (plainNode [4] [[3]], false), (plainNode [5] [[1]], false),
      (.link [5] [4] noBatchId, false), (plainNode [6] [[5]], false)] = some s₁ ∧
    moveHead [120] [6] s₁ = .ok () s₂ ∧
    run (dagStep [120]) { s₂ with graft := ⟨∅, none⟩ }
      [(plainNode [7] [[4]], true), (plainNode [8] [[7], [5]], true)] = some s₃ ∧
    Diverges [6] [8] [4] (s₁, s₂, s₃) ∧
    ReflTransGen (s₃.tx.IsParent [120]) [6] [5] ∧ ReflTransGen (s₃.tx.IsParent [120]) [8] [5] ∧
    TransGen (s₃.tx.IsParent [120]) [5] [4] := by
  obtain ⟨s₁, s₂, s₃, hbase, hhead, hdelta, hdiv, h6, h8, ps, hps, h4⟩ :=
    exists_round (dagStep [120]) (dagStep [120]) [(plainNode [1] [], false),
      (plainNode [2] [[1]], false), (plainNode [3] [[2]], false), (plainNode [4] [[3]], false),
        (plainNode [5] [[1]], false),
      (.link [5] [4] noBatchId, false), (plainNode [6] [[5]], false)]
      [(plainNode [7] [[4]], true), (plainNode [8] [[7], [5]], true)] [6]
      (fun r ↦ Diverges [6] [8] [4] r ∧ [5] ∈ r.2.2.tx.ancestors [120] [[6]] ∧
        [5] ∈ r.2.2.tx.ancestors [120] [[8]] ∧ ∃ ps ∈ r.2.2.tx.parentsOf [120] [5], [4] ∈ ps)
      (by decide +kernel)
  exact ⟨s₁, s₂, s₃, hbase, hhead, hdelta, hdiv, reaches_of_mem_ancestors h6,
    reaches_of_mem_ancestors h8, .single (edge_parentsOf.mp ⟨ps, hps, h4⟩)⟩

end Vanadium.Vsync
