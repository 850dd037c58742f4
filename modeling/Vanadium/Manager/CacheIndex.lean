import Vanadium.Manager.Reservations

/-!
# The index of the connections

`c.cache` lists each connection once under each of its keys, no list in it is empty, and
`rttEntriesLocked` finds all live entries of its keys although it removes dead ones from the slices
that it runs over. An entry stands twice in a list if two of its keys are the same. A connection
that was dialed for its reservation has the address of the reservation, and its keys are distinct.
But a reservation that waits for a proxy may be given a connection that was dialed for another
address, which the path key of that connection spells.
-/

namespace Vanadium.Manager.ConnCache

open Foundations Table Transition List Option

variable {ρ γ ε : Type} [DecidableEq ρ] [DecidableEq γ] {c c' : ConnCache ρ γ ε} {k : Key ρ}
  {s : ConnCache ρ γ ε × List (ConnEntry ρ γ) × List (ConnEntry ρ γ)}

/-! ## No empty list -/

def Filled (c : ConnCache ρ γ ε) : Prop := ∀ k, c.cache.lookup k ≠ some []

theorem Filled.removeAt (h : c.Filled) (e : ConnEntry ρ γ) (k : Key ρ) :
    (c.removeAt e k).Filled := by
  rw [ConnCache.removeAt]
  split
  · exact h
  · intro k'
    dsimp only
    split
    · rw [lookup_erase_eq_ite]
      split
      · exact some_ne_none _ ∘ Eq.symm
      · exact h k'
    · next hlen =>
      rw [lookup_insert_eq_ite]
      split
      · exact fun heq ↦ hlen (congrArg length (some.inj heq))
      · exact h k'

theorem Filled.removeEntryLocked (h : c.Filled) (e : ConnEntry ρ γ) :
    (c.removeEntryLocked e).Filled :=
  foldlRecOn e.keys _ h fun _ hc k _ ↦ hc.removeAt e k

theorem Filled.addEntry (h : c.Filled) (e : ConnEntry ρ γ) : (c.addEntry e).Filled := by
  refine foldlRecOn e.keys _ h fun c hc k _ k' ↦ ?_
  rw [appendAt, lookup_insert_eq_ite]
  split
  · exact fun heq ↦ append_ne_nil_of_right_ne_nil _ (cons_ne_nil e []) (some.inj heq)
  · exact hc k'

theorem Filled.rttEntriesLocked (h : c.Filled) (view : Views γ) (keys : List (Key ρ)) :
    (c.rttEntriesLocked view keys).1.Filled := by
  refine foldlRecOn (motive := fun s : ConnCache ρ γ ε × _ × _ ↦ s.1.Filled) keys.zipIdx _ h
    fun s hs k _ ↦ ?_
  rw [rttEntriesKey]
  split
  · refine foldlRecOn (motive := fun s : ConnCache ρ γ ε × _ × _ ↦ s.1.Filled) (range _) _ hs
      fun t ht j _ ↦ ?_
    rw [visitFound]
    split
    · exact ht
    split
    · exact ht.removeEntryLocked _
    split <;> exact ht
  · exact hs

theorem Filled.internalFind (h : c.Filled) (t : ℕ) (keys : List (Key ρ)) (wait : Bool)
    (view : Views γ) : (c.internalFind t keys wait view).Filled := by
  have hfilled := h.rttEntriesLocked view keys
  rw [ConnCache.internalFind, findRound]
  by_cases hclosed : c.closed
  · rw [if_pos hclosed]
    exact h
  · rw [if_neg hclosed]
    dsimp only
    generalize c.rttEntriesLocked view keys = x at hfilled ⊢
    by_cases hdone : 0 < x.2.1.length ∨ wait = false ∨ x.1.hasReservationsLocked keys = false
    · rw [if_pos hdone]
      exact hfilled
    · rw [if_neg hdone]
      exact hfilled

theorem Filled.sift {op : ConnCache ρ γ ε × ℤ × List (ConnEntry ρ γ) → ConnEntry ρ γ →
      ConnCache ρ γ ε × ℤ × List (ConnEntry ρ γ)} (hop : ∀ s e, Sifts s e (op s e))
    (es : List (ConnEntry ρ γ)) {s : ConnCache ρ γ ε × ℤ × List (ConnEntry ρ γ)} (h : s.1.Filled) :
    (es.foldl op s).1.Filled := by
  refine foldlRecOn (motive := fun s ↦ s.1.Filled) es op h fun s hs e _ ↦ ?_
  have hsift := hop s e
  generalize op s e = t at hsift ⊢
  cases hsift with
  | remove n => exact hs.removeEntryLocked e
  | keep n => exact hs
  | pass n => exact hs

theorem Filled.killConnections (h : c.Filled) (entries : List (ConnEntry ρ γ)) (num : ℤ)
    (first second : View γ) (now : ℕ) :
    (c.killConnections entries num first second now).Filled := by
  rw [ConnCache.killConnections]
  split
  · exact h
  · dsimp only
    split
    · exact .sift (killIdle_sifts second) _ (.sift (killDead_sifts first) _ h)
    · exact foldlRecOn (motive := Filled) _ _
        (.sift (killIdle_sifts second) _ (.sift (killDead_sifts first) _ h))
        fun _ hc e _ ↦ hc.removeEntryLocked e

/-! ## All live entries are found -/

variable {view : Views γ} {es : List (ConnEntry ρ γ)}

/-- `rttEntriesLocked` is to find the entry: whenever it asks the connection, it is live. -/
def Live (view : Views γ) (e : ConnEntry ρ γ) : Prop :=
  ∀ i j, ((view i j).status e.conn).isClosing = false ∧ (view i j).remoteLameDuck e.conn = false

/-- What was found stays found, and live entries stay in the cache. -/
structure Gathers (view : Views γ) (c : ConnCache ρ γ ε) (es : List (ConnEntry ρ γ))
    (c' : ConnCache ρ γ ε) (es' : List (ConnEntry ρ γ)) : Prop where
  found : es ⊆ es'
  live : ∀ e, Live view e → c.conns.lookup e.conn = some e → c'.conns.lookup e.conn = some e

omit [DecidableEq ρ] in
theorem Gathers.refl (view : Views γ) (c : ConnCache ρ γ ε) (es : List (ConnEntry ρ γ)) :
    Gathers view c es c es :=
  ⟨List.Subset.refl es, fun _ _ h ↦ h⟩

theorem Visiting.gathers {c₀ : ConnCache ρ γ ε} {i j : ℕ} {found : List (ConnEntry ρ γ)}
    (h : Visiting c₀ k j c found) (hs : visitFound (view i j) k (c, found, es) j = s) :
    Gathers view c es s.1 s.2.2 ∧ ∀ e, found[j]? = some e → Live view e → e ∈ s.2.2 := by
  subst hs
  rw [visitFound]
  split
  · next hnone =>
    refine ⟨.refl view c es, fun e he ↦ ?_⟩
    rw [hnone] at he
    contradiction
  rename_i e he
  rw [he]
  split
  · next hclosing =>
    refine ⟨⟨List.Subset.refl es, fun e' hlive he' ↦ ?_⟩, fun e' heq hlive ↦ ?_⟩
    · refine lookup_conns_removeEntryLocked
        (h.left j e le_rfl ((h.rest j le_rfl).symm.trans he)) he' ?_
      rintro rfl
      exact absurd hclosing (Bool.eq_false_iff.mp (hlive i j).1)
    · obtain rfl := some.inj heq
      exact absurd hclosing (Bool.eq_false_iff.mp (hlive i j).1)
  split
  · next hlame =>
    refine ⟨.refl view c es, fun e' heq hlive ↦ ?_⟩
    obtain rfl := some.inj heq
    exact absurd hlame (Bool.eq_false_iff.mp (hlive i j).2)
  · refine ⟨⟨subset_append_left _ _, fun _ _ h ↦ h⟩, fun e' heq _ ↦ ?_⟩
    obtain rfl := some.inj heq
    exact mem_append_right _ mem_cons_self

/-- The loop over `found`. -/
theorem Cached.gathers (h : c.Cached) (view : Views γ) (i : ℕ) (k : Key ρ)
    (es : List (ConnEntry ρ γ)) (n : ℕ)
    (hs : (range n).foldl (fun s j ↦ visitFound (view i j) k s j) (c, c.cacheAt k, es) = s) :
    Gathers view c es s.1 s.2.2 ∧
      ∀ p < n, ∀ e, (c.cacheAt k)[p]? = some e → Live view e → e ∈ s.2.2 := by
  induction n generalizing s with
  | zero =>
    subst hs
    exact ⟨.refl view c es, fun p hp ↦ absurd hp (Nat.not_lt_zero p)⟩
  | succ n ih =>
    obtain ⟨hg, hseen⟩ := ih rfl
    have hvisit := h.visitAll (view i) k es n
    rw [range_succ, foldl_append] at hs
    obtain ⟨hstep, hnew⟩ := hvisit.gathers hs
    refine ⟨⟨fun e he ↦ hstep.found (hg.found he), fun e hl he ↦ hstep.live e hl (hg.live e hl he)⟩,
      fun p hp e he hl ↦ ?_⟩
    rcases Nat.lt_succ_iff_lt_or_eq.mp hp with hlt | rfl
    · exact hstep.found (hseen p hlt e he hl)
    · exact hnew e ((hvisit.rest p le_rfl).trans he) hl

theorem Cached.gathers_key {s : ConnCache ρ γ ε × List (ConnEntry ρ γ) × Option ε}
    (h : s.1.Cached) (view : Views γ) (i : ℕ) (k : Key ρ)
    {s' : ConnCache ρ γ ε × List (ConnEntry ρ γ) × Option ε}
    (hs' : ConnCache.rttEntriesKey (view i) s k = s') :
    Gathers view s.1 s.2.1 s'.1 s'.2.1 ∧ ∀ e ∈ s.1.cacheAt k, Live view e → e ∈ s'.2.1 := by
  rw [← hs', ConnCache.rttEntriesKey]
  split
  · obtain ⟨hg, hseen⟩ := h.gathers view i k s.2.1 (s.1.cacheAt k).length rfl
    refine ⟨hg, fun e he hl ↦ ?_⟩
    obtain ⟨p, hp⟩ := mem_iff_getElem?.mp he
    exact hseen p (List.getElem?_eq_some_iff.mp hp).1 e hp hl
  · next hempty =>
    exact ⟨.refl view s.1 s.2.1, fun e he ↦ absurd (length_pos_of_mem he) hempty⟩

theorem Cached.gathers_keys (view : Views γ) (keys : List (Key ρ × ℕ))
    {s : ConnCache ρ γ ε × List (ConnEntry ρ γ) × Option ε} (h : s.1.Cached) :
    s.2.1 ⊆ (keys.foldl (fun s k ↦ ConnCache.rttEntriesKey (view k.2) s k.1) s).2.1 ∧
      ∀ k ∈ keys, ∀ e ∈ s.1.cacheAt k.1, Live view e →
        e ∈ (keys.foldl (fun s k ↦ ConnCache.rttEntriesKey (view k.2) s k.1) s).2.1 := by
  induction keys generalizing s with
  | nil => exact ⟨List.Subset.refl _, forall_mem_nil _⟩
  | cons k keys ih =>
    have hcached := (h.rttEntriesKey (view k.2) k.1).cached
    obtain ⟨hg, hk⟩ := h.gathers_key view k.2 k.1 rfl
    obtain ⟨hfound, hkeys⟩ := ih hcached
    refine ⟨fun e he ↦ hfound (hg.found he), fun k' hk' e he hl ↦ ?_⟩
    rcases mem_cons.mp hk' with rfl | hk'
    · exact hfound (hk e he hl)
    · obtain ⟨hconn, hin⟩ := (h.mem_iff k'.1 e).mp he
      exact hkeys k' hk' e ((hcached.mem_iff k'.1 e).mpr ⟨hg.live e hl hconn, hin⟩) hl

/-- The index of the connections is consistent. -/
structure Indexed (c : ConnCache ρ γ ε) : Prop where
  once : ∀ k e, (c.cacheAt k).count e = if c.conns.lookup e.conn = some e ∧ k ∈ e.keys then 1 else 0
  filled : c.Filled
  found : ∀ (view : Views γ) keys, ∀ k ∈ keys, ∀ e ∈ c.cacheAt k, Live view e →
    e ∈ (c.rttEntriesLocked view keys).2.1

theorem Cached.indexed (h : c.Cached) (hfilled : c.Filled) : c.Indexed := by
  refine ⟨fun k e ↦ ?_, hfilled, fun view keys k hk e he hl ↦ ?_⟩
  · rw [(h.nodup k).count]
    exact if_congr (h.mem_iff k e) rfl rfl
  · obtain ⟨i, hi⟩ := mem_iff_getElem?.mp hk
    have hi := mk_mem_zipIdx_iff_getElem?.mpr hi
    exact (mem_insertionSort _).mpr
      ((Cached.gathers_keys view keys.zipIdx h).2 (k, i) hi e he hl)

theorem count_foldl_appendAt (e e' : ConnEntry ρ γ) (k : Key ρ) (ks : List (Key ρ)) :
    ∀ c : ConnCache ρ γ ε, ((ks.foldl (fun c k ↦ c.appendAt e k) c).cacheAt k).count e' =
      (c.cacheAt k).count e' + if e' = e then ks.count k else 0 := by
  induction ks with
  | nil =>
    intro c
    split <;> rfl
  | cons a ks ih =>
    intro c
    rw [foldl_cons, ih, (appendAt_updates c e a).cacheAt, count_cons]
    by_cases hk : k = a
    · rw [if_pos hk, ← hk, count_append, count_singleton]
      by_cases he : e' = e
      · simp [he]
        omega
      · simp [he, Ne.symm he]
    · simp [hk, Ne.symm hk]

/-- No list has an entry twice. -/
def Single (c : ConnCache ρ γ ε) : Prop := ∀ k e, (c.cacheAt k).count e ≤ 1

theorem Indexed.single (h : c.Indexed) : c.Single := fun k e ↦ by
  rw [h.once]
  split
  · exact le_rfl
  · exact Nat.zero_le 1

theorem Cached.congr (h : c.Cached) (hcache : c'.cache = c.cache) (hconns : c'.conns = c.conns) :
    c'.Cached := by
  have hat : c'.cacheAt = c.cacheAt := by
    funext k
    rw [cacheAt, cacheAt, hcache]
  refine ⟨?_, ?_, ?_⟩
  · rw [hat, hconns]
    exact h.mem_iff
  · rw [hat]
    exact h.nodup
  · rw [hconns]
    exact h.conn

variable [RoutingID ρ]

theorem Filled.insertConnLocked (h : c.Filled) (remote : Endpoint ρ) (g : γ) (ep : Endpoint ρ)
    (proxy keyByAddr : Bool) (cancel : Option ℕ) :
    (c.insertConnLocked remote g ep proxy keyByAddr cancel).1.Filled := by
  rw [ConnCache.insertConnLocked]
  split
  · exact h
  · exact h.addEntry _

theorem Filled.unreserveConns (h : c.Filled) {remote : Endpoint ρ} {cancel : Option ℕ}
    {conn proxyConn : Option (γ × Endpoint ρ)} {err : Option ε} {now : ℕ}
    {x : ConnCache ρ γ ε × Option ℕ}
    (hx : c.unreserveConns remote cancel conn proxyConn err now = x) : x.1.Filled := by
  have hproxy : (c.insertProxyConn remote cancel proxyConn).1.Filled := by
    rcases proxyConn with _ | ⟨g, ep⟩
    · exact h
    · exact h.insertConnLocked remote g ep true true cancel
  rw [← hx, ConnCache.unreserveConns]
  rcases conn with _ | ⟨g, ep⟩
  · rcases err with _ | err <;> exact hproxy
  · exact hproxy.insertConnLocked remote g ep _ _ _

omit [DecidableEq γ] in
theorem reserve_cache (c : ConnCache ρ γ ε) (remote : Endpoint ρ) :
    (c.reserve remote).1.cache = c.cache ∧ (c.reserve remote).1.conns = c.conns := by
  rw [ConnCache.reserve]
  dsimp only
  split_ifs <;> exact ⟨rfl, rfl⟩

theorem Filled.step (h : c.Filled) {a : Action ρ γ ε} (hstep : c.step a = some c') : c'.Filled := by
  cases a with
  | reserve remote =>
    obtain rfl := some.inj hstep
    rwa [Filled, (reserve_cache c remote).1]
  | unreserve r conn proxyConn err now =>
    obtain ⟨res, -, rfl⟩ := map_eq_some_iff.mp hstep
    rw [ConnCache.unreserve]
    dsimp only
    split
    · exact h
    · generalize hx : ConnCache.unreserveConns _ res.remote (some r) conn proxyConn err now = x
      have hfilled : x.1.Filled := by
        refine Filled.unreserveConns ?_ hx
        exact h
      exact hfilled
  | insert conn ep proxy keyByAddr =>
    obtain rfl := some.inj hstep
    split
    · exact h
    · exact h.insertConnLocked ep conn ep proxy keyByAddr none
  | find t keys wait view =>
    obtain ⟨-, ⟨⟩⟩ := ite_none_left_eq_some.mp hstep
    exact h.internalFind t keys wait view
  | wake t view =>
    rw [ConnCache.step] at hstep
    split at hstep
    · obtain rfl := some.inj hstep
      exact h.internalFind t _ true view
    · contradiction
  | giveUp t =>
    obtain ⟨w, -, rfl⟩ := map_eq_some_iff.mp hstep
    exact h
  | killConnections entries num first second now =>
    obtain ⟨-, ⟨⟩⟩ := ite_none_right_eq_some.mp hstep
    exact h.killConnections entries num first second now
  | close =>
    obtain rfl := some.inj hstep
    exact fun k heq ↦ some_ne_none _ heq.symm

/-! ## Entries with distinct keys -/

/-- Nothing is taken from a list, and a new entry stands in it as often as its keys have the key. -/
theorem count_insertConnLocked {remote ep : Endpoint ρ} {g : γ} {proxy keyByAddr : Bool}
    {cancel : Option ℕ} {x : ConnCache ρ γ ε × Bool}
    (hx : c.insertConnLocked remote g ep proxy keyByAddr cancel = x) :
    (∀ k e, (c.cacheAt k).count e ≤ (x.1.cacheAt k).count e) ∧
      (c.conns.lookup g = none → ∃ e : ConnEntry ρ γ, e.keys = entryKeys remote ep keyByAddr ∧
        ∀ k, e.keys.count k ≤ (x.1.cacheAt k).count e) := by
  rw [← hx, ConnCache.insertConnLocked]
  split
  · next hsome =>
    refine ⟨fun _ _ ↦ le_rfl, fun hnone ↦ ?_⟩
    rw [hnone] at hsome
    cases hsome
  · refine ⟨fun k e ↦ ?_, fun _ ↦
      ⟨⟨g, ep.routingID, proxy, cancel, entryKeys remote ep keyByAddr⟩, rfl, fun k ↦ ?_⟩⟩
    · exact (Nat.le_add_right _ _).trans (count_foldl_appendAt _ e k _ c).ge
    · refine le_trans ?_ (count_foldl_appendAt _ _ k _ c).ge
      rw [if_pos rfl]
      exact Nat.le_add_left _ _

theorem lookup_insertConnLocked {remote ep : Endpoint ρ} {g g' : γ} {proxy keyByAddr : Bool}
    {cancel : Option ℕ} {x : ConnCache ρ γ ε × Bool}
    (hx : c.insertConnLocked remote g ep proxy keyByAddr cancel = x) :
    (x.1.conns.lookup g').isSome ↔ (c.conns.lookup g').isSome ∨ g' = g := by
  rw [← hx, ConnCache.insertConnLocked]
  split
  · next hsome =>
    refine ⟨.inl, fun h ↦ h.elim id ?_⟩
    rintro rfl
    exact hsome
  · rw [addEntry_eq, lookup_insert_eq_ite]
    split
    · next heq => exact ⟨fun _ ↦ .inr heq, fun _ ↦ rfl⟩
    · next hne => exact ⟨.inl, fun h ↦ h.resolve_right hne⟩

theorem Cached.insertConnLocked (h : c.Cached) {remote ep : Endpoint ρ} {g : γ}
    {proxy keyByAddr : Bool} {cancel : Option ℕ}
    (hkeys : (c.conns.lookup g).isSome ∨ (entryKeys remote ep keyByAddr).Nodup)
    {x : ConnCache ρ γ ε × Bool}
    (hx : c.insertConnLocked remote g ep proxy keyByAddr cancel = x) : x.1.Cached := by
  rw [← hx, ConnCache.insertConnLocked]
  split
  · exact h
  · next hnone => exact h.addEntry (not_isSome_iff_eq_none.mp hnone) (hkeys.resolve_left hnone)

/-- The keys of each entry that `Unreserve` adds are distinct. -/
def addsDistinct (c : ConnCache ρ γ ε) (remote : Endpoint ρ)
    (conn proxyConn : Option (γ × Endpoint ρ)) : Bool :=
  (proxyConn.all fun p ↦ (c.conns.lookup p.1).isSome || (entryKeys remote p.2 true).Nodup) &&
  conn.all fun p ↦ (c.conns.lookup p.1).isSome || proxyConn.any (fun q ↦ p.1 = q.1) ||
    (entryKeys remote p.2 proxyConn.isNone).Nodup

/-- The condition on a step. -/
def indexable (c : ConnCache ρ γ ε) : Action ρ γ ε → Bool
  | .unreserve r conn proxyConn _ _ =>
    c.closed || (c.outstanding.lookup r).all fun res ↦ c.addsDistinct res.remote conn proxyConn
  | _ => true

section Unreserve

variable {remote : Endpoint ρ} {cancel : Option ℕ} {conn proxyConn : Option (γ × Endpoint ρ)}
  {err : Option ε} {now : ℕ} {x : ConnCache ρ γ ε × Option ℕ}

theorem Cached.unreserveConns (h : c.Cached) (hkeys : c.addsDistinct remote conn proxyConn)
    (hx : c.unreserveConns remote cancel conn proxyConn err now = x) : x.1.Cached := by
  rw [addsDistinct, Bool.and_eq_true] at hkeys
  rw [← hx, ConnCache.unreserveConns]
  rcases proxyConn with _ | ⟨g, ep⟩
  · rcases conn with _ | ⟨g', ep'⟩
    · rcases err with _ | err
      · exact h
      · exact ⟨h.mem_iff, h.nodup, h.conn⟩
    · refine h.insertConnLocked ?_ rfl
      simpa using hkeys.2
  · have hproxy : (c.insertConnLocked remote g ep true true cancel).1.Cached :=
      h.insertConnLocked (by simpa using hkeys.1) rfl
    rcases conn with _ | ⟨g', ep'⟩
    · rcases err with _ | err
      · exact hproxy
      · exact ⟨hproxy.mem_iff, hproxy.nodup, hproxy.conn⟩
    · refine hproxy.insertConnLocked ?_ rfl
      rw [lookup_insertConnLocked rfl]
      simpa using hkeys.2

/-- An entry that was added has distinct keys if no list has an entry twice afterwards. -/
theorem Single.nodup_entryKeys {d : ConnCache ρ γ ε} {g : γ} {ep : Endpoint ρ}
    {proxy keyByAddr : Bool} (h : d.Single)
    (hle : ∀ k e, ((c.insertConnLocked remote g ep proxy keyByAddr cancel).1.cacheAt k).count e ≤
      (d.cacheAt k).count e) :
    (c.conns.lookup g).isSome ∨ (entryKeys remote ep keyByAddr).Nodup := by
  rcases hg : c.conns.lookup g with _ | e
  · obtain ⟨e, hkeys, he⟩ := (count_insertConnLocked rfl).2 hg
    rw [← hkeys]
    exact .inr (nodup_iff_count_le_one.mpr fun k ↦ ((he k).trans (hle k e)).trans (h k e))
  · exact .inl rfl

theorem Single.addsDistinct (hx : c.unreserveConns remote cancel conn proxyConn err now = x)
    (h : x.1.Single) : c.addsDistinct remote conn proxyConn := by
  subst hx
  rw [ConnCache.addsDistinct, Bool.and_eq_true]
  rcases proxyConn with _ | ⟨g, ep⟩
  · rcases conn with _ | ⟨g', ep'⟩
    · exact ⟨rfl, rfl⟩
    · have hnodup : (c.conns.lookup g').isSome ∨ (entryKeys remote ep' true).Nodup :=
        h.nodup_entryKeys fun _ _ ↦ le_rfl
      exact ⟨rfl, by simpa using hnodup⟩
  · rcases conn with _ | ⟨g', ep'⟩
    · have hnodup : (c.conns.lookup g).isSome ∨ (entryKeys remote ep true).Nodup := by
        rcases err with _ | err
        · exact h.nodup_entryKeys fun _ _ ↦ le_rfl
        · exact h.nodup_entryKeys fun _ _ ↦ le_rfl
      exact ⟨by simpa using hnodup, rfl⟩
    · have hproxy : (c.conns.lookup g).isSome ∨ (entryKeys remote ep true).Nodup :=
        h.nodup_entryKeys (count_insertConnLocked rfl).1
      have hnodup : ((c.insertConnLocked remote g ep true true cancel).1.conns.lookup g').isSome ∨
          (entryKeys remote ep' false).Nodup := h.nodup_entryKeys fun _ _ ↦ le_rfl
      rw [lookup_insertConnLocked rfl] at hnodup
      exact ⟨by simpa using hproxy, by simpa using hnodup⟩

end Unreserve

/-- **A step keeps the index consistent** exactly when it meets the condition. -/
theorem Cached.step_iff (h : c.Cached) {a : Action ρ γ ε} (hstep : c.step a = some c') :
    (c.indexable a → c'.Cached) ∧ (c'.Single → c.indexable a) := by
  cases a with
  | unreserve r conn proxyConn err now =>
    obtain ⟨res, hres, rfl⟩ := map_eq_some_iff.mp hstep
    rw [indexable, hres, ConnCache.unreserve]
    dsimp only
    split
    · next hclosed => exact ⟨fun _ ↦ h.congr rfl rfl,
        fun _ ↦ Bool.or_eq_true_iff.mpr (.inl hclosed)⟩
    · next hopen =>
      rw [Bool.eq_false_iff.mpr hopen, Bool.false_or]
      generalize hx : ConnCache.unreserveConns _ res.remote (some r) conn proxyConn err now = x
      constructor
      · intro hkeys
        have hcached := Cached.unreserveConns (by exact h.congr rfl rfl) (by exact hkeys) hx
        exact hcached.congr rfl rfl
      · intro hsingle
        have hkeys := Single.addsDistinct hx hsingle
        exact hkeys
  | reserve remote =>
    obtain rfl := some.inj hstep
    exact ⟨fun _ ↦ h.congr (reserve_cache c remote).1 (reserve_cache c remote).2, fun _ ↦ rfl⟩
  | insert conn ep proxy keyByAddr =>
    obtain rfl := some.inj hstep
    refine ⟨fun _ ↦ ?_, fun _ ↦ rfl⟩
    split
    · exact h
    · exact h.insertConnLocked (.inr (nodup_entryKeys rfl keyByAddr)) rfl
  | find t keys wait view =>
    obtain ⟨-, ⟨⟩⟩ := ite_none_left_eq_some.mp hstep
    obtain ⟨x, waiters, hremoves, heq, -⟩ := h.internalFind t keys wait view
    exact ⟨fun _ ↦ heq ▸ hremoves.cached.congr rfl rfl, fun _ ↦ rfl⟩
  | wake t view =>
    refine ⟨fun _ ↦ ?_, fun _ ↦ rfl⟩
    rw [ConnCache.step] at hstep
    split at hstep
    · obtain rfl := some.inj hstep
      obtain ⟨x, waiters, hremoves, heq, -⟩ := h.internalFind t _ true view
      exact heq ▸ hremoves.cached.congr rfl rfl
    · contradiction
  | giveUp t =>
    obtain ⟨w, -, rfl⟩ := map_eq_some_iff.mp hstep
    exact ⟨fun _ ↦ h.congr rfl rfl, fun _ ↦ rfl⟩
  | killConnections entries num first second now =>
    obtain ⟨hentries, ⟨⟩⟩ := ite_none_right_eq_some.mp hstep
    exact ⟨fun _ ↦ (h.killConnections num first second now hentries).cached, fun _ ↦ rfl⟩
  | close =>
    obtain rfl := some.inj hstep
    exact ⟨fun _ ↦ sound_newConnCache.cached.congr rfl rfl, fun _ ↦ rfl⟩

/-- **The index is consistent.** In every state of a run that meets the condition, an entry stands
in the list of a key once if it is the entry of a connection with that key, and not at all
otherwise; no list is empty; and `rttEntriesLocked` returns every entry of its keys that is live all
the time. The next step keeps it so if and only if it meets the condition. -/
theorem index_consistent_iff (as : List (Action ρ γ ε)) (c : ConnCache ρ γ ε)
    (h : run (guarded (fun c a ↦ c.indexable a = true) step) newConnCache as = some c) :
    c.Indexed ∧ ∀ a c', c.step a = some c' → (c'.Indexed ↔ c.indexable a = true) := by
  obtain ⟨hcached, hfilled⟩ : c.Cached ∧ c.Filled :=
    guarded_invariant (I := fun c ↦ c.Cached ∧ c.Filled)
      (fun _ _ _ hinv ha hstep ↦ ⟨(hinv.1.step_iff hstep).1 ha, hinv.2.step hstep⟩)
      ⟨sound_newConnCache.cached, fun _ heq ↦ some_ne_none _ heq.symm⟩ h
  refine ⟨hcached.indexed hfilled, fun a c' hstep ↦ ⟨fun hindexed ↦ ?_, fun ha ↦ ?_⟩⟩
  · exact (hcached.step_iff hstep).2 hindexed.single
  · exact ((hcached.step_iff hstep).1 ha).indexed (hfilled.step hstep)

/-- A server is dialed and cached, and another one could not be dialed. -/
theorem dialTwo_indexed :
    ∃ c, run (guarded (fun c a ↦ c.indexable a = true) step) newConnCache
    dialTwo.dropLast = some c ∧
      (c.conns.lookup 7).isSome ∧ c.Indexed := by
  have hany : (run (guarded (fun c a ↦ c.indexable a = true) step)
    newConnCache dialTwo.dropLast).any
      (fun c ↦ (c.conns.lookup 7).isSome) = true := by decide +kernel
  obtain ⟨c, hrun, hconn⟩ := exists_run_of_any hany
  exact ⟨c, hrun, hconn, (index_consistent_iff _ c hrun).1⟩

/-- A server at `a` is dialed. The address `a,1` is the path key of that connection, so a
reservation for it waits for a proxy and is given the connection; meanwhile the connection is closed
and removed. -/
def dialPath : List (Action Rid ℕ Unit) :=
  [.reserve (server .one), .unreserve 0 (some (7, server .one)) none none 0,
    .reserve ⟨['t', 'c', 'p'], ['a', ',', '1'], .one⟩,
    .find 0 [key ['t', 'c', 'p'] ['a', ',', '1']] true fun _ _ ↦ viewOf .active,
    .find 1 [.rid .one] true fun _ _ ↦ viewOf .closed,
    .unreserve 1 (some (7, server .one)) none none 0]

/-- The connection is inserted for the address `a,1`, and its entry stands twice under that key. -/
theorem entry_listed_twice :
    ∃ c e, run step newConnCache dialPath = some c ∧
      (c.cacheAt (key ['t', 'c', 'p'] ['a', ',', '1'])).count e = 2 := by
  have hany : (run step newConnCache dialPath).any (fun c ↦
      (c.cacheAt (key ['t', 'c', 'p'] ['a', ',', '1'])).any fun e ↦
        (c.cacheAt (key ['t', 'c', 'p'] ['a', ',', '1'])).count e == 2) = true := by decide +kernel
  obtain ⟨c, hrun, hc⟩ := exists_run_of_any hany
  obtain ⟨e, -, he⟩ := any_eq_true.mp hc
  exact ⟨c, e, hrun, beq_iff_eq.mp he⟩

end Vanadium.Manager.ConnCache
