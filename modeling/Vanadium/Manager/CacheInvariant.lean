import Vanadium.Manager.ConnCache

/-!
# The invariant of the connection cache

`Sound` says who holds which key, and counts for each reservation the calls of its `cancel` that
were made or can be made (`budget`): the `cancel` passes from the reservation to an entry of the
cache. This module shows that connections come and go without harm to it.

That no entry is removed twice rests on the lists of the cache: they have no duplicates, and their
entries are in `c.conns` (`Cached`). The loop of `rttEntriesLocked` runs over a slice from which it
removes entries in place; what it has not visited yet stays where it was (`Visiting`).
-/

namespace Vanadium.Manager

open Foundations Table List
open Option hiding map_map mem_map

/-! ## Removal from a slice -/

section RemoveEntry

variable {α : Type} [DecidableEq α] {l : List α} {a : α}

theorem removeEntryFromSlice_perm (l : List α) (a : α) :
    (removeEntryFromSlice l a).Perm (l.erase a) := by
  rw [removeEntryFromSlice]
  split
  · next ha =>
    obtain ⟨s, t, hs, rfl, herase⟩ := exists_erase_eq ha
    have hidx : (s ++ a :: t).idxOf a = s.length := by
      rw [idxOf_append_of_notMem hs, idxOf_cons_self, Nat.add_zero]
    rw [hidx, herase, set_append_right _ _ le_rfl, Nat.sub_self, set_cons_zero]
    rcases t.eq_nil_or_concat with rfl | ⟨t, b, rfl⟩
    · simp
    · have hlast : (s ++ a :: t.concat b).getLastD a = b := by
        rw [concat_eq_append, ← cons_append, ← append_assoc, getLastD_concat]
      have hdrop : (s ++ b :: t.concat b).dropLast = s ++ b :: t := by
        rw [concat_eq_append, ← cons_append, ← append_assoc, dropLast_concat]
      rw [hlast, hdrop, concat_eq_append]
      exact (perm_append_singleton b t).symm.append_left s
  · next ha => rw [erase_of_not_mem ha]

/-- The array is changed only where the entry was. -/
theorem getElem?_removeEntryFromSlice (ha : a ∈ l) {p : ℕ} (hp : l.idxOf a < p)
    (hlt : p < l.length - 1) : (removeEntryFromSlice l a)[p]? = l[p]? := by
  rw [removeEntryFromSlice, if_pos ha, getElem?_dropLast, length_set, if_pos hlt,
    getElem?_set_ne hp.ne]

end RemoveEntry

namespace ConnCache

variable {ρ γ ε : Type} {c c' : ConnCache ρ γ ε} {e : ConnEntry ρ γ} {k : Key ρ} {r : ℕ}

/-- Only connections come and go. -/
structure SameReservations (c c' : ConnCache ρ γ ε) : Prop where
  closed : c'.closed = c.closed
  reserved : c'.reserved = c.reserved
  outstanding : c'.outstanding = c.outstanding
  nextReservation : c'.nextReservation = c.nextReservation
  waiters : c'.waiters = c.waiters

theorem SameReservations.refl (c : ConnCache ρ γ ε) : SameReservations c c :=
  ⟨rfl, rfl, rfl, rfl, rfl⟩

theorem SameReservations.trans {c'' : ConnCache ρ γ ε} (h : SameReservations c c')
    (h' : SameReservations c' c'') : SameReservations c c'' :=
  ⟨h'.closed.trans h.closed, h'.reserved.trans h.reserved, h'.outstanding.trans h.outstanding,
    h'.nextReservation.trans h.nextReservation, h'.waiters.trans h.waiters⟩

/-- The entry may call the `cancel` of the reservation. -/
def charge (r : ℕ) (e : ConnEntry ρ γ) : ℕ := if e.cancel = some r then 1 else 0

theorem count_toList (o : Option ℕ) (r : ℕ) : o.toList.count r = if o = some r then 1 else 0 := by
  rcases o with _ | a
  · rfl
  · rw [toList_some, count_singleton]
    exact if_congr (beq_iff_eq.trans some_inj.symm) rfl rfl

theorem count_filterMap_cancel (l : List (Sigma fun _ : γ ↦ ConnEntry ρ γ)) (r : ℕ) :
    (l.filterMap fun e ↦ e.2.cancel).count r = (l.map fun e ↦ charge r e.2).sum := by
  induction l with
  | nil => rfl
  | cons e l ih =>
    rw [map_cons, sum_cons, ← ih, charge, ← count_toList]
    rcases he : e.2.cancel with _ | a
    · rw [filterMap_cons, he, toList_none, count_nil, Nat.zero_add]
    · rw [filterMap_cons, he, toList_some, ← count_append]
      rfl

variable [DecidableEq ρ]

/-- A `Find` that sleeps waits for a key that is reserved. -/
def Attended (c : ConnCache ρ γ ε) : Prop :=
  ∀ t w, c.waiters.lookup t = some w → w.woken = false →
    ∃ k ∈ w.keys, ∃ r, c.reserved.lookup k = some r

theorem Attended.of_sameReservations (h : c.Attended) (hsame : SameReservations c c') :
    c'.Attended := by
  rw [Attended, hsame.waiters, hsame.reserved]
  exact h

theorem Attended.erase (h : c.Attended) (t : ℕ) :
    { c with waiters := c.waiters.erase t }.Attended := by
  intro t' w hw
  rw [lookup_erase_eq_ite] at hw
  split at hw
  · nomatch hw
  · exact h t' w hw

/-- A call that goes to sleep has seen a reservation. -/
theorem Attended.insert (h : c.Attended) (t : ℕ) {keys : List (Key ρ)}
    (hkeys : c.hasReservationsLocked keys) :
    { c with waiters := c.waiters.insert t ⟨keys, false⟩ }.Attended := by
  intro t' w hw hwoken
  rw [lookup_insert_eq_ite] at hw
  split at hw
  · obtain rfl := some.inj hw
    obtain ⟨k, hk, hsome⟩ := any_eq_true.mp hkeys
    exact ⟨k, hk, isSome_iff_exists.mp hsome⟩
  · exact h t' w hw hwoken

theorem Attended.addReservation (h : c.Attended) (res : Reservation ρ) :
    (c.addReservation res).1.Attended := by
  intro t w hw hwoken
  obtain ⟨k, hk, r, hr⟩ := h t w hw hwoken
  refine ⟨k, hk, ?_⟩
  change ∃ r, AList.lookup k (res.keys.foldl (fun t k ↦
    t.insert k c.nextReservation) c.reserved) = _
  rw [lookup_foldl_insert]
  split
  · exact ⟨_, rfl⟩
  · exact ⟨r, hr⟩

/-! ## The lists of the cache -/

/-- One list of the cache is updated, and nothing else. -/
structure UpdatesAt (g : List (ConnEntry ρ γ) → List (ConnEntry ρ γ)) (k : Key ρ)
    (c c' : ConnCache ρ γ ε) : Prop where
  eq : c' = { c with cache := c'.cache }
  cacheAt : ∀ k', c'.cacheAt k' = if k' = k then g (c.cacheAt k) else c.cacheAt k'

theorem appendAt_updates (c : ConnCache ρ γ ε) (e : ConnEntry ρ γ) (k : Key ρ) :
    UpdatesAt (· ++ [e]) k c (c.appendAt e k) := by
  refine ⟨rfl, fun k' ↦ ?_⟩
  rw [cacheAt, appendAt, lookup_insert_eq_ite]
  split <;> rfl

/-- The lists of several keys are updated. -/
theorem foldl_updates {g : List (ConnEntry ρ γ) → List (ConnEntry ρ γ)}
    {op : ConnCache ρ γ ε → Key ρ → ConnCache ρ γ ε} (hop : ∀ c k, UpdatesAt g k c (op c k))
    (ks : List (Key ρ)) : ∀ c, ks.foldl op c = { c with cache := (ks.foldl op c).cache } ∧
      (ks.Nodup → ∀ k, (ks.foldl op c).cacheAt k = if k ∈ ks then g (c.cacheAt k) else
        c.cacheAt k) := by
  induction ks with
  | nil => exact fun c ↦ ⟨rfl, fun _ k ↦ rfl⟩
  | cons a ks ih =>
    intro c
    obtain ⟨heq, hat⟩ := ih (op c a)
    obtain ⟨heq', hat'⟩ := hop c a
    refine ⟨?_, fun hnodup k ↦ ?_⟩
    · rw [foldl_cons, heq, heq']
    · obtain ⟨ha, hks⟩ := nodup_cons.mp hnodup
      rw [foldl_cons, hat hks, hat']
      by_cases hk : k = a
      · subst hk
        rw [if_neg ha, if_pos rfl, if_pos mem_cons_self]
      · rw [if_neg hk]
        split
        · next hmem => rw [if_pos (mem_cons_of_mem _ hmem)]
        · next hmem => rw [if_neg fun h ↦ (mem_cons.mp h).elim hk hmem]

variable [DecidableEq γ] {s : ConnCache ρ γ ε × List (ConnEntry ρ γ) × Option ε} (view : View γ)
  {j : ℕ} {entries found : List (ConnEntry ρ γ)}

theorem removeAt_updates (c : ConnCache ρ γ ε) (e : ConnEntry ρ γ) (k : Key ρ) :
    UpdatesAt (removeEntryFromSlice · e) k c (c.removeAt e k) := by
  rw [removeAt]
  split
  · next hnone =>
    refine ⟨rfl, fun k' ↦ ?_⟩
    split
    · next hk =>
      rw [hk, cacheAt, hnone]
      rfl
    · rfl
  · next entries hsome =>
    refine ⟨rfl, fun k' ↦ ?_⟩
    rw [cacheAt, cacheAt, hsome]
    dsimp only
    split
    · next hlen =>
      rw [lookup_erase_eq_ite]
      split
      · exact (eq_nil_of_length_eq_zero hlen).symm
      · rfl
    · rw [lookup_insert_eq_ite]
      split <;> rfl

theorem removeEntryLocked_eq (c : ConnCache ρ γ ε) (e : ConnEntry ρ γ) :
    c.removeEntryLocked e = { c with
      cache := (c.removeEntryLocked e).cache
      conns := c.conns.erase e.conn
      cancelled := c.cancelled ++ e.cancel.toList } := by
  obtain ⟨heq, -⟩ := foldl_updates (fun c k ↦ removeAt_updates c e k) e.keys c
  rw [removeEntryLocked, heq]
  rfl

theorem cacheAt_removeEntryLocked (hkeys : e.keys.Nodup) (k : Key ρ) :
    (c.removeEntryLocked e).cacheAt k =
      if k ∈ e.keys then removeEntryFromSlice (c.cacheAt k) e else c.cacheAt k :=
  (foldl_updates (fun c k ↦ removeAt_updates c e k) e.keys c).2 hkeys k

/-- The lists of the cache have the entries of the connections. -/
structure Cached (c : ConnCache ρ γ ε) : Prop where
  mem_iff : ∀ k e, e ∈ c.cacheAt k ↔ c.conns.lookup e.conn = some e ∧ k ∈ e.keys
  nodup : ∀ k, (c.cacheAt k).Nodup
  conn : ∀ g e, c.conns.lookup g = some e → e.conn = g ∧ e.keys.Nodup

theorem Cached.remove (h : c.Cached) (he : c.conns.lookup e.conn = some e) :
    (c.removeEntryLocked e).Cached := by
  have hkeys := (h.conn _ e he).2
  have hconns : (c.removeEntryLocked e).conns = c.conns.erase e.conn := by rw [removeEntryLocked_eq]
  -- an entry with the same connection is the same entry
  have hlookup (e' : ConnEntry ρ γ) : (c.conns.erase e.conn).lookup e'.conn = some e' ↔
      e' ≠ e ∧ c.conns.lookup e'.conn = some e' := by
    rw [lookup_erase_eq_ite]
    split
    · next heq =>
      rw [heq, he]
      exact ⟨fun h ↦ (nomatch h), fun h ↦ absurd (some.inj h.2).symm h.1⟩
    · next hne => exact ⟨fun h ↦ ⟨fun heq ↦ hne (heq ▸ rfl), h⟩, fun h ↦ h.2⟩
  refine ⟨fun k e' ↦ ?_, fun k ↦ ?_, fun g e' hg ↦ ?_⟩
  · rw [cacheAt_removeEntryLocked hkeys, hconns, hlookup]
    split
    · rw [(removeEntryFromSlice_perm _ _).mem_iff, (h.nodup k).mem_erase_iff, h.mem_iff, and_assoc]
    · next hk =>
      rw [h.mem_iff]
      refine ⟨fun ⟨hl, hk'⟩ ↦ ⟨⟨fun heq ↦ hk (heq ▸ hk'), hl⟩, hk'⟩, fun ⟨⟨_, hl⟩, hk'⟩ ↦ ⟨hl, hk'⟩⟩
  · rw [cacheAt_removeEntryLocked hkeys]
    split
    · exact (removeEntryFromSlice_perm _ _).nodup_iff.mpr ((h.nodup k).erase _)
    · exact h.nodup k
  · rw [hconns, lookup_erase_eq_ite] at hg
    split at hg
    · nomatch hg
    · exact h.conn g e' hg

/-! ## The invariant -/

/-- The calls of the `cancel` of a reservation that were made or can be made. -/
def budget (c : ConnCache ρ γ ε) (r : ℕ) : ℕ :=
  c.cancelled.count r + (c.outstanding.lookup r).isSome.toNat + Table.total (charge r) c.conns

structure Sound (c : ConnCache ρ γ ε) : Prop where
  cached : c.Cached
  held : ∀ r res, c.outstanding.lookup r = some res → ∀ k ∈ res.keys, c.reserved.lookup k = some r
  owner : ∀ k r, c.reserved.lookup k = some r →
    ∃ res, c.outstanding.lookup r = some res ∧ k ∈ res.keys
  budget_le : ∀ r, c.budget r ≤ 1
  fresh : ∀ r, c.nextReservation ≤ r → c.budget r = 0
  closed : c.closed → ∀ r, c.outstanding.lookup r = none

theorem Sound.of_sameReservations (h : c.Sound) (hsame : SameReservations c c')
    (hcached : c'.Cached) (hle : ∀ r, c'.budget r ≤ 1)
    (hfresh : ∀ r, c.nextReservation ≤ r → c'.budget r = 0) :
    c'.Sound := by
  refine ⟨hcached, ?_, ?_, hle, ?_, ?_⟩
  · rw [hsame.outstanding, hsame.reserved]
    exact h.held
  · rw [hsame.outstanding, hsame.reserved]
    exact h.owner
  · rw [hsame.nextReservation]
    exact hfresh
  · rw [hsame.closed, hsame.outstanding]
    exact h.closed

/-- Connections are removed, and their `cancel` is accounted for. -/
structure Removes (c c' : ConnCache ρ γ ε) : Prop where
  cached : c'.Cached
  same : SameReservations c c'
  budget : ∀ r, c'.budget r = c.budget r

theorem Cached.removes_refl (h : c.Cached) : Removes c c := ⟨h, .refl c, fun _ ↦ rfl⟩

theorem Removes.trans {c'' : ConnCache ρ γ ε} (h : Removes c c') (h' : Removes c' c'') :
    Removes c c'' :=
  ⟨h'.cached, h.same.trans h'.same, fun r ↦ (h'.budget r).trans (h.budget r)⟩

theorem Sound.of_removes (h : c.Sound) (hr : Removes c c') : c'.Sound := by
  refine h.of_sameReservations hr.same hr.cached (fun r ↦ ?_) fun r hfresh ↦ ?_
  · rw [hr.budget]
    exact h.budget_le r
  · rw [hr.budget]
    exact h.fresh r hfresh

theorem sound_newConnCache : (newConnCache : ConnCache ρ γ ε).Sound :=
  ⟨⟨fun _ _ ↦ ⟨fun h ↦ (nomatch h), fun h ↦ (nomatch h.1)⟩, fun _ ↦ nodup_nil,
    fun _ _ h ↦ (nomatch h)⟩, fun _ _ h ↦ (nomatch h), fun _ _ h ↦ (nomatch h),
      fun _ ↦ Nat.zero_le 1,
    fun _ _ ↦ rfl, fun h ↦ (nomatch h)⟩

/-! ## Removing connections -/

theorem removeEntryLocked_sameReservations (c : ConnCache ρ γ ε) (e : ConnEntry ρ γ) :
    SameReservations c (c.removeEntryLocked e) := by
  rw [removeEntryLocked_eq]
  exact ⟨rfl, rfl, rfl, rfl, rfl⟩

/-- The call of `cancel` was accounted for. -/
theorem budget_removeEntryLocked (he : c.conns.lookup e.conn = some e) (r : ℕ) :
    (c.removeEntryLocked e).budget r = c.budget r := by
  rw [removeEntryLocked_eq, budget, budget, total_erase he]
  dsimp only
  rw [count_append, count_toList, charge]
  omega

theorem Cached.removes (h : c.Cached) (he : c.conns.lookup e.conn = some e) :
    Removes c (c.removeEntryLocked e) :=
  ⟨h.remove he, removeEntryLocked_sameReservations c e, budget_removeEntryLocked he⟩

theorem lookup_conns_removeEntryLocked {e' : ConnEntry ρ γ}
    (he : c.conns.lookup e.conn = some e) (he' : c.conns.lookup e'.conn = some e') (hne : e' ≠ e) :
    (c.removeEntryLocked e).conns.lookup e'.conn = some e' := by
  rw [removeEntryLocked_eq]
  rw [AList.lookup_erase_ne fun heq ↦ hne ?_]
  · exact he'
  · rw [heq, he] at he'
    exact (some.inj he').symm

/-- Entries that are in the cache are removed one after the other. -/
theorem Cached.removeAll (es : List (ConnEntry ρ γ)) {c : ConnCache ρ γ ε} (h : c.Cached)
    (hnodup : es.Nodup) (hes : ∀ e ∈ es, c.conns.lookup e.conn = some e) :
    Removes c (es.foldl removeEntryLocked c) := by
  induction es generalizing c with
  | nil => exact h.removes_refl
  | cons e es ih =>
    obtain ⟨he, hnodup⟩ := nodup_cons.mp hnodup
    have hmem := hes e mem_cons_self
    exact (h.removes hmem).trans (ih (h.remove hmem) hnodup fun e' he' ↦
      lookup_conns_removeEntryLocked hmem (hes e' (mem_cons_of_mem _ he')) fun heq ↦ he (heq ▸ he'))

/-- A round of the loop over `found` keeps the rest of `found`: the entry is removed at a position
that was visited. -/
structure Visiting (c : ConnCache ρ γ ε) (k : Key ρ) (j : ℕ) (c' : ConnCache ρ γ ε)
    (found : List (ConnEntry ρ γ)) : Prop where
  removes : Removes c c'
  rest : ∀ p, j ≤ p → found[p]? = (c.cacheAt k)[p]?
  array : found.take (c'.cacheAt k).length = c'.cacheAt k
  left : ∀ p e, j ≤ p → (c.cacheAt k)[p]? = some e → c'.conns.lookup e.conn = some e

theorem Visiting.remove (hc : c.Cached)
    (h : Visiting c k j c' found) (he : found[j]? = some e) :
    Visiting c k (j + 1) (c'.removeEntryLocked e)
      ((c'.removeEntryLocked e).cacheAt k ++
        found.drop ((c'.removeEntryLocked e).cacheAt k).length) := by
  have he₀ : (c.cacheAt k)[j]? = some e := (h.rest j le_rfl).symm.trans he
  have hconns := h.left j e le_rfl he₀
  have hk : k ∈ e.keys := ((hc.mem_iff k e).mp (mem_of_getElem? he₀)).2
  have hmem : e ∈ c'.cacheAt k := (h.removes.cached.mem_iff k e).mpr ⟨hconns, hk⟩
  have hat : (c'.removeEntryLocked e).cacheAt k = removeEntryFromSlice (c'.cacheAt k) e := by
    rw [cacheAt_removeEntryLocked (h.removes.cached.conn _ e hconns).2, if_pos hk]
  have hlen := (removeEntryFromSlice_perm _ _).length_eq.trans (length_erase_of_mem hmem)
  -- the entry is found in the slice at `j` or before
  have hidx : (c'.cacheAt k).idxOf e ≤ j := by
    rcases lt_or_ge j (c'.cacheAt k).length with hj | hj
    · have hget : (c'.cacheAt k)[j]? = some e := by
        rw [← h.array, getElem?_take_of_lt hj, he]
      obtain ⟨hlt, rfl⟩ := List.getElem?_eq_some_iff.mp hget
      rw [(h.removes.cached.nodup k).idxOf_getElem]
    · exact (List.idxOf_lt_length_of_mem hmem).le.trans hj
  refine ⟨h.removes.trans (h.removes.cached.removes hconns), fun p hp ↦ ?_, ?_,
    fun p e' hp hp' ↦ ?_⟩
  · rw [← h.rest p (by omega), hat, getElem?_append, getElem?_drop, hlen]
    split
    · next hlt =>
      rw [getElem?_removeEntryFromSlice hmem (by omega) hlt, ← h.array]
      exact getElem?_take_of_lt (by omega)
    · congr 1
      omega
  · rw [take_left]
  · refine lookup_conns_removeEntryLocked hconns (h.left p e' (by omega) hp') fun heq ↦ ?_
    -- there are no duplicates in the list
    subst heq
    obtain ⟨hlt, -⟩ := List.getElem?_eq_some_iff.mp he₀
    have := (List.getElem?_inj hlt (hc.nodup k)).mp (he₀.trans hp'.symm)
    omega

theorem Visiting.step (hc : c.Cached) (view : View γ)
    (h : Visiting c k j c' found) :
    Visiting c k (j + 1) (visitFound view k (c', found, entries) j).1
      (visitFound view k (c', found, entries) j).2.1 := by
  have hnext : Visiting c k (j + 1) c' found :=
    ⟨h.removes, fun p hp ↦ h.rest p (by omega), h.array, fun p e hp ↦ h.left p e (by omega)⟩
  rw [visitFound]
  split
  · exact hnext
  · next e he =>
    split
    · exact h.remove hc he
    split
    · exact hnext
    · exact hnext

/-- The loop over `found`. -/
theorem Cached.visitAll (h : c.Cached) (view : ℕ → View γ) (k : Key ρ)
    (entries : List (ConnEntry ρ γ)) (n : ℕ) : Visiting c k n
      ((range n).foldl (fun s j ↦ visitFound (view j) k s j) (c, c.cacheAt k, entries)).1
      ((range n).foldl (fun s j ↦ visitFound (view j) k s j) (c, c.cacheAt k, entries)).2.1 := by
  induction n with
  | zero =>
    exact ⟨h.removes_refl, fun _ _ ↦ rfl, take_length,
      fun p e _ hp ↦ ((h.mem_iff k e).mp (mem_of_getElem? hp)).1⟩
  | succ n ih =>
    rw [range_succ, foldl_append]
    exact ih.step h (view n)

theorem Cached.rttEntriesKey (h : s.1.Cached) (view : ℕ → View γ) (k : Key ρ) :
    Removes s.1 (rttEntriesKey view s k).1 := by
  rw [ConnCache.rttEntriesKey]
  split
  · exact (h.visitAll view k s.2.1 (s.1.cacheAt k).length).removes
  · exact h.removes_refl

theorem Cached.rttEntriesKeys (view : Views γ) (keys : List (Key ρ × ℕ)) (h : s.1.Cached) :
    Removes s.1 (keys.foldl (fun s k ↦ ConnCache.rttEntriesKey (view k.2) s k.1) s).1 := by
  induction keys generalizing s with
  | nil => exact h.removes_refl
  | cons k keys ih =>
    have hkey := h.rttEntriesKey (view k.2) k.1
    exact hkey.trans (ih hkey.cached)

/-- A loop of `KillConnections` removes entries, keeps them for the next loop, or passes over
them. -/
inductive Sifts (s : ConnCache ρ γ ε × ℤ × List (ConnEntry ρ γ)) (e : ConnEntry ρ γ) :
    ConnCache ρ γ ε × ℤ × List (ConnEntry ρ γ) → Prop
  | remove (n : ℤ) : Sifts s e (s.1.removeEntryLocked e, n, s.2.2)
  | keep (n : ℤ) : Sifts s e (s.1, n, s.2.2 ++ [e])
  | pass (n : ℤ) : Sifts s e (s.1, n, s.2.2)

theorem killDead_sifts (s : ConnCache ρ γ ε × ℤ × List (ConnEntry ρ γ))
    (e : ConnEntry ρ γ) : Sifts s e (killDead view s e) := by
  rw [killDead]
  split
  · exact .remove _
  split
  · exact .remove _
  · exact .keep _

theorem killIdle_sifts (s : ConnCache ρ γ ε × ℤ × List (ConnEntry ρ γ))
    (e : ConnEntry ρ γ) : Sifts s e (killIdle view s e) := by
  rw [killIdle]
  split
  · exact .remove _
  split
  · exact .keep _
  · exact .pass _

theorem Cached.sift {op : ConnCache ρ γ ε × ℤ × List (ConnEntry ρ γ) → ConnEntry ρ γ →
      ConnCache ρ γ ε × ℤ × List (ConnEntry ρ γ)} (hop : ∀ s e, Sifts s e (op s e))
    (es : List (ConnEntry ρ γ)) {s : ConnCache ρ γ ε × ℤ × List (ConnEntry ρ γ)} (h : s.1.Cached)
    (hnodup : (s.2.2 ++ es).Nodup) (hmem : ∀ e ∈ s.2.2 ++ es, s.1.conns.lookup e.conn = some e) :
    Removes s.1 (es.foldl op s).1 ∧ (es.foldl op s).2.2.Nodup ∧
      ∀ e ∈ (es.foldl op s).2.2, (es.foldl op s).1.conns.lookup e.conn = some e := by
  induction es generalizing s with
  | nil =>
    rw [append_nil] at hnodup hmem
    exact ⟨h.removes_refl, hnodup, hmem⟩
  | cons e es ih =>
    have he := hmem e (mem_append_right _ mem_cons_self)
    have hsub : (s.2.2 ++ es).Sublist (s.2.2 ++ e :: es) :=
      (sublist_cons_self e es).append_left s.2.2
    rw [foldl_cons]
    rcases hstep : op s e with ⟨d, n, kept⟩
    rcases hstep ▸ hop s e with n | n | n
    · have hne {e' : ConnEntry ρ γ} (he' : e' ∈ s.2.2 ++ es) : e' ≠ e := by
        rintro rfl
        exact (nodup_cons.mp (nodup_middle.mp hnodup)).1 he'
      obtain ⟨hremoves, hrest⟩ := ih (s := (s.1.removeEntryLocked e, n, s.2.2)) (h.remove he)
        (hnodup.sublist hsub) fun e' he' ↦
          lookup_conns_removeEntryLocked he (hmem e' (hsub.subset he')) (hne he')
      exact ⟨(h.removes he).trans hremoves, hrest⟩
    · refine ih (s := (s.1, n, s.2.2 ++ [e])) h ?_ ?_
      · rwa [append_assoc]
      · rwa [append_assoc]
    · exact ih (s := (s.1, n, s.2.2)) h (hnodup.sublist hsub) fun e' he' ↦ hmem e' (hsub.subset he')

theorem mem_values_iff (h : c.Cached) :
    e ∈ (c.conns.entries.map fun e ↦ e.2) ↔ c.conns.lookup e.conn = some e := by
  rw [mem_map]
  refine ⟨fun ⟨⟨g, e'⟩, hmem, heq⟩ ↦ ?_, fun he ↦ ⟨⟨e.conn, e⟩, mem_entries_iff.mpr he, rfl⟩⟩
  have hg := mem_entries_iff.mp hmem
  rw [← heq, (h.conn g e' hg).1]
  exact hg

theorem nodup_values (h : c.Cached) : (c.conns.entries.map fun e ↦ e.2).Nodup := by
  refine List.Nodup.of_map ConnEntry.conn ?_
  rw [map_map]
  have hkeys : c.conns.entries.map (ConnEntry.conn ∘ fun e ↦ e.2) = c.conns.keys := by
    refine map_congr_left fun ⟨g, e⟩ hmem ↦ ?_
    exact (h.conn g e (mem_entries_iff.mp hmem)).1
  rw [hkeys]
  exact c.conns.nodupKeys

theorem Sound.congr_errors (h : c.Sound) (t : Table (Key ρ) (DialError ε)) :
    { c with errors := t }.Sound :=
  h.of_sameReservations ⟨rfl, rfl, rfl, rfl, rfl⟩ ⟨h.cached.mem_iff, h.cached.nodup, h.cached.conn⟩
    h.budget_le h.fresh

theorem Cached.killConnections (h : c.Cached) (num : ℤ)
    (first second : View γ) (now : ℕ) (hentries : entries.Perm (c.conns.entries.map fun e ↦ e.2)) :
    Removes c (c.killConnections entries num first second now) := by
  rw [ConnCache.killConnections]
  split
  · exact h.removes_refl
  generalize (c.errors.entries.foldl
    (fun t e ↦ if e.2.when + maxErrorAge < now then t.erase e.1 else t) c.errors) = errors
  have h₀ : Removes c { c with errors := errors } :=
    ⟨⟨h.mem_iff, h.nodup, h.conn⟩, ⟨rfl, rfl, rfl, rfl, rfl⟩, fun _ ↦ rfl⟩
  obtain ⟨h₁, hnodup₁, hmem₁⟩ := h₀.cached.sift (killDead_sifts first) entries
    (s := ({ c with errors := errors }, num, [])) (hentries.nodup_iff.mpr (nodup_values h))
    fun e he ↦ (mem_values_iff h).mp (hentries.mem_iff.mp he)
  dsimp only
  generalize entries.foldl (killDead first) ({ c with errors := errors }, num, []) = x
    at h₁ hnodup₁ hmem₁ ⊢
  obtain ⟨h₂, hnodup₂, hmem₂⟩ := Cached.sift (killIdle_sifts second) x.2.2
    (s := (x.1, x.2.1, [])) h₁.cached hnodup₁ hmem₁
  generalize x.2.2.foldl (killIdle second) (x.1, x.2.1, []) = y at h₂ hnodup₂ hmem₂ ⊢
  have hboth : Removes c y.1 := h₀.trans (h₁.trans h₂)
  split
  · exact hboth
  · have hperm := perm_insertionSort
      (fun e e' : ConnEntry ρ γ ↦ second.lastUsed e.conn ≤ second.lastUsed e'.conn) y.2.2
    exact hboth.trans (h₂.cached.removeAll _
      ((hperm.nodup_iff.mpr hnodup₂).sublist (take_sublist y.2.1.toNat _))
      fun e he ↦ hmem₂ e (hperm.mem_iff.mp (mem_of_mem_take he)))

/-! ## Finding connections -/

theorem Cached.rttEntriesLocked (h : c.Cached) (view : Views γ) (keys : List (Key ρ)) :
    Removes c (c.rttEntriesLocked view keys).1 :=
  Cached.rttEntriesKeys (s := (c, [], none)) view keys.zipIdx h

/-- A round of `internalFind` only removes connections, except for what it does to the waiters. -/
theorem Cached.internalFind (h : c.Cached) (t : ℕ) (keys : List (Key ρ)) (wait : Bool)
    (view : Views γ) : ∃ x waiters, Removes c x ∧
      c.internalFind t keys wait view = { x with waiters := waiters } ∧
      (waiters = x.waiters.erase t ∨
        x.hasReservationsLocked keys ∧ waiters = x.waiters.insert t ⟨keys, false⟩) := by
  have hremoves := h.rttEntriesLocked view keys
  rw [ConnCache.internalFind, findRound]
  by_cases hclosed : c.closed
  · rw [if_pos hclosed]
    exact ⟨c, _, h.removes_refl, rfl, .inl rfl⟩
  rw [if_neg hclosed]
  dsimp only
  generalize c.rttEntriesLocked view keys = x at hremoves ⊢
  by_cases hdone : 0 < x.2.1.length ∨ wait = false ∨ x.1.hasReservationsLocked keys = false
  · rw [if_pos hdone]
    exact ⟨x.1, _, hremoves, rfl, .inl rfl⟩
  · rw [if_neg hdone]
    obtain ⟨-, hno⟩ := not_or.mp hdone
    exact ⟨x.1, _, hremoves, rfl, .inr ⟨Bool.of_not_eq_false (not_or.mp hno).2, rfl⟩⟩

theorem Sound.congr_waiters (h : c.Sound) (t : Table ℕ (Waiter ρ)) :
    { c with waiters := t }.Sound :=
  ⟨⟨h.cached.mem_iff, h.cached.nodup, h.cached.conn⟩, h.held, h.owner, h.budget_le,
    h.fresh, h.closed⟩

theorem Sound.internalFind (h : c.Sound) (hwait : c.Attended) (t : ℕ) (keys : List (Key ρ))
    (wait : Bool) (view : Views γ) :
    (c.internalFind t keys wait view).Sound ∧ (c.internalFind t keys wait view).Attended := by
  obtain ⟨x, waiters, hremoves, heq, hwaiters⟩ := h.cached.internalFind t keys wait view
  have hattended := hwait.of_sameReservations hremoves.same
  rw [heq]
  refine ⟨(h.of_removes hremoves).congr_waiters _, ?_⟩
  rcases hwaiters with rfl | ⟨hkeys, rfl⟩
  · exact hattended.erase t
  · exact hattended.insert t hkeys

/-! ## Inserting connections -/

theorem addEntry_eq (c : ConnCache ρ γ ε) (e : ConnEntry ρ γ) :
    c.addEntry e = { c with
      cache := (c.addEntry e).cache
      conns := c.conns.insert e.conn e } := by
  obtain ⟨heq, -⟩ := foldl_updates (fun c k ↦ appendAt_updates c e k) e.keys c
  rw [addEntry, heq]

theorem cacheAt_addEntry (hkeys : e.keys.Nodup) (k : Key ρ) :
    (c.addEntry e).cacheAt k = if k ∈ e.keys then c.cacheAt k ++ [e] else c.cacheAt k :=
  (foldl_updates (fun c k ↦ appendAt_updates c e k) e.keys c).2 hkeys k

theorem Cached.addEntry (h : c.Cached) (hnone : c.conns.lookup e.conn = none)
    (hkeys : e.keys.Nodup) : (c.addEntry e).Cached := by
  have hconns : (c.addEntry e).conns = c.conns.insert e.conn e := by rw [addEntry_eq]
  have hnew (k : Key ρ) : e ∉ c.cacheAt k := by
    rw [h.mem_iff, hnone]
    exact fun h ↦ nomatch h.1
  refine ⟨fun k e' ↦ ?_, fun k ↦ ?_, fun g e' hg ↦ ?_⟩
  · rw [cacheAt_addEntry hkeys, hconns, lookup_insert_eq_ite]
    by_cases hconn : e'.conn = e.conn
    · have hold : e' ∉ c.cacheAt k := by
        rw [h.mem_iff, hconn, hnone]
        exact fun h ↦ nomatch h.1
      split
      · next hk =>
        rw [mem_append, mem_singleton, some_inj]
        refine ⟨fun h ↦ ?_, fun h ↦ .inr h.1.symm⟩
        rcases h with h | rfl
        · exact absurd h hold
        · exact ⟨rfl, hk⟩
      · next hk =>
        refine ⟨fun h ↦ absurd h hold, fun ⟨heq, hk'⟩ ↦ absurd ?_ hk⟩
        rw [some.inj heq]
        exact hk'
    · have hne : e' ≠ e := fun heq ↦ hconn (heq ▸ rfl)
      rw [if_neg hconn, ← h.mem_iff]
      split
      · rw [mem_append, mem_singleton]
        exact ⟨fun h ↦ h.resolve_right hne, .inl⟩
      · rfl
  · rw [cacheAt_addEntry hkeys]
    split
    · exact (h.nodup k).append (nodup_singleton e) (disjoint_singleton.mpr (hnew k))
    · exact h.nodup k
  · rw [hconns, lookup_insert_eq_ite] at hg
    split at hg
    · next hg' =>
      obtain rfl := some.inj hg
      exact ⟨hg'.symm, hkeys⟩
    · exact h.conn g e' hg

theorem budget_addEntry (hnone : c.conns.lookup e.conn = none) (r : ℕ) :
    (c.addEntry e).budget r = c.budget r + charge r e := by
  rw [addEntry_eq, budget, budget]
  dsimp only
  rw [total_insert e hnone]
  omega

theorem addEntry_sameReservations (c : ConnCache ρ γ ε) (e : ConnEntry ρ γ) :
    SameReservations c (c.addEntry e) := by
  rw [addEntry_eq]
  exact ⟨rfl, rfl, rfl, rfl, rfl⟩

/-- The `cancel` of a reservation that has none yet may be used. -/
def Unused (c : ConnCache ρ γ ε) (cancel : Option ℕ) : Prop :=
  ∀ r, cancel = some r → c.budget r = 0 ∧ r < c.nextReservation

theorem Sound.addEntry (h : c.Sound) (hnone : c.conns.lookup e.conn = none) (hkeys : e.keys.Nodup)
    (hcancel : c.Unused e.cancel) : (c.addEntry e).Sound := by
  refine h.of_sameReservations (addEntry_sameReservations c e) (h.cached.addEntry hnone hkeys)
    (fun r ↦ ?_) fun r hr ↦ ?_
  · rw [budget_addEntry hnone, charge]
    split
    · next hr => rw [(hcancel r hr).1]
    · exact h.budget_le r
  · rw [budget_addEntry hnone, charge, if_neg fun heq ↦ ?_]
    · exact h.fresh r hr
    · have := (hcancel r heq).2
      omega

theorem Sound.callCancel (h : c.Sound) {cancel : Option ℕ} (hcancel : c.Unused cancel) :
    (c.callCancel cancel).Sound := by
  have hbudget (r : ℕ) :
      (c.callCancel cancel).budget r = c.budget r + if cancel = some r then 1 else 0 := by
    rw [ConnCache.callCancel, budget, budget]
    dsimp only
    rw [count_append, count_toList]
    omega
  refine h.of_sameReservations ⟨rfl, rfl, rfl, rfl, rfl⟩
    ⟨h.cached.mem_iff, h.cached.nodup, h.cached.conn⟩ (fun r ↦ ?_) fun r hr ↦ ?_
  · rw [hbudget]
    split
    · next hr => rw [(hcancel r hr).1]
    · exact h.budget_le r
  · rw [hbudget, if_neg fun heq ↦ ?_]
    · exact h.fresh r hr
    · have := (hcancel r heq).2
      omega

end ConnCache

end Vanadium.Manager
