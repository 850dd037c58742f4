import Vanadium.Foundations.Transition
import Vanadium.Manager.CacheInvariant

/-!
# One dial for each key

Each key is held by one outstanding reservation at most, the one that `c.reserved` has for it, and
the context of a reservation is cancelled once at most. This is proved for runs in which

* a `Reserve` that finds its address neither cached nor reserved finds its path not reserved,
* `Close` is called while no reservation is outstanding, and
* the keys of a connection that was dialed are distinct: no address contains a comma such that an
  address key is a path key.
-/

namespace Vanadium.Manager

open Foundations Table Foundations.Transition Option

namespace ConnCache

variable {ρ γ ε : Type} [DecidableEq ρ] [DecidableEq γ] {c c' : ConnCache ρ γ ε} {r : ℕ}
  {x : ConnCache ρ γ ε × Option ℕ} {conn : Option (γ × Endpoint ρ)}

/-! ## Reservations -/

section

variable (h : c.Sound)
include h

theorem Sound.lookup_of_fresh (hr : c.nextReservation ≤ r) : c.outstanding.lookup r = none := by
  have hzero := h.fresh r hr
  rw [budget] at hzero
  rcases hres : c.outstanding.lookup r with _ | res
  · rfl
  · rw [hres] at hzero
    change _ + 1 + _ = 0 at hzero
    omega

variable {res : Reservation ρ} {remote : Endpoint ρ} {cancel : Option ℕ}
  {proxyConn : Option (γ × Endpoint ρ)}

theorem Sound.addReservation (hopen : c.closed = false)
    (hfree : ∀ k ∈ res.keys, c.reserved.lookup k = none) : (c.addReservation res).1.Sound := by
  have hreserved (k : Key ρ) : (c.addReservation res).1.reserved.lookup k =
      if k ∈ res.keys then some c.nextReservation else c.reserved.lookup k :=
    lookup_foldl_insert res.keys c.reserved c.nextReservation k
  have houtstanding (r : ℕ) : (c.addReservation res).1.outstanding.lookup r =
      if r = c.nextReservation then some res else c.outstanding.lookup r :=
    lookup_insert_eq_ite c.outstanding c.nextReservation r res
  have hnone := h.lookup_of_fresh le_rfl
  refine ⟨⟨h.cached.mem_iff, h.cached.nodup, h.cached.conn⟩, fun r res' hr k hk ↦ ?_,
    fun k r hk ↦ ?_, fun r ↦ ?_, fun r hr ↦ ?_, fun hclosed ↦ ?_⟩
  · rw [houtstanding] at hr
    rw [hreserved]
    split at hr
    · next heq =>
      obtain rfl := some.inj hr
      rw [if_pos hk, heq]
    · have hold := h.held r res' hr k hk
      rw [if_neg fun hmem ↦ ?_]
      · exact hold
      · rw [hfree k hmem] at hold
        contradiction
  · rw [hreserved] at hk
    rw [houtstanding]
    split at hk
    · next hmem =>
      rw [if_pos (some.inj hk).symm]
      exact ⟨res, rfl, hmem⟩
    · obtain ⟨res', hres', hmem⟩ := h.owner k r hk
      rw [if_neg fun heq ↦ ?_]
      · exact ⟨res', hres', hmem⟩
      · rw [heq, hnone] at hres'
        contradiction
  · rw [budget, houtstanding]
    split
    · next heq =>
      have hzero := h.fresh r heq.ge
      rw [budget, heq, hnone] at hzero
      rw [heq]
      change c.cancelled.count c.nextReservation + 1 + total (charge c.nextReservation) c.conns ≤ 1
      omega
    · exact h.budget_le r
  · change c.nextReservation + 1 ≤ r at hr
    rw [budget, houtstanding, if_neg (by omega)]
    exact h.fresh r (by omega)
  · change c.closed = true at hclosed
    rw [hopen] at hclosed
    contradiction

/-- The reservation is taken out. -/
theorem Sound.eraseReservation
    (hres : c.outstanding.lookup r = some res) {d : ConnCache ρ γ ε}
    (hd : d = { c with
      outstanding := c.outstanding.erase r
      reserved := res.keys.foldl (fun t k ↦ t.erase k) c.reserved }) :
    d.Sound ∧ d.Unused (some r) := by
  have hreserved (k : Key ρ) :
      d.reserved.lookup k = if k ∈ res.keys then none else c.reserved.lookup k := by
    rw [hd]
    exact lookup_foldl_erase res.keys c.reserved k
  have houtstanding (r' : ℕ) :
      d.outstanding.lookup r' = if r' = r then none else c.outstanding.lookup r' := by
    rw [hd]
    exact lookup_erase_eq_ite c.outstanding r r'
  have hbudget (r' : ℕ) : d.budget r' + (if r' = r then 1 else 0) = c.budget r' := by
    rw [budget, houtstanding, budget, hd]
    split
    · next heq =>
      rw [heq, hres]
      dsimp only
      change _ + 0 + _ + 1 = _ + 1 + _
      omega
    · rfl
  have hzero : d.budget r = 0 := by
    have hle := h.budget_le r
    have heq := hbudget r
    rw [if_pos rfl] at heq
    omega
  have hlt : r < c.nextReservation := by
    by_contra hge
    rw [h.lookup_of_fresh (not_lt.mp hge)] at hres
    contradiction
  refine ⟨⟨?_, fun r' res' hr' k hk ↦ ?_, fun k r' hk ↦ ?_, fun r' ↦ ?_, fun r' hr' ↦ ?_,
    fun hclosed r' ↦ ?_⟩, fun r' hr' ↦ ?_⟩
  · rw [hd]
    exact ⟨h.cached.mem_iff, h.cached.nodup, h.cached.conn⟩
  · rw [houtstanding] at hr'
    obtain ⟨hne, hr'⟩ := ite_none_left_eq_some.mp hr'
    have hold := h.held r' res' hr' k hk
    rw [hreserved, if_neg fun hmem ↦ hne ?_]
    · exact hold
    · rw [h.held r res hres k hmem] at hold
      exact (some.inj hold).symm
  · rw [hreserved] at hk
    obtain ⟨hmem, hk⟩ := ite_none_left_eq_some.mp hk
    obtain ⟨res', hres', hk'⟩ := h.owner k r' hk
    rw [houtstanding, if_neg fun heq ↦ hmem ?_]
    · exact ⟨res', hres', hk'⟩
    · rw [heq, hres] at hres'
      rw [some.inj hres']
      exact hk'
  · have := hbudget r'
    have := h.budget_le r'
    omega
  · have := hbudget r'
    rw [hd] at hr'
    have := h.fresh r' hr'
    omega
  · rw [hd] at hclosed
    rw [houtstanding, h.closed hclosed r', ite_self]
  · obtain rfl := some.inj hr'
    refine ⟨hzero, ?_⟩
    rw [hd]
    exact hlt

/-! ## Closing the cache -/

theorem Sound.close (hwait : c.Attended) (hnone : ∀ r, c.outstanding.lookup r = none) :
    c.close.Sound ∧ c.close.Attended := by
  have hfree (k : Key ρ) : c.reserved.lookup k = none := by
    rcases hk : c.reserved.lookup k with _ | r
    · rfl
    · obtain ⟨res, hres, -⟩ := h.owner k r hk
      rw [hnone r] at hres
      contradiction
  have hreserved : c.reserved.entries = [] := by
    rw [List.eq_nil_iff_forall_not_mem]
    rintro ⟨k, r⟩ hmem
    rw [mem_entries_iff, hfree] at hmem
    contradiction
  have hbudget (r : ℕ) : c.close.budget r = c.budget r := by
    rw [budget, budget, ConnCache.close]
    dsimp only
    rw [hreserved, List.map_nil, List.append_nil, List.count_append, count_filterMap_cancel,
      total, total]
    change _ + _ + _ + 0 = _
    omega
  refine ⟨⟨⟨fun k e ↦ ?_, fun k ↦ List.nodup_nil, fun g e hg ↦ by contradiction⟩,
    fun r res hr ↦ ?_, fun k r hk ↦ by contradiction, fun r ↦ ?_, fun r hr ↦ ?_, fun _ ↦ hnone⟩,
      fun t w hw hwoken ↦ ?_⟩
  · exact ⟨fun h ↦ by contradiction, fun h ↦ by obtain ⟨hmem, -⟩ := h; contradiction⟩
  · rw [show c.close.outstanding = c.outstanding from rfl, hnone r] at hr
    contradiction
  · rw [hbudget]
    exact h.budget_le r
  · rw [hbudget]
    exact h.fresh r hr
  · obtain ⟨k, -, r, hk⟩ := hwait t w hw hwoken
    rw [hfree k] at hk
    contradiction

variable [RoutingID ρ]

theorem Sound.insertConnLocked {ep : Endpoint ρ} (g : γ) (proxy : Bool)
    {keyByAddr : Bool} (hkeys : (entryKeys remote ep keyByAddr).Nodup) (hcancel : c.Unused cancel)
    {x : ConnCache ρ γ ε × Bool} (hx : c.insertConnLocked remote g ep proxy keyByAddr cancel = x) :
    x.1.Sound ∧ SameReservations c x.1 ∧ (x.2 = false → x.1 = c) := by
  rw [← hx, ConnCache.insertConnLocked]
  split
  · exact ⟨h, .refl c, fun _ ↦ rfl⟩
  · next hnone =>
    rw [not_isSome_iff_eq_none] at hnone
    exact ⟨h.addEntry hnone hkeys hcancel, addEntry_sameReservations c _,
      fun hfalse ↦ by contradiction⟩

/-- The condition on `Reserve`. -/
def pathFree (c : ConnCache ρ γ ε) (remote : Endpoint ρ) : Bool :=
  let k := key remote.protocol remote.address
  let pk := pathkey remote.protocol remote.address remote.routingID
  (c.cacheAt k).length ≠ 0 || (c.reserved.lookup k).isSome || (c.reserved.lookup pk).isNone

theorem Sound.reserve (hwait : c.Attended) (hfree : c.pathFree remote) :
    (c.reserve remote).1.Sound ∧ (c.reserve remote).1.Attended := by
  rw [ConnCache.reserve]
  split
  · exact ⟨h, hwait⟩
  split
  · exact ⟨h, hwait⟩
  rename_i hopen
  have hopen := Bool.eq_false_iff.mpr hopen
  dsimp only
  split
  · split
    · exact ⟨h, hwait⟩
    · next hno =>
      refine ⟨h.addReservation hopen fun k hk ↦ ?_, hwait.addReservation _⟩
      rw [List.mem_singleton.mp hk]
      exact not_isSome_iff_eq_none.mp (not_or.mp hno).2
  · split
    · next hk =>
      refine ⟨h.addReservation hopen fun k hmem ↦ ?_, hwait.addReservation _⟩
      rcases List.mem_cons.mp hmem with rfl | hmem
      · exact isNone_iff_eq_none.mp hk.2
      · rw [List.mem_singleton.mp hmem]
        rw [pathFree] at hfree
        rw [hk.1, isNone_iff_eq_none.mp hk.2] at hfree
        exact isNone_iff_eq_none.mp hfree
    split
    · next hpk =>
      refine ⟨h.addReservation hopen fun k hk ↦ ?_, hwait.addReservation _⟩
      rw [List.mem_singleton.mp hk]
      exact isNone_iff_eq_none.mp hpk.2
    · exact ⟨h, hwait⟩

/-- The condition on the connections of `Unreserve`. -/
def distinctKeys (remote : Endpoint ρ) (conn proxyConn : Option (γ × Endpoint ρ)) : Bool :=
  (proxyConn.all fun p ↦ (entryKeys remote p.2 true).Nodup) &&
    conn.all fun p ↦ (entryKeys remote p.2 proxyConn.isNone).Nodup

theorem Sound.insertProxyConn
    (hkeys : ∀ p ∈ proxyConn, (entryKeys remote p.2 true).Nodup) (hcancel : c.Unused cancel)
    (hx : c.insertProxyConn remote cancel proxyConn = x) :
    x.1.Sound ∧ SameReservations c x.1 ∧ x.1.Unused x.2 := by
  subst hx
  rcases proxyConn with _ | ⟨g, ep⟩
  · exact ⟨h, .refl c, hcancel⟩
  · obtain ⟨hsound, hsame, hfalse⟩ := h.insertConnLocked g true (hkeys _ rfl) hcancel rfl
    rw [ConnCache.insertProxyConn]
    refine ⟨hsound, hsame, ?_⟩
    dsimp only
    split
    · exact fun _ h ↦ by contradiction
    · next hno =>
      rw [hfalse (Bool.eq_false_iff.mpr hno)]
      exact hcancel

theorem Sound.unreserveConns (err : Option ε) (now : ℕ)
    (hkeys : distinctKeys remote conn proxyConn) (hcancel : c.Unused cancel)
    (hx : c.unreserveConns remote cancel conn proxyConn err now = x) :
    x.1.Sound ∧ SameReservations c x.1 ∧ x.1.Unused x.2 := by
  rw [distinctKeys, Bool.and_eq_true] at hkeys
  obtain ⟨hproxy, hconn⟩ := hkeys
  have hproxy (p : γ × Endpoint ρ) (hp : p ∈ proxyConn) : (entryKeys remote p.2 true).Nodup :=
    of_decide_eq_true ((all_eq_true _ _).mp hproxy p hp)
  rw [← hx, ConnCache.unreserveConns]
  generalize hy : c.insertProxyConn remote cancel proxyConn = y
  obtain ⟨hsound, hsame, hunused⟩ := h.insertProxyConn hproxy hcancel hy
  rcases conn with _ | ⟨g, ep⟩
  · rcases err with _ | err
    · exact ⟨hsound, hsame, hunused⟩
    · exact ⟨hsound.congr_errors _, hsame.trans ⟨rfl, rfl, rfl, rfl, rfl⟩, hunused⟩
  · have hkeys : (entryKeys remote ep proxyConn.isNone).Nodup := of_decide_eq_true hconn
    obtain ⟨hsound', hsame', -⟩ := hsound.insertConnLocked g proxyConn.isSome hkeys hunused rfl
    exact ⟨hsound', hsame.trans hsame', fun _ h ↦ nomatch h⟩

theorem Sound.unreserve (hres : c.outstanding.lookup r = some res) (err : Option ε)
    (now : ℕ) (hkeys : distinctKeys res.remote conn proxyConn) :
    (c.unreserve r res conn proxyConn err now).1.Sound ∧
      (c.unreserve r res conn proxyConn err now).1.Attended ∧
      ∀ k, (c.unreserve r res conn proxyConn err now).1.reserved.lookup k =
        if k ∈ res.keys then none else c.reserved.lookup k := by
  have hopen : c.closed = false := by
    by_contra hclosed
    rw [h.closed (Bool.of_not_eq_false hclosed) r] at hres
    contradiction
  obtain ⟨hd, hunused⟩ := h.eraseReservation hres rfl
  rw [ConnCache.unreserve]
  dsimp only
  rw [if_neg (Bool.eq_false_iff.mp hopen)]
  generalize hx : ConnCache.unreserveConns _ res.remote (some r) conn proxyConn err now = x
  obtain ⟨hsound, hsame, hunused'⟩ := hd.unreserveConns err now hkeys hunused hx
  refine ⟨(hsound.callCancel hunused').congr_waiters _, fun t w hw hwoken ↦ ?_, fun k ↦ ?_⟩
  · change (mapVals (fun _ w ↦ { w with woken := true }) x.1.waiters).lookup t = some w at hw
    rw [lookup_mapVals] at hw
    obtain ⟨w', -, rfl⟩ := map_eq_some_iff.mp hw
    contradiction
  · change x.1.reserved.lookup k = _
    rw [hsame.reserved]
    exact lookup_foldl_erase res.keys c.reserved k

/-! ## Steps and runs -/

omit h in
/-- A connection with the address that was dialed has distinct keys. -/
theorem nodup_entryKeys {ep : Endpoint ρ}
    (hkey : (key ep.protocol ep.address : Key ρ) = key remote.protocol remote.address)
    (keyByAddr : Bool) : (entryKeys remote ep keyByAddr).Nodup := by
  rw [entryKeys, if_neg (not_not.mpr hkey)]
  split <;> split <;> simp [key, pathkey]

/-- The condition on the steps of a run. -/
def admissible (c : ConnCache ρ γ ε) : Action ρ γ ε → Bool
  | .reserve remote => c.pathFree remote
  | .unreserve r conn proxyConn _ _ =>
    (c.outstanding.lookup r).all fun res ↦ distinctKeys res.remote conn proxyConn
  | .close => c.outstanding.entries.isEmpty
  | _ => true

/-- **A step keeps the invariant.** -/
theorem Sound.step (hwait : c.Attended) {a : Action ρ γ ε} (ha : c.admissible a)
    (hstep : c.step a = some c') : c'.Sound ∧ c'.Attended := by
  cases a with
  | reserve remote =>
    obtain rfl := some.inj hstep
    exact h.reserve hwait ha
  | unreserve r conn proxyConn err now =>
    obtain ⟨res, hres, rfl⟩ := map_eq_some_iff.mp hstep
    rw [admissible, hres] at ha
    obtain ⟨hsound, hattended, -⟩ := h.unreserve hres err now ha
    exact ⟨hsound, hattended⟩
  | insert conn ep proxy keyByAddr =>
    obtain rfl := some.inj hstep
    split
    · exact ⟨h, hwait⟩
    · have hunused : c.Unused none := fun _ h ↦ by contradiction
      obtain ⟨hsound, hsame, -⟩ :=
        h.insertConnLocked conn proxy (nodup_entryKeys rfl keyByAddr) hunused rfl
      exact ⟨hsound, hwait.of_sameReservations hsame⟩
  | find t keys wait view =>
    obtain ⟨-, ⟨⟩⟩ := ite_none_left_eq_some.mp hstep
    exact h.internalFind hwait t keys wait view
  | wake t view =>
    rw [ConnCache.step] at hstep
    split at hstep
    · obtain rfl := some.inj hstep
      exact h.internalFind hwait t _ true view
    · contradiction
  | giveUp t =>
    obtain ⟨w, -, rfl⟩ := map_eq_some_iff.mp hstep
    exact ⟨h.congr_waiters _, hwait.erase t⟩
  | killConnections entries num first second now =>
    obtain ⟨hentries, ⟨⟩⟩ := ite_none_right_eq_some.mp hstep
    have hremoves := h.cached.killConnections num first second now hentries
    exact ⟨h.of_removes hremoves, hwait.of_sameReservations hremoves.same⟩
  | close =>
    obtain rfl := some.inj hstep
    refine h.close hwait fun r ↦ ?_
    rw [lookup_eq_none_iff, AList.keys, List.isEmpty_iff.mp ha]
    exact List.not_mem_nil

end

variable [RoutingID ρ]

theorem sound_of_run {as : List (Action ρ γ ε)}
    (h : run (guarded (fun c a ↦ c.admissible a = true) step) newConnCache as = some c) :
    c.Sound ∧ c.Attended :=
  guarded_invariant (I := fun c ↦ c.Sound ∧ c.Attended)
    (fun _ _ _ hinv ha hstep ↦ hinv.1.step hinv.2 ha hstep)
    ⟨sound_newConnCache, fun _ _ h ↦ (nomatch h)⟩ h

/-- **One dial for each key.** In every state of a run that meets the condition, a key is held by
one outstanding reservation at most, which is the one that `c.reserved` has for it; `Unreserve`
removes exactly the keys of its reservation; no reservation's context was cancelled twice; and
whoever sleeps in `Find` waits for a key of an outstanding reservation. -/
theorem one_dial_per_key (as : List (Action ρ γ ε)) (c : ConnCache ρ γ ε)
    (h : run (guarded (fun c a ↦ c.admissible a = true) step) newConnCache as = some c) :
    (∀ r r' res res' k, c.outstanding.lookup r = some res → c.outstanding.lookup r' = some res' →
      k ∈ res.keys → k ∈ res'.keys → r = r') ∧
    (∀ k r, c.reserved.lookup k = some r ↔
      ∃ res, c.outstanding.lookup r = some res ∧ k ∈ res.keys) ∧
    (∀ r res conn proxyConn err now c', c.outstanding.lookup r = some res →
      c.admissible (.unreserve r conn proxyConn err now) →
      c.step (.unreserve r conn proxyConn err now) = some c' →
      ∀ k, c'.reserved.lookup k = if k ∈ res.keys then none else c.reserved.lookup k) ∧
    (∀ r, c.cancelled.count r ≤ 1) ∧
    ∀ t w, c.waiters.lookup t = some w → w.woken = false →
      ∃ k ∈ w.keys, ∃ r res, c.reserved.lookup k = some r ∧ c.outstanding.lookup r = some res := by
  obtain ⟨hsound, hwait⟩ := sound_of_run h
  refine ⟨fun r r' res res' k hr hr' hk hk' ↦ ?_,
    fun k r ↦ ⟨hsound.owner k r, fun ⟨res, hres, hk⟩ ↦ ?_⟩,
      fun r res conn proxyConn err now c' hres ha hstep ↦ ?_, fun r ↦ ?_, fun t w hw hwoken ↦ ?_⟩
  · have hheld := hsound.held r res hr k hk
    rw [hsound.held r' res' hr' k hk'] at hheld
    exact (Option.some.inj hheld).symm
  · exact hsound.held r res hres k hk
  · rw [ConnCache.step, hres] at hstep
    obtain rfl := Option.some.inj hstep
    rw [admissible, hres] at ha
    exact (hsound.unreserve hres err now ha).2.2
  · have hle := hsound.budget_le r
    rw [budget] at hle
    omega
  · obtain ⟨k, hk, r, hr⟩ := hwait t w hw hwoken
    obtain ⟨res, hres, -⟩ := hsound.owner k r hr
    exact ⟨k, hk, r, res, hr, hres⟩

/-! ## Runs that do not meet the condition -/

/-- Routing ids for examples. -/
inductive Rid
  | null
  | one
  | two
deriving DecidableEq

instance : RoutingID Rid where
  null := .null
  string
    | .null => ['0']
    | .one => ['1']
    | .two => ['2']

/-- An endpoint at a fixed address. -/
def server (rid : Rid) : Endpoint Rid := ⟨['t', 'c', 'p'], ['a'], rid⟩

/-- All connections have this status. -/
def viewOf (status : Status) : View ℕ where
  status _ := status
  isEncapsulated _ := false
  closeIfIdle _ := false
  remoteLameDuck _ := false
  rtt _ := 0
  lastUsed _ := 0

/-- Two servers behind a proxy are dialed, and a caller waits for the first. -/
def dialTwo : List (Action Rid ℕ Unit) :=
  [.reserve (server .one), .reserve (server .two),
    .find 0 [.rid .one, pathkey ['t', 'c', 'p'] ['a'] .one] true fun _ _ ↦ viewOf .active,
    .unreserve 0 (some (7, server .one)) none none 0, .wake 0 fun _ _ ↦ viewOf .active,
    .unreserve 1 none none (some ()) 0, .close]

theorem one_dial_per_key_dialTwo :
    ∃ c, run (guarded (fun c a ↦ c.admissible a = true) step) newConnCache dialTwo = some c ∧
      ∀ r, c.cancelled.count r ≤ 1 := by
  have hany : (run (guarded (fun c a ↦ c.admissible a = true) step) newConnCache dialTwo).any
      (fun _ ↦ true) = true := by decide +kernel
  obtain ⟨c, hrun, -⟩ := exists_run_of_any hany
  exact ⟨c, hrun, (one_dial_per_key dialTwo c hrun).2.2.2.1⟩

/-- The dial of the first server fails while the second is being dialed; then the second server is
dialed once more. -/
def dialTwice : List (Action Rid ℕ Unit) :=
  [.reserve (server .one), .reserve (server .two), .unreserve 0 none none (some ()) 0,
    .reserve (server .two)]

/-- The cache is closed while a server is being dialed and a caller waits for it. -/
def closeEarly : List (Action Rid ℕ Unit) :=
  [.reserve (server .one),
    .find 0 [pathkey ['t', 'c', 'p'] ['a'] .one] true fun _ _ ↦ viewOf .active, .close,
    .unreserve 0 none none (some ()) 0]

/-- After `dialTwice` two reservations hold the path of the second server. After `closeEarly` the
context of the reservation was cancelled three times, and the caller still sleeps. -/
theorem dial_twice_and_sleep :
    (∃ c res res', run step newConnCache dialTwice = some c ∧
      c.outstanding.lookup 1 = some res ∧ c.outstanding.lookup 2 = some res' ∧
      pathkey ['t', 'c', 'p'] ['a'] .two ∈ res.keys ∧
      pathkey ['t', 'c', 'p'] ['a'] .two ∈ res'.keys) ∧
    ∃ c, run step newConnCache closeEarly = some c ∧ c.cancelled.count 0 = 3 ∧
      c.outstanding.lookup 0 = none ∧
      (c.waiters.lookup 0).map Waiter.woken = some false := by
  constructor
  · have hany : (run step newConnCache dialTwice).any (fun c ↦
        (c.outstanding.lookup 1).any (fun res ↦ pathkey ['t', 'c', 'p'] ['a'] .two ∈ res.keys) &&
        (c.outstanding.lookup 2).any (fun res ↦ pathkey ['t', 'c', 'p'] ['a'] .two ∈ res.keys)) =
        true := by decide +kernel
    obtain ⟨c, hrun, hc⟩ := exists_run_of_any hany
    obtain ⟨h₁, h₂⟩ := Bool.and_eq_true_iff.mp hc
    obtain ⟨res, hres, hk⟩ := (Option.any_eq_true _ _).mp h₁
    obtain ⟨res', hres', hk'⟩ := (Option.any_eq_true _ _).mp h₂
    exact ⟨c, res, res', hrun, hres, hres', of_decide_eq_true hk, of_decide_eq_true hk'⟩
  · have hany : (run step newConnCache closeEarly).any (fun c ↦
        decide (c.cancelled.count 0 = 3 ∧ c.outstanding.lookup 0 = none ∧
          (c.waiters.lookup 0).map Waiter.woken = some false)) = true := by decide +kernel
    obtain ⟨c, hrun, hc⟩ := exists_run_of_any hany
    exact ⟨c, hrun, of_decide_eq_true hc⟩

end ConnCache

end Vanadium.Manager
