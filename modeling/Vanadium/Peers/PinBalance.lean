import Vanadium.Foundations.Transition
import Vanadium.Peers.PeerManager

/-!
# The balance of pins

Every pin that was obtained is in one place: in an entry of the cache, in the hands of a round that
has not stored it yet, or unpinned (`Accounts`). `updatePeerFromSyncer` keeps this only if the entry
of the peer is still the one that the syncer got a copy of. If the entry was replaced in between,
then the new entry is deleted, and the pin of the old one is given back a second time.
-/

namespace Vanadium.Peers

open Foundations Transition Table List ConnInfo State

/-! ## Where pins are -/

def ConnInfo.holds (pin : Pin) (info : ConnInfo) : ℕ := if info.pinned = pin then 1 else 0

/-- The pins of a round that are not stored yet. -/
def Round.pins : Round → List Pin
  | .chosen _ _ => []
  | .pinged peers _ => peers.map ConnInfo.pinned

variable {cfg : Config} {info : ConnInfo} {s' : State}

namespace State

def inFlight (s : State) : List Pin := s.rounds.flatMap Round.pins

/-- How many entries of the cache hold a pin. -/
def cached (s : State) (pin : Pin) : ℕ := s.healthyPeerCache.total (ConnInfo.holds pin)

/-- Each pin that was obtained is in one place. Some of them are in the hands of the step that is
being made. -/
def Accounts (s : State) (hand : List Pin) : Prop :=
  ∀ pin, s.cached pin + s.inFlight.count pin + hand.count pin + s.unpinned.count pin =
    if pin < s.pins then 1 else 0

variable {s : State} {hand : List Pin} {speers speers' : List ConnInfo}
  {nm : List (String × NameInfo)} {r : Round} {p : String} {now i : ℕ}

theorem count_concat (pins : List Pin) (p pin : Pin) :
    (pins ++ [p]).count pin = pins.count pin + if p = pin then 1 else 0 := by
  rw [count_append, count_singleton]
  simp only [beq_iff_eq]

/-! ## The steps -/

/-- An entry leaves the cache, and its pin is given back. -/
theorem Accounts.evict (h : s.Accounts hand)
    (hinfo : s.healthyPeerCache.lookup p = some info) :
    Accounts ({ s with healthyPeerCache := s.healthyPeerCache.erase p }.unpin info.pinned)
    hand := by
  intro pin
  have hpin := h pin
  have hcached : s.cached pin = info.holds pin + total (holds pin)
      (s.healthyPeerCache.erase p) := total_erase hinfo
  have hcount : (s.unpinned ++ [info.pinned]).count pin = s.unpinned.count pin + info.holds pin :=
    count_concat _ _ _
  change total (holds pin) (s.healthyPeerCache.erase p) + s.inFlight.count pin +
    hand.count pin + (s.unpinned ++ [info.pinned]).count pin = if pin < s.pins then 1 else 0
  omega

theorem Accounts.evictPeer (h : s.Accounts hand) : (s.evictPeer p).Accounts hand := by
  unfold State.evictPeer
  split
  · exact h
  · next info hinfo =>
    split
    · exact h.evict hinfo
    · exact h

theorem Accounts.evictClosedPeerConnsLocked (h : s.Accounts hand) :
    s.evictClosedPeerConnsLocked.Accounts hand := by
  unfold State.evictClosedPeerConnsLocked
  generalize s.healthyPeerCache.keys = ps
  induction ps generalizing s with
  | nil => exact h
  | cons p ps ih => exact ih h.evictPeer

theorem Accounts.pickPeersToPingRandom {around : Surroundings} (h : s.Accounts hand) :
    (s.pickPeersToPingRandom cfg around).2.Accounts hand := by
  have hevict := h.evictClosedPeerConnsLocked
  unfold State.pickPeersToPingRandom
  dsimp only
  split
  · exact hevict
  · split
    · exact hevict
    · split
      · exact hevict
      · exact hevict

theorem pinned_addTo (info : NameInfo) (ci : ConnInfo) : (info.addTo ci).pinned = ci.pinned := by
  unfold NameInfo.addTo
  split
  · rfl
  · split
    · rfl
    · rfl

/-- A pin that a ping has obtained is in the hands of the round, or given back at once. -/
theorem Accounts.pingResult {r : String × Bool}
    (h : s.Accounts (speers.map pinned))
    (hping : s.pingResult nm speers r = some (speers', s')) :
    s'.Accounts (speers'.map pinned) := by
  obtain ⟨name, ok⟩ := r
  rcases ok with _ | _
  · obtain ⟨⟩ := hping
    exact h
  · unfold State.pingResult at hping
    dsimp only at hping
    split at hping
    · exact nomatch hping
    · next info hinfo =>
      have hnew (pin : ℕ) : (if pin < s.pins + 1 then 1 else 0) =
          (if pin < s.pins then 1 else 0) + if s.pins = pin then 1 else 0 := by
        split <;> split <;> split <;> omega
      split at hping
      · obtain ⟨⟩ := hping
        intro pin
        have hpin := h pin
        have hsame : (speers.map info.addTo).map pinned = speers.map pinned := by
          rw [map_map]
          exact map_congr_left fun ci _ ↦ pinned_addTo info ci
        rw [hsame]
        change s.cached pin + s.inFlight.count pin + (speers.map pinned).count pin +
          (s.unpinned ++ [s.pins]).count pin = if pin < s.pins + 1 then 1 else 0
        rw [count_concat, hnew]
        omega
      · obtain ⟨⟩ := hping
        intro pin
        have hpin := h pin
        rw [map_append, map_singleton, pinned_addTo, count_concat]
        change s.cached pin + s.inFlight.count pin + _ + s.unpinned.count pin =
          if pin < s.pins + 1 then 1 else 0
        rw [hnew]
        dsimp only
        omega

theorem Accounts.pingResults {res : List (String × Bool)}
    (h : s.Accounts (speers.map pinned))
    (hping : s.pingResults nm res speers = some (speers', s')) :
    s'.Accounts (speers'.map pinned) := by
  induction res generalizing s speers with
  | nil =>
    obtain ⟨⟩ := hping
    exact h
  | cons r res ih =>
    unfold pingResults at hping
    split at hping
    · exact nomatch hping
    · next hresult => exact ih (h.pingResult hresult) hping

theorem Accounts.dropPeerCache (h : s.Accounts hand) : s.dropPeerCache.Accounts hand := by
  intro pin
  have hpin := h pin
  have hcount : (s.healthyPeerCache.entries.map fun e ↦ e.2.pinned).count pin = s.cached pin := by
    unfold cached total
    generalize s.healthyPeerCache.entries = l
    induction l with
    | nil => rfl
    | cons e l ih =>
      rw [map_cons, map_cons, sum_cons, count_cons, ih, holds]
      simp only [beq_iff_eq]
      omega
  change 0 + s.inFlight.count pin + hand.count pin +
    (s.unpinned ++ s.healthyPeerCache.entries.map fun e ↦ e.2.pinned).count pin =
      if pin < s.pins then 1 else 0
  rw [count_append, hcount]
  omega

/-- A pin goes from the hands of the round into the cache. -/
theorem Accounts.storePeer {p : ConnInfo} (h : s.Accounts (p.pinned :: hand)) :
    (s.storePeer now p).Accounts hand := by
  intro pin
  have hpin := h pin
  have hhand : (p.pinned :: hand).count pin = hand.count pin + p.holds pin := by
    rw [count_cons, holds]
    simp only [beq_iff_eq]
  have hholds : holds pin { p with addedTime := now } = p.holds pin := rfl
  unfold State.storePeer
  split
  · next hnone =>
    have htotal : total (holds pin) _ = _ := total_insert { p with addedTime := now } hnone
    change total (holds pin)
      (AList.insert p.relName { p with addedTime := now } s.healthyPeerCache)
        + s.inFlight.count pin + hand.count pin + s.unpinned.count pin =
          if pin < s.pins then 1 else 0
    rw [htotal, hholds]
    change p.holds pin + s.cached pin + _ + _ + _ = _
    omega
  · next old hold =>
    have htotal : total (holds pin) _ + _ = _ := total_update { p with addedTime := now } hold
    have hcount : (s.unpinned ++ [old.pinned]).count pin = s.unpinned.count pin + old.holds pin :=
      count_concat _ _ _
    change total (holds pin)
      (AList.insert p.relName { p with addedTime := now } s.healthyPeerCache)
        + s.inFlight.count pin + hand.count pin + (s.unpinned ++ [old.pinned]).count pin =
          if pin < s.pins then 1 else 0
    change _ = _ + s.cached pin at htotal
    omega

theorem Accounts.storePeers {peers : List ConnInfo} {viaMtTbl : Bool}
    (h : s.Accounts (peers.map pinned)) : (s.storePeers peers viaMtTbl now).Accounts [] := by
  have hfold : ∀ {peers : List ConnInfo} {s : State}, s.Accounts (peers.map pinned) →
      (peers.foldl (State.storePeer now) s).Accounts [] := by
    intro peers
    induction peers with
    | nil => exact fun h ↦ h
    | cons p peers ih => exact fun h ↦ ih h.storePeer
  unfold State.storePeers
  split
  · next hnil =>
    rw [hnil] at h
    split
    · split
      · exact h.dropPeerCache
      · exact h
    · exact h
  · split
    · exact hfold h
    · exact hfold h

theorem count_inFlight (hi : s.rounds[i]? = some r) (pin : Pin) :
    s.inFlight.count pin =
      r.pins.count pin + ((s.rounds.eraseIdx i).flatMap Round.pins).count pin := by
  obtain ⟨hlt, rfl⟩ := List.getElem?_eq_some_iff.mp hi
  rw [← List.count_append, ← List.flatMap_cons]
  exact ((getElem_cons_eraseIdx_perm hlt).flatMap_right Round.pins).symm.count_eq pin

theorem Accounts.takeRound (h : s.Accounts []) (hi : s.rounds[i]? = some r) :
    Accounts { s with rounds := s.rounds.eraseIdx i } r.pins := by
  intro pin
  have hpin := h pin
  rw [count_inFlight hi, count_nil] at hpin
  change s.cached pin + ((s.rounds.eraseIdx i).flatMap Round.pins).count pin + r.pins.count pin +
    s.unpinned.count pin = if pin < s.pins then 1 else 0
  omega

theorem Accounts.addRound (h : s.Accounts r.pins) :
    Accounts { s with rounds := s.rounds ++ [r] } [] := by
  intro pin
  have hpin := h pin
  change s.cached pin + ((s.rounds ++ [r]).flatMap Round.pins).count
    pin + 0 + s.unpinned.count pin = if pin < s.pins then 1 else 0
  rw [flatMap_append, flatMap_singleton, count_append]
  change s.cached pin + (s.inFlight.count pin + _) + 0 + _ = _
  omega

end State

/-- A failed sync is reported while the entry of the peer is the one that was used. -/
def UsesEntry (s : State) : Action → Prop
  | .updatePeerFromSyncer peer _ _ true =>
    (AList.lookup peer.relName s.healthyPeerCache).map ConnInfo.pinned = some peer.pinned
  | _ => True

instance (s : State) (a : Action) : Decidable (UsesEntry s a) := by
  unfold UsesEntry
  split <;> infer_instance

open Option Transition

theorem accounts_step {s : State} {a : Action} (h : s.Accounts [])
    (hstep : guarded UsesEntry (step cfg) s a = some s') : s'.Accounts [] := by
  obtain ⟨huses, hstep⟩ := guarded_eq_some_iff.mp hstep
  match a with
  | .pickPeersToPing around =>
    have hpick : (s.pickPeersToPingRandom cfg around).2.Accounts [] := h.pickPeersToPingRandom
    dsimp only [step] at hstep
    split at hstep
    · split at hstep
      · next heq =>
        obtain rfl := some.inj hstep
        rw [heq] at hpick
        exact hpick
      · next heq =>
        obtain rfl := some.inj hstep
        rw [heq] at hpick
        exact State.Accounts.addRound hpick
    · obtain rfl := some.inj hstep
      exact h
  | .pingPeers i res =>
    dsimp only [step] at hstep
    split at hstep
    · next peers viaMtTbl hround =>
      split at hstep
      · exact nomatch hstep
      · next speers s₁ hping =>
        obtain rfl := some.inj hstep
        have hpinged : s₁.Accounts (speers.map pinned) := (h.takeRound hround).pingResults hping
        exact State.Accounts.addRound hpinged
    · exact nomatch hstep
  | .storePeers i now =>
    dsimp only [step] at hstep
    split at hstep
    · next hround =>
      obtain rfl := some.inj hstep
      exact (h.takeRound hround).storePeers
    · exact nomatch hstep
  | .pickPeer ind =>
    have hpick : (s.pickPeerRandom ind).2.Accounts [] := h.evictClosedPeerConnsLocked
    dsimp only [step] at hstep
    split at hstep
    · split at hstep
      · next heq =>
        obtain rfl := some.inj hstep
        rw [heq] at hpick
        exact hpick
      · next heq =>
        obtain rfl := some.inj hstep
        rw [heq] at hpick
        exact hpick
    · obtain rfl := some.inj hstep
      exact h
  | .updatePeerFromSyncer peer attemptTs now failed =>
    obtain ⟨-, ⟨⟩⟩ := ite_none_right_eq_some.mp hstep
    rcases failed with _ | _
    · exact h
    · obtain ⟨info, hinfo, hpinned⟩ := map_eq_some_iff.mp huses
      have hevict := h.evict hinfo
      rw [hpinned] at hevict
      exact hevict
  | .connCloses pin | .connReopens pin =>
    obtain rfl := some.inj hstep
    exact h

theorem accounts_of_run {as : List Action} {s : State}
    (hrun : run (guarded UsesEntry (step cfg)) new as = some s) :
    s.Accounts [] := by
  have hnew : new.Accounts [] := fun pin ↦ (if_neg (Nat.not_lt_zero pin)).symm
  exact run_invariant (I := fun s ↦ s.Accounts []) (fun _ _ _ h ht ↦ accounts_step h ht) hnew hrun

/-! ## What is unpinned when -/

theorem unpinned_of_cached {s : State} (h : s.Accounts []) {name : String}
    (hinfo : s.healthyPeerCache.lookup name = some info) : s.unpinned.count info.pinned = 0 := by
  have hpin := h info.pinned
  have hholds : info.holds info.pinned = 1 := if_pos rfl
  have hcached : info.holds info.pinned ≤ s.cached info.pinned := apply_le_total hinfo
  split at hpin <;> omega

theorem unpinned_of_left {s : State} (h : s.Accounts []) {pin : Pin} (hlt : pin < s.pins)
    (hcache : ∀ name info, s.healthyPeerCache.lookup name = some info → info.pinned ≠ pin)
    (hflight : pin ∉ s.inFlight) : s.unpinned.count pin = 1 := by
  have hcached : s.cached pin = 0 := by
    by_contra hne
    obtain ⟨name, info, hinfo, hholds⟩ := exists_of_total_ne_zero hne
    exact hholds (if_neg (hcache name info hinfo))
  have hpin := h pin
  rw [hcached, count_eq_zero.mpr hflight, count_nil, if_pos hlt] at hpin
  omega

/-- **Pins are balanced** if a failed sync is reported while the entry that it used is in the cache.
A pin is not given back as long as it is in the cache, and once when it has left it, and a failed
sync removes only the entry that it used. -/
theorem pins_balanced {cfg : Config} {as : List Action} {s : State}
    (hrun : Transition.run (Transition.guarded UsesEntry (step cfg)) State.new as = some s) :
    (∀ name info, AList.lookup name s.healthyPeerCache = some info →
      s.unpinned.count info.pinned = 0) ∧
    (∀ pin < s.pins,
      (∀ name info, AList.lookup name s.healthyPeerCache = some info → info.pinned ≠ pin) →
      pin ∉ s.inFlight → s.unpinned.count pin = 1) ∧
    ∀ peer attemptTs now s', Transition.guarded UsesEntry (step cfg) s
        (.updatePeerFromSyncer peer attemptTs now true) = some s' →
      ∀ name info, AList.lookup name s.healthyPeerCache = some info →
        AList.lookup name s'.healthyPeerCache ≠ some info → info.pinned = peer.pinned := by
  have h := accounts_of_run hrun
  refine ⟨fun name info ↦ unpinned_of_cached h, fun pin ↦ unpinned_of_left h, ?_⟩
  intro peer attemptTs now s' hstep name info hinfo hgone
  obtain ⟨huses, hstep⟩ := guarded_eq_some_iff.mp hstep
  obtain ⟨entry, hentry, hpinned⟩ := map_eq_some_iff.mp huses
  obtain ⟨-, ⟨⟩⟩ := ite_none_right_eq_some.mp hstep
  change AList.lookup name (AList.erase peer.relName s.healthyPeerCache) ≠ _ at hgone
  rw [Table.lookup_erase_eq_ite] at hgone
  split at hgone
  · next hname =>
    rw [hname, hentry] at hinfo
    rw [← some.inj hinfo, hpinned]
  · exact absurd hinfo hgone

/-! ## A sync that outlives its entry -/

def sampleConfig : Config := ⟨"a", .selectRandom, "/".intercalate⟩

/-- A round that finds the peer `b` through its mount table. -/
def sampleRound (now : ℕ) : List Action :=
  [.pickPeersToPing ⟨[("b", ["mt"])], [], []⟩, .pingPeers 0 [("mt/b/%%sync", true)],
    .storePeers 0 now]

/-- The peer is picked, its sync fails, and it is found again. -/
def sampleRun : List Action :=
  sampleRound 1 ++ [.pickPeer 0, .updatePeerFromSyncer ⟨"b", ["mt"], [], 0, 1⟩ 2 3 true] ++
    sampleRound 4

theorem pins_balanced_sampleRun :
    ∃ s, Transition.run (Transition.guarded UsesEntry (step sampleConfig)) State.new sampleRun =
        some s ∧ s.pins = 2 ∧ s.unpinned = [0] ∧
      ∀ name info, AList.lookup name s.healthyPeerCache = some info →
        s.unpinned.count info.pinned = 0 := by
  have hany : (run (guarded UsesEntry (step sampleConfig)) new
      sampleRun).any (fun s ↦ s.pins = 2 ∧ s.unpinned = [0]) = true := by
    decide +kernel
  obtain ⟨s, hrun, hs⟩ := exists_run_of_any hany
  obtain ⟨hpins, hunpinned⟩ := of_decide_eq_true hs
  exact ⟨s, hrun, hpins, hunpinned, (pins_balanced hrun).1⟩

/-- The peer is picked, its connection closes, the next round evicts the entry and stores a new one,
and then the sync fails. -/
def staleRun : List Action :=
  sampleRound 1 ++ [.pickPeer 0, .connCloses 0] ++ sampleRound 2 ++
    [.updatePeerFromSyncer ⟨"b", ["mt"], [], 0, 1⟩ 2 3 true]

/-- **A pin that is lost.** The new entry is removed and its pin is not given back, and the old pin
is given back again. -/
theorem stale_sync_loses_pin :
    ∃ s, Transition.run (step sampleConfig) State.new staleRun = some s ∧
      s.pins = 2 ∧ s.inFlight = [] ∧ s.healthyPeerCache.keys = [] ∧ s.unpinned = [0, 0] := by
  have hany : (run (step sampleConfig) new staleRun).any (fun s ↦
      s.pins = 2 ∧ s.inFlight = [] ∧ s.healthyPeerCache.keys = [] ∧
        s.unpinned = [0, 0]) = true := by
    decide +kernel
  obtain ⟨s, hrun, hs⟩ := exists_run_of_any hany
  exact ⟨s, hrun, of_decide_eq_true hs⟩

end Vanadium.Peers
