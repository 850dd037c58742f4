import Vanadium.Store.Watchable

/-!
# The versioned store as a plain map

What a client of the watchable store reads is compared with a plain map to which the same puts and
deletes were applied (`plainAfter`). `Represents` says how a view of the wrapped store holds such a
map: a live managed key has a version entry, which leads to its value; a managed key that is not
live has no version entry; any other key is stored as it is. Every request and every commit keeps
this.

The kinds of entries share one key space, so that the comparison is for keys whose first part is
not one that the store uses itself: version entries and log entries have parts of their own.

A stream over a managed range scans the version entries from the version key of `start` to the
version key of `limit`. If there is no limit, the latter is the least key of all version entries
and the stream yields nothing. `versioned_iff` is the exact condition.
-/

namespace Vanadium.Watchable

open Foundations Table Vanadium.Store List Request Options

/-! ## The plain map -/

/-- What a request does to a plain map. -/
def Request.plain (m : Table Bytes Bytes) : Request → Table Bytes Bytes
  | .put key value _ => m.write (key, some value)
  | .delete key => m.write (key, none)
  | _ => m

/-- The plain map after the given requests. -/
def plainAfter (rs : List Request) : Table Bytes Bytes := rs.foldl Request.plain ∅

theorem plainAfter_concat (rs : List Request) (r : Request) :
    plainAfter (rs ++ [r]) = r.plain (plainAfter rs) := foldl_concat _ _ _ _

/-- The result of a `Get`, given the value that the plain map has. A missing key is reported as the
key under which it was looked for. -/
def plainGet (opts : Options) (m : Table Bytes Bytes) (key : Bytes) : Except StoreErr Bytes :=
  match AList.lookup key m with
  | some value => .ok value
  | none => .error (.unknownKey (if opts.managesKey key then makeVersionKey key else key))

/-! ## Keys that clients use -/

/-- The first part of the key is neither the one of version entries nor the one of log entries. -/
def Unreserved (key : Bytes) : Prop :=
  firstKeyPart key ≠ versionPrefix ∧ firstKeyPart key ≠ logPrefix

instance : DecidablePred Unreserved := fun key ↦
  inferInstanceAs (Decidable (firstKeyPart key ≠ versionPrefix ∧ firstKeyPart key ≠ logPrefix))

/-- A write is to a key that clients use, and a version has no separator in it. -/
def Request.Allowed : Request → Prop
  | .put key _ version => Unreserved key ∧ keyPartSep ∉ version
  | .delete key => Unreserved key
  | _ => True

instance : DecidablePred Request.Allowed := fun r ↦
  match r with
  | .put key _ version => inferInstanceAs (Decidable (Unreserved key ∧ keyPartSep ∉ version))
  | .delete key => inferInstanceAs (Decidable (Unreserved key))
  | .get _ | .scan _ _ | .addOp _ | .setFromSync => inferInstanceAs (Decidable True)

/-- The key and the version that a put makes. -/
def Request.stamp : Request → Option (Bytes × Bytes)
  | .put key _ version => some (key, version)
  | _ => none

/-- The versions are fresh for each key. -/
def FreshVersions (rs : List Request) : Prop := (rs.filterMap Request.stamp).Nodup

instance (rs : List Request) : Decidable (FreshVersions rs) :=
  inferInstanceAs (Decidable (rs.filterMap Request.stamp).Nodup)

theorem firstKeyPart_makeVersionKey (key : Bytes) :
    firstKeyPart (makeVersionKey key) = versionPrefix := firstKeyPart_join _ _

variable {key key' : Bytes} {opts : Options} {rs : List Request} {w : Bytes × Option Bytes}
  {start limit : Bytes} {version : Bytes} {codec : Codec}

theorem Unreserved.ne_makeVersionKey (h : Unreserved key) (key' : Bytes) :
    key ≠ makeVersionKey key' := by
  rintro rfl
  exact h.1 (firstKeyPart_makeVersionKey key')

theorem Unreserved.makeAtVersionKey (h : Unreserved key) (version : Bytes) :
    Unreserved (makeAtVersionKey key version) := by
  rwa [Unreserved, Watchable.makeAtVersionKey, firstKeyPart_join]

theorem makeVersionKey_inj (h : makeVersionKey key = makeVersionKey key') :
    key = key' := join_right_inj h

theorem makeAtVersionKey_inj {version version' : Bytes} (h : keyPartSep ∉ version)
    (h' : keyPartSep ∉ version')
    (heq : makeAtVersionKey key version = makeAtVersionKey key' version') :
    key = key' ∧ version = version' := join_inj_of_notMem h h' heq

theorem managesKey_makeAtVersionKey (h : opts.managesKey key = true)
    (version : Bytes) : opts.managesKey (makeAtVersionKey key version) = true := by
  obtain ⟨p, hp, hpre⟩ := managesKey_iff.mp h
  refine managesKey_iff.mpr ⟨p, hp, hpre.trans ?_⟩
  exact prefix_append _ _

theorem ne_of_managesKey (h : opts.managesKey key = true)
    (h' : opts.managesKey key' = false) : key' ≠ key := by
  rintro rfl
  rw [h] at h'
  exact Bool.noConfusion h'

/-! ## How a view holds a map -/

/-- The view holds the plain map that the requests `done` make. -/
structure Represents (opts : Options) (done : List Request) (view : View) : Prop where
  allowed : ∀ r ∈ done, r.Allowed
  live : ∀ {key value}, opts.managesKey key = true →
    AList.lookup key (plainAfter done) = some value →
    ∃ version, AList.lookup (makeVersionKey key) view = some version ∧
      AList.lookup (makeAtVersionKey key version) view = some value
  version : ∀ {key version}, AList.lookup (makeVersionKey key) view = some version →
    opts.managesKey key = true ∧ (∃ value, AList.lookup key (plainAfter done) = some value) ∧
      (key, version) ∈ done.filterMap Request.stamp
  unmanaged : ∀ {key}, opts.managesKey key = false → Unreserved key →
    AList.lookup key view = AList.lookup key (plainAfter done)

theorem allowed_of_stamp (h : ∀ r ∈ rs, r.Allowed)
    (hmem : (key, version) ∈ rs.filterMap stamp) :
    Unreserved key ∧ keyPartSep ∉ version := by
  obtain ⟨r, hr, hstamp⟩ := mem_filterMap.mp hmem
  rcases r with _ | _ | ⟨k, v, ver⟩ | _ | _ | _ <;> simp only [stamp, reduceCtorEq] at hstamp
  cases hstamp
  exact h _ hr

theorem Represents.empty (opts : Options) : Represents opts [] ∅ where
  allowed _ hr := absurd hr not_mem_nil
  live _ h := by simp [plainAfter] at h
  version h := by simp at h
  unmanaged _ _ := rfl

namespace Represents

variable {opts : Options} {done : List Request} {view : View}

variable {key : Bytes} {r : Request}

section Step

variable (h : Represents opts done view)
include h

theorem stamp_ok (hv : view.lookup (makeVersionKey key) = some version) :
    Unreserved key ∧ keyPartSep ∉ version :=
  allowed_of_stamp h.allowed (h.version hv).2.2

theorem allowed_concat (hr : r.Allowed) : ∀ r' ∈ done ++ [r], r'.Allowed :=
  forall_mem_append.mpr ⟨h.allowed, forall_mem_singleton.mpr hr⟩

theorem of_no_write (hr : r.Allowed) (hplain : r.plain (plainAfter done) = plainAfter done) :
    Represents opts (done ++ [r]) view where
  allowed := h.allowed_concat hr
  live hk hval := by
    rw [plainAfter_concat, hplain] at hval
    exact h.live hk hval
  version hv := by
    obtain ⟨hk, hval, hstamp⟩ := h.version hv
    rw [plainAfter_concat, hplain, filterMap_append]
    exact ⟨hk, hval, mem_append_left _ hstamp⟩
  unmanaged hk hu := by
    rw [plainAfter_concat, hplain]
    exact h.unmanaged hk hu

theorem write_unmanaged (value : Option Bytes) (hr : r.Allowed) (hkey : opts.managesKey key = false)
    (hu : Unreserved key) (hplain : ∀ m, r.plain m = m.write (key, value)) :
    Represents opts (done ++ [r]) (view.write (key, value)) where
  allowed := h.allowed_concat hr
  live {k _} hk hval := by
    rw [plainAfter_concat, hplain, lookup_write, if_neg (ne_of_managesKey hk hkey).symm] at hval
    obtain ⟨version, hv, hat⟩ := h.live hk hval
    refine ⟨version, ?_, ?_⟩
    · rw [lookup_write, if_neg (hu.ne_makeVersionKey k).symm]
      exact hv
    · have hne := ne_of_managesKey (managesKey_makeAtVersionKey hk version) hkey
      rw [lookup_write, if_neg hne.symm]
      exact hat
  version {k _} hv := by
    rw [lookup_write, if_neg (hu.ne_makeVersionKey k).symm] at hv
    obtain ⟨hk, ⟨value', hval⟩, hstamp⟩ := h.version hv
    refine ⟨hk, ⟨value', ?_⟩, ?_⟩
    · rw [plainAfter_concat, hplain, lookup_write, if_neg (ne_of_managesKey hk hkey).symm]
      exact hval
    · rw [filterMap_append]
      exact mem_append_left _ hstamp
  unmanaged {k} hk hk' := by
    rw [plainAfter_concat, hplain, lookup_write, lookup_write]
    by_cases heq : k = key
    · rw [if_pos heq, if_pos heq]
    · rw [if_neg heq, if_neg heq]
      exact h.unmanaged hk hk'

theorem put_managed {value version : Bytes}
    (hr : (put key value version).Allowed) (hkey : opts.managesKey key = true) :
    Represents opts (done ++ [.put key value version])
      ((view.write (makeVersionKey key, some version)).write
        (makeAtVersionKey key version, some value)) := by
  obtain ⟨hu, hsep⟩ := hr
  have hne : ∀ k, makeVersionKey k ≠ makeAtVersionKey key version := fun k ↦
    ((hu.makeAtVersionKey version).ne_makeVersionKey k).symm
  refine ⟨h.allowed_concat ⟨hu, hsep⟩, fun {k v} hk hval ↦ ?_, fun {k ver} hv ↦ ?_,
    fun {k} hk hk' ↦ ?_⟩
  · rw [plainAfter_concat, plain, lookup_write] at hval
    by_cases heq : k = key
    · rw [if_pos heq] at hval
      refine ⟨version, ?_, ?_⟩
      · rw [lookup_write, if_neg (hne k), lookup_write, heq, if_pos rfl]
      · rw [lookup_write, heq, if_pos rfl]
        exact hval
    · -- the entries of another key are untouched: versions have no separator in them
      rw [if_neg heq] at hval
      obtain ⟨ver, hv, hat⟩ := h.live hk hval
      obtain ⟨huk, hsepk⟩ := h.stamp_ok hv
      refine ⟨ver, ?_, ?_⟩
      · rw [lookup_write, if_neg (hne k), lookup_write,
          if_neg fun heq' ↦ heq (makeVersionKey_inj heq')]
        exact hv
      · rw [lookup_write, if_neg fun heq' ↦ heq (makeAtVersionKey_inj hsepk hsep heq').1,
          lookup_write, if_neg ((huk.makeAtVersionKey ver).ne_makeVersionKey key)]
        exact hat
  · rw [lookup_write, if_neg (hne k), lookup_write] at hv
    rw [plainAfter_concat, plain, lookup_write, filterMap_append]
    by_cases heq : k = key
    · obtain rfl := heq
      rw [if_pos rfl] at hv
      cases hv
      exact ⟨hkey, ⟨value, if_pos rfl⟩, mem_append_right _ (mem_singleton.mpr rfl)⟩
    · rw [if_neg fun heq' ↦ heq (makeVersionKey_inj heq')] at hv
      obtain ⟨hk, ⟨v, hval⟩, hstamp⟩ := h.version hv
      exact ⟨hk, ⟨v, by rw [if_neg heq]; exact hval⟩, mem_append_left _ hstamp⟩
  · have hat := ne_of_managesKey (managesKey_makeAtVersionKey hkey version) hk
    rw [lookup_write, if_neg hat, lookup_write, if_neg (hk'.ne_makeVersionKey key),
      plainAfter_concat, plain, lookup_write, if_neg (ne_of_managesKey hkey hk)]
    exact h.unmanaged hk hk'

theorem delete_managed (hu : Unreserved key) (hkey : opts.managesKey key = true) :
    Represents opts (done ++ [.delete key]) (view.write (makeVersionKey key, none)) := by
  refine ⟨h.allowed_concat hu, fun {k v} hk hval ↦ ?_, fun {k ver} hv ↦ ?_, fun {k} hk hk' ↦ ?_⟩
  · rw [plainAfter_concat, plain, lookup_write] at hval
    split at hval
    · cases hval
    · next heq =>
      obtain ⟨ver, hv, hat⟩ := h.live hk hval
      refine ⟨ver, ?_, ?_⟩
      · rw [lookup_write, if_neg fun heq' ↦ heq (makeVersionKey_inj heq')]
        exact hv
      · have huk := (h.stamp_ok hv).1
        rw [lookup_write, if_neg ((huk.makeAtVersionKey ver).ne_makeVersionKey key)]
        exact hat
  · rw [lookup_write] at hv
    by_cases heq : k = key
    · rw [heq, if_pos rfl] at hv
      cases hv
    · rw [if_neg fun heq' ↦ heq (makeVersionKey_inj heq')] at hv
      obtain ⟨hk, ⟨v, hval⟩, hstamp⟩ := h.version hv
      rw [plainAfter_concat, plain, lookup_write, if_neg heq, filterMap_append]
      exact ⟨hk, ⟨v, hval⟩, mem_append_left _ hstamp⟩
  · rw [lookup_write, if_neg (hk'.ne_makeVersionKey key), plainAfter_concat, plain,
      lookup_write, if_neg (ne_of_managesKey hkey hk)]
    exact h.unmanaged hk hk'

theorem write_log (hw : firstKeyPart w.1 = logPrefix) : Represents opts done (view.write w) := by
  have hversion : ∀ k, makeVersionKey k ≠ w.1 := by
    intro k heq
    have hpart := firstKeyPart_makeVersionKey k
    rw [heq, hw] at hpart
    exact absurd hpart (by decide)
  have hother : ∀ k, Unreserved k → k ≠ w.1 := by
    rintro k hk rfl
    exact hk.2 hw
  refine ⟨h.allowed, fun {k v} hk hval ↦ ?_, fun {k ver} hv ↦ ?_, fun {k} hk hk' ↦ ?_⟩
  · obtain ⟨ver, hv, hat⟩ := h.live hk hval
    refine ⟨ver, ?_, ?_⟩
    · rw [lookup_write, if_neg (hversion k)]
      exact hv
    · rw [lookup_write, if_neg (hother _ ((h.stamp_ok hv).1.makeAtVersionKey ver))]
      exact hat
  · rw [lookup_write, if_neg (hversion k)] at hv
    exact h.version hv
  · rw [lookup_write, if_neg (hother k hk')]
    exact h.unmanaged hk hk'

/-- **One request.** -/
theorem request (hr : r.Allowed) :
    Represents opts (done ++ [r]) (view.writeAll (r.writes opts)) := by
  rcases r with key | ⟨start, limit⟩ | ⟨key, value, version⟩ | key | op | _
  · exact h.of_no_write hr rfl
  · exact h.of_no_write hr rfl
  · rw [writes]
    split
    · next hk => exact h.put_managed hr hk
    · next hk => exact h.write_unmanaged (some value) hr (Bool.eq_false_iff.mpr hk) hr.1 fun _ ↦ rfl
  · rw [writes]
    split
    · next hk => exact h.delete_managed hr hk
    · next hk => exact h.write_unmanaged none hr (Bool.eq_false_iff.mpr hk) hr fun _ ↦ rfl
  · exact h.of_no_write hr rfl
  · exact h.of_no_write hr rfl

end Step

/-- **A sequence of requests.** -/
theorem requests {done : List Request} {view : View} (h : Represents opts done view)
    (hrs : ∀ r ∈ rs, r.Allowed) :
    Represents opts (done ++ rs) (view.writeAll (rs.flatMap (writes opts))) := by
  induction rs generalizing done view with
  | nil => rwa [append_nil]
  | cons r rs ih =>
    obtain ⟨hr, hrs⟩ := forall_mem_cons.mp hrs
    have hnext := ih (h.request hr) hrs
    rwa [append_assoc, singleton_append, ← writeAll_append, ← flatMap_cons] at hnext

theorem logs {ws : List (Bytes × Option Bytes)} {view : View} (h : Represents opts done view)
    (hws : ∀ w ∈ ws, firstKeyPart w.1 = logPrefix) : Represents opts done (view.writeAll ws) := by
  induction ws generalizing view with
  | nil => exact h
  | cons w ws ih =>
    obtain ⟨hw, hws⟩ := forall_mem_cons.mp hws
    exact ih (h.write_log hw) hws

/-- **A read of one key** finds what the plain map has. -/
theorem getKey_eq (h : Represents opts done view) (hu : Unreserved key) :
    getKey opts view key = plainGet opts (plainAfter done) key := by
  rw [getKey, plainGet]
  by_cases hk : opts.managesKey key = true
  · rw [if_pos hk, if_pos hk, getVersioned, getVersion, View.get]
    rcases hval : (plainAfter done).lookup key with _ | value
    · -- a version entry would mean that the key is live
      have hnone : view.lookup (makeVersionKey key) = none := by
        rcases hv : view.lookup (makeVersionKey key) with _ | version
        · rfl
        · obtain ⟨-, ⟨value, hlive⟩, -⟩ := h.version hv
          rw [hval] at hlive
          cases hlive
      rw [hnone]
    · obtain ⟨version, hv, hat⟩ := h.live hk hval
      rw [hv]
      dsimp only
      rw [getAtVersion, View.get, hat]
  · have hview := h.unmanaged (Bool.eq_false_iff.mpr hk) hu
    rcases hval : (plainAfter done).lookup key with _ | value <;>
      simp only [if_neg hk, View.get, hview, hval]

end Represents

/-! ## Committed transactions -/

/-- Run the transactions one after the other; `none` if one of them does not commit. -/
def commitAll [PrefixRange] (opts : Options) (codec : Codec) :
    Store → List (List Request × ℤ) → Option Store
  | st, [] => some st
  | st, (rs, now) :: history =>
    match (newTransaction st.ist).performAll opts rs with
    | none => none
    | some tx =>
      match tx.commit codec st (.ok now) (.ok ()) with
      | (st', _, .ok ()) => commitAll opts codec st' history
      | (_, _, .error _) => none

theorem firstKeyPart_of_mem_logWrites {seq : ℕ} {entries : List LogEntry}
    (h : w ∈ logWrites codec seq entries) :
    firstKeyPart w.1 = logPrefix := by
  rw [logWrites, mem_mapIdx] at h
  obtain ⟨i, hi, rfl⟩ := h
  exact firstKeyPart_logEntryKey (seq + i)

/-- **A sequence of committed transactions.** -/
theorem Represents.commitAll [PrefixRange] {history : List (List Request × ℤ)} :
    ∀ {done : List Request} {st st' : Store}, Represents opts done st.ist →
      (∀ r ∈ history.flatMap (·.1), r.Allowed) →
      commitAll opts codec st history = some st' →
      Represents opts (done ++ history.flatMap (·.1)) st'.ist := by
  induction history with
  | nil =>
    intro done st st' h _ hst
    cases hst
    rwa [flatMap_nil, append_nil]
  | cons txn history ih =>
    obtain ⟨rs, now⟩ := txn
    intro done st st' h hallowed hst
    rw [flatMap_cons, forall_mem_append] at hallowed
    rw [Watchable.commitAll] at hst
    rcases htx : (newTransaction st.ist).performAll opts rs with _ | tx
    · rw [htx] at hst
      cases hst
    · rw [htx] at hst
      dsimp only at hst
      obtain ⟨-, -, hwrites⟩ := Transaction.performAll_spec rfl htx
      rcases tx.commit_cases codec st (.ok now) (.ok ()) with ⟨_, e, hc, -⟩ | ⟨t, -, -, -, hc⟩
      · rw [hc] at hst
        cases hst
      · rw [hc] at hst
        have hlog : ∀ w ∈ logWrites codec st.seq (tx.committed t).entries,
          firstKeyPart w.1 = logPrefix :=
          fun w hw ↦ firstKeyPart_of_mem_logWrites hw
        have hnext := (h.requests hallowed.1).logs hlog
        rw [← writeAll_append, ← nil_append (rs.flatMap _)] at hnext
        change tx.writes = [] ++ _ at hwrites
        rw [← hwrites] at hnext
        have hrest := @ih _ ⟨_, _⟩ _ hnext hallowed.2 hst
        rwa [append_assoc] at hrest

/-! ## Streams -/

/-- A live key of the range with the version that the stream has listed and its value. -/
structure Listed where
  key : Bytes
  version : Bytes
  value : Bytes

def Listed.pair (e : Listed) : Bytes × Bytes := (e.key, e.value)

/-- What the stream has still to yield: the values are stored under the listed versions. -/
structure Pending (opts : Options) (done : List Request) (view : View) (l : List Listed)
    (s : Stream) : Prop where
  err : s.err = none
  iit : s.iit = l.map fun e ↦ (makeVersionKey e.key, e.version)
  managed : ∀ e ∈ l, opts.managesKey e.key = true
  stamped : ∀ e ∈ l, (e.key, e.version) ∈ done.filterMap Request.stamp
  stored : ∀ e ∈ l, AList.lookup (makeAtVersionKey e.key e.version) view = some e.value

theorem managesKey_of_managesRange [PrefixRange] (h : opts.managesRange start limit = some true)
    (hlimit : limit ≠ []) (hkey : InRange start limit key) : opts.managesKey key = true := by
  have hlt : key < limit := hkey.2.resolve_left hlimit
  have hloop : ∀ ps : List Bytes, managesRangeLoop start limit ps = some true →
      ∃ p ∈ ps, p <+: key := by
    intro ps
    induction ps with
    | nil => intro h; cases h
    | cons p ps ih =>
      intro h
      rw [managesRangeLoop] at h
      split at h
      · rename_i hp
        refine ⟨p, mem_cons_self, (inRange_prefixRangeLimit p key).mp ⟨hp.1.trans hkey.1, ?_⟩⟩
        have hle := hp.2
        rw [limitForCompare, if_neg hlimit, limitForCompare] at hle
        by_cases hnil : prefixRangeLimit p = []
        · exact Or.inl hnil
        · rw [if_neg hnil] at hle
          exact Or.inr (hlt.trans_le hle)
      · split at h
        · cases h
        · obtain ⟨q, hq, hpre⟩ := ih h
          exact ⟨q, mem_cons_of_mem _ hq, hpre⟩
  exact managesKey_iff.mpr (hloop _ h)

/-- **A new stream over a range with a limit** lists the live keys of the range. -/
theorem Represents.pending [PrefixRange] {done : List Request} {view : View}
    (h : Represents opts done view) (hrange : opts.managesRange start limit = some true)
    (hlimit : limit ≠ []) :
    ∃ l : List Listed, Pending opts done view l (newStreamVersioned view start limit) ∧
      l.map Listed.pair = (plainAfter done).scan (InRange start limit) := by
  have hvlimit : makeVersionKey limit ≠ [] := by
    exact append_ne_nil_of_right_ne_nil _ (cons_ne_nil _ _)
  -- each live pair of the range, with the version that the view has for the key
  let listed : Bytes × Bytes → Listed := fun e ↦
    ⟨e.1, (view.lookup (makeVersionKey e.1)).getD [], e.2⟩
  have hspec : ∀ e ∈ (plainAfter done).scan (InRange start limit), opts.managesKey e.1 = true ∧
        view.lookup (makeVersionKey e.1) = some (listed e).version ∧
        view.lookup (makeAtVersionKey e.1 (listed e).version) = some e.2 := by
    rintro ⟨key, value⟩ he
    obtain ⟨hin, hval⟩ := mem_scan.mp he
    have hk := managesKey_of_managesRange hrange hlimit hin
    obtain ⟨version, hv, hat⟩ := h.live hk hval
    have hversion : (listed (key, value)).version = version := by
      change (view.lookup (makeVersionKey key)).getD [] = version
      rw [hv, Option.getD_some]
    rw [hversion]
    exact ⟨hk, hv, hat⟩
  refine ⟨((plainAfter done).scan (InRange start limit)).map listed, ⟨rfl, ?_, ?_, ?_, ?_⟩, ?_⟩
  · rw [map_map, newStreamVersioned, View.scan, eq_comm, eq_scan_iff]
    constructor
    · rw [pairwise_map]
      exact pairwise_scan.imp fun hlt ↦ (join_lt_join_iff versionPrefix).mpr hlt
    · intro x version
      rw [mem_map]
      constructor
      · rintro ⟨e, he, heq⟩
        obtain ⟨-, hv, -⟩ := hspec e he
        obtain ⟨hin, -⟩ := mem_scan.mp (show (e.1, e.2) ∈ _ from he)
        cases heq
        refine ⟨⟨(join_le_join_iff versionPrefix).mpr hin.1, Or.inr ?_⟩, hv⟩
        exact (join_lt_join_iff versionPrefix).mpr (hin.2.resolve_left hlimit)
      · rintro ⟨⟨hle, hlt⟩, hv⟩
        have hlt := hlt.resolve_left hvlimit
        obtain ⟨key, rfl⟩ := exists_join_of_le_of_le hle hlt.le
        obtain ⟨-, ⟨value, hval⟩, -⟩ := h.version hv
        have hin : InRange start limit key := ⟨(join_le_join_iff versionPrefix).mp hle,
            Or.inr ((join_lt_join_iff versionPrefix).mp hlt)⟩
        have he : (key, value) ∈ (plainAfter done).scan (InRange start limit) :=
          mem_scan.mpr ⟨hin, hval⟩
        refine ⟨(key, value), he, ?_⟩
        have hv' := (hspec _ he).2.1
        change view.lookup (makeVersionKey key) = some version at hv
        rw [hv] at hv'
        rw [Option.some.inj hv']
        rfl
  · rw [forall_mem_map]
    exact fun e he ↦ (hspec e he).1
  · rw [forall_mem_map]
    exact fun e he ↦ (h.version (hspec e he).2.1).2.2
  · rw [forall_mem_map]
    exact fun e he ↦ (hspec e he).2.2
  · rw [map_map]
    exact map_id' _

theorem newStreamVersioned_nil (view : View) (start : Bytes) :
    newStreamVersioned view start [] = ⟨[], none⟩ := by
  have hempty : view.scan (makeVersionKey start) (makeVersionKey []) = [] := by
    rw [View.scan, scan_eq_nil_iff]
    rintro key ⟨hle, hlt⟩
    have hlt := hlt.resolve_left (by decide)
    have hstart : makeVersionKey [] ≤ makeVersionKey start :=
      (join_le_join_iff versionPrefix).mpr (nil_le start)
    exact absurd (hstart.trans hle) hlt.not_ge
  rw [newStreamVersioned, hempty]

/-! ### Reading a stream -/

/-- What successive calls of `Advance` stage. Before each call the transaction carries out the
requests that are given for it; a reader of a snapshot has none. -/
def Stream.outputs [PrefixRange] (opts : Options) :
    Transaction → Stream → List (List Request) → Option (List (Option (Bytes × Bytes)))
  | _, _, [] => some []
  | tx, s, rs :: gaps =>
    match tx.performAll opts rs with
    | none => none
    | some tx' =>
      (Stream.outputs opts tx' (s.advance tx'.view).1 gaps).map ((s.advance tx'.view).2 :: ·)

/-- What as many calls of `Advance` stage on a stream over the list. -/
def staged {α : Type} : ℕ → List α → List (Option α)
  | 0, _ => []
  | n + 1, [] => none :: staged n []
  | n + 1, a :: l => some a :: staged n l

namespace Pending

variable {opts : Options} {done : List Request} {view : View} {l : List Listed} {s : Stream}

theorem performAll (h : Pending opts done view l s) (hdone : ∀ r ∈ done, r.Allowed)
    (hrs : ∀ r ∈ rs, r.Allowed) (hfresh : FreshVersions (done ++ rs)) :
    Pending opts (done ++ rs) (view.writeAll (rs.flatMap (writes opts))) l s := by
  rw [FreshVersions, filterMap_append] at hfresh
  refine ⟨h.err, h.iit, h.managed, fun e he ↦ ?_, fun e he ↦ ?_⟩
  · rw [filterMap_append]
    exact mem_append_left _ (h.stamped e he)
  · obtain ⟨hu, hsep⟩ := allowed_of_stamp hdone (h.stamped e he)
    rw [← h.stored e he]
    apply lookup_writeAll_of_notMem
    intro w hw heq
    obtain ⟨r, hr, hwr⟩ := mem_flatMap.mp hw
    have hallowed := hrs r hr
    -- a request writes a version entry, a value at a fresh version or an unmanaged key
    have hversion : ∀ k, makeAtVersionKey e.key e.version ≠ makeVersionKey k :=
      (hu.makeAtVersionKey e.version).ne_makeVersionKey
    have hunmanaged : ∀ k, ¬opts.managesKey k = true → k ≠ makeAtVersionKey e.key e.version :=
      fun k hk ↦ ne_of_managesKey (managesKey_makeAtVersionKey (h.managed e he) e.version)
        (Bool.eq_false_iff.mpr hk)
    rcases r with key | ⟨start, limit⟩ | ⟨key, value, version⟩ | key | op | _
    · exact absurd hwr not_mem_nil
    · exact absurd hwr not_mem_nil
    · rw [writes] at hwr
      split at hwr
      · rw [mem_pair] at hwr
        rcases hwr with rfl | rfl
        · exact hversion key heq.symm
        · obtain ⟨rfl, rfl⟩ := makeAtVersionKey_inj hallowed.2 hsep heq
          have hmem : (e.key, e.version) ∈ rs.filterMap stamp := mem_filterMap.mpr ⟨_, hr, rfl⟩
          exact (nodup_append.mp hfresh).2.2 _ (h.stamped e he) _ hmem rfl
      · next hk =>
        rw [mem_singleton] at hwr
        rw [hwr] at heq
        exact hunmanaged key hk heq
    · rw [writes] at hwr
      split at hwr
      · rw [mem_singleton] at hwr
        rw [hwr] at heq
        exact hversion key heq.symm
      · next hk =>
        rw [mem_singleton] at hwr
        rw [hwr] at heq
        exact hunmanaged key hk heq
    · exact absurd hwr not_mem_nil
    · exact absurd hwr not_mem_nil

theorem advance_nil (h : Pending opts done view [] s) : s.advance view = (s, none) := by
  obtain ⟨iit, err⟩ := s
  obtain rfl : err = none := h.err
  obtain rfl : iit = [] := h.iit
  rfl

theorem advance_cons {e : Listed} (h : Pending opts done view (e :: l) s) :
    (s.advance view).2 = some e.pair ∧ Pending opts done view l (s.advance view).1 := by
  obtain ⟨iit, err⟩ := s
  obtain rfl : err = none := h.err
  obtain rfl : iit = _ :: _ := h.iit
  have hstrip : stripFirstKeyPartOrDie (makeVersionKey e.key) = some e.key :=
    stripFirstKeyPartOrDie_join (by decide)
  have hget : view.get (makeAtVersionKey e.key e.version) = .ok e.value := by
    rw [View.get, h.stored e mem_cons_self]
  have hadvance : ∀ rest, Stream.advance view ⟨(makeVersionKey e.key, e.version) :: rest, none⟩
      = (⟨rest, none⟩, some e.pair) := by
    intro rest
    simp only [Stream.advance, hstrip, hget]
    rfl
  rw [hadvance]
  refine ⟨rfl, rfl, rfl, fun a ha ↦ ?_, fun a ha ↦ ?_, fun a ha ↦ ?_⟩
  · exact h.managed a (mem_cons_of_mem _ ha)
  · exact h.stamped a (mem_cons_of_mem _ ha)
  · exact h.stored a (mem_cons_of_mem _ ha)

end Pending

/-- **A stream yields what it has listed**, whatever the transaction writes meanwhile. -/
theorem Stream.outputs_eq [PrefixRange] {gaps : List (List Request)} :
    ∀ {done : List Request} {tx : Transaction} {l : List Listed} {s : Stream},
      Pending opts done tx.view l s → tx.err = none → (∀ r ∈ done ++ gaps.flatten, r.Allowed) →
      FreshVersions (done ++ gaps.flatten) →
      ∀ outs, Stream.outputs opts tx s gaps = some outs →
        outs = staged gaps.length (l.map Listed.pair) := by
  induction gaps with
  | nil =>
    intro done tx l s _ _ _ _ outs houts
    cases houts
    rfl
  | cons rs gaps ih =>
    intro done tx l s hpend herr hallowed hfresh outs houts
    rw [flatten_cons, ← append_assoc] at hallowed hfresh
    have hfresh' : FreshVersions (done ++ rs) := by
      rw [FreshVersions, filterMap_append] at hfresh
      exact (nodup_append.mp hfresh).1
    have hallowed' := (forall_mem_append.mp hallowed).1
    rw [Stream.outputs] at houts
    rcases htx : tx.performAll opts rs with _ | tx'
    · rw [htx] at houts
      cases houts
    · rw [htx] at houts
      obtain ⟨outs', houts', rfl⟩ := Option.map_eq_some_iff.mp houts
      obtain ⟨herr', hview, -⟩ := Transaction.performAll_spec herr htx
      have hpend' := hpend.performAll (fun r hr ↦ hallowed' r (mem_append_left _ hr))
        (fun r hr ↦ hallowed' r (mem_append_right _ hr)) hfresh'
      rw [← hview] at hpend'
      rcases l with _ | ⟨e, l⟩
      · rw [hpend'.advance_nil] at houts' ⊢
        rw [ih hpend' herr' hallowed hfresh outs' houts']
        rfl
      · obtain ⟨hstaged, hrest⟩ := hpend'.advance_cons
        rw [hstaged, ih hrest herr' hallowed hfresh outs' houts']
        rfl

/-! ## The versioned store and the plain map -/

/-- **When the versioned store behaves as a plain map.** After any sequence of committed
transactions, and inside a transaction that has made requests of its own, a read of a key gives
what the plain map has. A stream over an accepted range gives the live pairs of the range in key
order, whatever the transaction writes between two calls, exactly if the range has a limit or
nothing lives at or after its start. -/
theorem versioned_iff [PrefixRange] (opts : Options) (codec : Codec)
    (history : List (List Request × ℤ)) (own : List Request) (st : Store) (tx : Transaction)
    (hst : commitAll opts codec ⟨∅, 0⟩ history = some st)
    (htx : (newTransaction st.ist).performAll opts own = some tx)
    (hallowed : ∀ r ∈ history.flatMap (·.1) ++ own, r.Allowed)
    (hfresh : FreshVersions (history.flatMap (·.1) ++ own)) :
    (∀ key, Unreserved key →
      getKey opts tx.view key = plainGet opts (plainAfter (history.flatMap (·.1) ++ own)) key) ∧
    ∀ start limit, opts.managesRange start limit = some true →
      ((∀ gaps, (∀ r ∈ gaps.flatten, r.Allowed) →
          FreshVersions (history.flatMap (·.1) ++ own ++ gaps.flatten) →
          ∀ outs, Stream.outputs opts tx (newStreamVersioned tx.view start limit) gaps = some outs →
            outs = staged gaps.length
              ((plainAfter (history.flatMap (·.1) ++ own)).scan (InRange start limit))) ↔
        limit ≠ [] ∨ ∀ key, start ≤ key →
          AList.lookup key (plainAfter (history.flatMap (·.1) ++ own)) = none) := by
  obtain ⟨hallowedHist, hallowedOwn⟩ := forall_mem_append.mp hallowed
  obtain ⟨herr, hview, -⟩ := Transaction.performAll_spec rfl htx
  have hrep : Represents opts (history.flatMap (·.1) ++ own) tx.view := by
    rw [hview]
    exact ((Represents.empty opts).commitAll hallowedHist hst).requests hallowedOwn
  refine ⟨fun key hkey ↦ hrep.getKey_eq hkey, fun start limit hrange ↦ ⟨fun hall ↦ ?_, ?_⟩⟩
  · by_cases hlimit : limit = []
    · -- one call of `Advance` shows whether the listing is empty
      subst hlimit
      have hone := hall [[]] (forall_mem_nil _)
        (by rw [flatten_cons, flatten_nil, append_nil, append_nil]
            exact hfresh)
        [none] (by rw [newStreamVersioned_nil]; rfl)
      have hnil : (plainAfter (history.flatMap (·.1) ++ own)).scan (InRange start []) = [] := by
        rcases hscan : (plainAfter (history.flatMap (·.1) ++ own)).scan (InRange start []) with
          _ | ⟨e, l⟩
        · rfl
        · rw [hscan] at hone
          cases hone
      exact Or.inr fun key hkey ↦ Table.scan_eq_nil_iff.mp hnil key ⟨hkey, Or.inl rfl⟩
    · exact Or.inl hlimit
  · intro hcond gaps hgaps hfreshGaps outs houts
    have hallowed' := forall_mem_append.mpr ⟨hallowed, hgaps⟩
    by_cases hlimit : limit = []
    · subst hlimit
      have hnil : (plainAfter (history.flatMap (·.1) ++ own)).scan (InRange start []) = [] :=
        Table.scan_eq_nil_iff.mpr fun key hkey ↦ hcond.resolve_left (fun h ↦ h rfl) key hkey.1
      rw [hnil]
      rw [newStreamVersioned_nil] at houts
      have hpend : Pending opts (history.flatMap (·.1) ++ own) tx.view [] ⟨[], none⟩ :=
        ⟨rfl, rfl, forall_mem_nil _, forall_mem_nil _, forall_mem_nil _⟩
      exact Stream.outputs_eq hpend herr hallowed' hfreshGaps outs houts
    · obtain ⟨l, hpend, hl⟩ := hrep.pending hrange hlimit
      rw [← hl]
      exact Stream.outputs_eq hpend herr hallowed' hfreshGaps outs houts

/-! ### A store whose only prefix is the empty one -/

attribute [local instance] PrefixRange.next

/-- **A scan without a limit finds nothing.** All keys are managed and `"a"` holds `"1"`; the range
of all keys is accepted, and the stream over it ends at once. -/
theorem scan_without_limit_empty :
    ∃ st, commitAll ⟨[[]]⟩ fieldCodec ⟨∅, 0⟩ [([.put [97] [49] [53]], 0)] = some st ∧
      (⟨[[]]⟩ : Options).managesRange [] [] = some true ∧
      (plainAfter [.put [97] [49] [53]]).scan (InRange [] []) = [([97], [49])] ∧
      ((newStreamVersioned st.ist [] []).advance st.ist).2 = none := by
  have hsome : (commitAll ⟨[[]]⟩ fieldCodec ⟨∅, 0⟩ [([.put [97] [49] [53]], 0)]).isSome := by
    decide +kernel
  obtain ⟨st, hst⟩ := Option.isSome_iff_exists.mp hsome
  refine ⟨st, hst, by decide +kernel, by decide +kernel, ?_⟩
  rw [newStreamVersioned_nil]
  rfl

/-- The same store, scanned with a limit. -/
theorem versioned_iff_of_limit :
    ∃ st tx, commitAll ⟨[[]]⟩ fieldCodec ⟨∅, 0⟩ [([.put [97] [49] [53]], 0)] = some st ∧
      (newTransaction st.ist).performAll ⟨[[]]⟩ [.delete [98]] = some tx ∧
      getKey ⟨[[]]⟩ tx.view [97] = .ok [49] ∧
      ∀ outs, Stream.outputs ⟨[[]]⟩ tx (newStreamVersioned tx.view [] [98]) [[], []] = some outs →
        outs = [some ([97], [49]), none] := by
  have hsome : (commitAll ⟨[[]]⟩ fieldCodec ⟨∅, 0⟩ [([.put [97] [49] [53]], 0)]).isSome := by
    decide +kernel
  obtain ⟨st, hst⟩ := Option.isSome_iff_exists.mp hsome
  have htx : (newTransaction st.ist).performAll ⟨[[]]⟩ [.delete [98]] = some _ := rfl
  obtain ⟨hget, hscan⟩ := versioned_iff ⟨[[]]⟩ fieldCodec [([.put [97] [49] [53]], 0)]
    [.delete [98]] st _ hst htx (by decide +kernel) (by decide +kernel)
  refine ⟨st, _, hst, htx, ?_, ?_⟩
  · rw [hget [97] (by decide +kernel)]
    rfl
  · intro outs houts
    have hlisted := (hscan [] [98] (by decide +kernel)).mpr (Or.inl (by decide)) [[], []]
      (by decide +kernel) (by decide +kernel) outs houts
    rw [hlisted]
    decide +kernel

end Vanadium.Watchable
