import Vanadium.Agent.Ipc
import Vanadium.Foundations.Transition

/-!
# Results of calls

Every call is in one place: it is to be written, its response is awaited, the read loop has its
response in hand, or it has a result (`Good.accounts`). The read loop returns only when a call of
`Close` is under way that makes the calls fail, or when the versions do not fit. In the latter case
the calls do not fail, so that there must be none.
-/

namespace Vanadium.Agent

open Foundations Table Option
open List hiding lookup_eq_none_iff

/-! ## Where calls are -/

def RpcInfo.isFor (k : ℕ) (info : RpcInfo) : ℕ := if info.call = k then 1 else 0

/-- Whether the read loop has the response to a call in hand. -/
def ReadLoop.inHand (k : ℕ) : ReadLoop → ℕ
  | .delivering call _ _ => if call = k then 1 else 0
  | _ => 0

/-- The calls fail at the end. -/
def Closing.fails : Closing → Bool
  | .unlist fails => fails
  | .closeConn fails => fails
  | .failCalls => true

namespace IpcConn

/-- The ids whose responses are awaited. -/
def awaited (c : IpcConn) : List ℕ :=
  match c.rpcs with
  | none => []
  | some rpcs => rpcs.keys

/-- How many responses are awaited for a call. -/
def registered (c : IpcConn) (k : ℕ) : ℕ :=
  match c.rpcs with
  | none => 0
  | some rpcs => rpcs.total (RpcInfo.isFor k)

/-- The invariant. The step that is being made may have calls in its hands. -/
structure Good (c : IpcConn) (hand : List ℕ) : Prop where
  accounts : ∀ k, (c.starting.map Starting.call).count k + c.registered k + c.readLoop.inHand k +
    hand.count k + (c.results.map Prod.fst).count k = if k < c.calls then 1 else 0
  panicked : c.panicked = false
  closed : c.rpcs = none ∨ .failCalls ∈ c.closing → c.opened = false
  unstuck : c.readLoop ≠ .stuck
  mismatch : c.mismatch = true → c.awaited = []
  returned : c.readLoop = .returned →
    c.mismatch = true ∨ c.rpcs = none ∨ ∃ x ∈ c.closing, x.fails = true

variable {c c' : IpcConn} {hand : List ℕ} {rpcs : Table ℕ RpcInfo} {l : List Closing}
  {err : Option String} {i : ℕ} {r : Starting}

theorem awaited_of_rpcs (h : c.rpcs = some rpcs) : c.awaited = rpcs.keys := by
  unfold awaited
  rw [h]

open RpcInfo

theorem registered_of_rpcs (h : c.rpcs = some rpcs) (k : ℕ) :
    c.registered k = rpcs.total (isFor k) := by
  unfold registered
  rw [h]

theorem registered_eq_zero (h : c.awaited = []) (k : ℕ) : c.registered k = 0 := by
  rcases hrpcs : c.rpcs with _ | rpcs
  · unfold registered
    rw [hrpcs]
  · by_contra hne
    rw [registered_of_rpcs hrpcs] at hne
    obtain ⟨id, info, hinfo, -⟩ := exists_of_total_ne_zero hne
    have hmem : id ∈ c.awaited := by
      rw [awaited_of_rpcs hrpcs]
      exact mem_keys_iff.mpr ⟨info, hinfo⟩
    rw [h] at hmem
    exact nomatch hmem

theorem good_new : IpcConn.new.Good [] where
  accounts := fun k ↦ (if_neg (Nat.not_lt_zero k)).symm
  panicked := rfl
  closed := by rintro (h | h) <;> exact nomatch h
  unstuck := nofun
  mismatch := nofun
  returned := nofun

/-! ## What the steps do -/

theorem Good.shut (h : c.Good hand) : Good { c with opened := false } hand :=
  { h with closed := fun _ ↦ rfl }

theorem Good.beginClose (h : c.Good hand) (fails : Bool) : (c.beginClose fails).Good hand :=
  { h with
    closed := fun hclosed ↦ h.closed (hclosed.imp_right fun hmem ↦ by
      simpa [IpcConn.beginClose] using hmem)
    returned := fun hreturned ↦ (h.returned hreturned).imp_right (.imp_right fun ⟨x, hx, hfails⟩ ↦
      ⟨x, mem_append_left _ hx, hfails⟩) }

/-- The read loop goes on to a place where it has the same calls in hand. -/
theorem Good.setReadLoop {r r' : ReadLoop} (h : c.Good hand) (hloop : c.readLoop = r')
    (hhand : ∀ k, r.inHand k = r'.inHand k) (hstuck : r ≠ .stuck)
    (hreturned : r = .returned → c.mismatch = true ∨ c.rpcs = none ∨
      ∃ x ∈ c.closing, x.fails = true) :
    Good { c with readLoop := r } hand :=
  { h with
    accounts := fun k ↦ by
      have hk := h.accounts k
      rw [hloop, ← hhand] at hk
      exact hk
    unstuck := hstuck
    returned := hreturned }

/-- The read loop has called `Close` and returns. -/
theorem Good.returnClosing {r : ReadLoop} (h : c.Good hand) (hloop : c.readLoop = r)
    (hhand : ∀ k, 0 = r.inHand k) :
    Good { c.beginClose true with readLoop := .returned } hand := by
  refine (h.beginClose true).setReadLoop hloop hhand nofun fun _ ↦ .inr (.inr ?_)
  exact ⟨.unlist true, mem_append_right _ (mem_singleton_self _), rfl⟩

theorem count_concat (l : List ℕ) (a k : ℕ) :
    (l ++ [a]).count k = l.count k + if a = k then 1 else 0 := by
  rw [count_append, count_singleton]
  simp only [beq_iff_eq]

theorem count_cons_eq (l : List ℕ) (a k : ℕ) :
    (a :: l).count k = l.count k + if a = k then 1 else 0 := by
  rw [count_cons]
  simp only [beq_iff_eq]

theorem Good.send {k : ℕ} (h : c.Good (k :: hand)) (err : Option Err) : (c.send k err).Good hand :=
  { h with
    accounts := fun j ↦ by
      have hj := h.accounts j
      rw [count_cons_eq] at hj
      change _ + ((c.results ++ [(k, err)]).map Prod.fst).count j = _
      rw [map_append, map_singleton, count_concat]
      change (c.starting.map Starting.call).count j + c.registered j + c.readLoop.inHand j +
        hand.count j + (_ + if k = j then 1 else 0) = if j < c.calls then 1 else 0
      omega }

/-- A call is taken from those that are to be written. -/
theorem Good.take (h : c.Good []) (hi : c.starting[i]? = some r) :
    Good { c with starting := c.starting.eraseIdx i } [r.call] :=
  { h with
    accounts := fun k ↦ by
      obtain ⟨hlt, rfl⟩ := List.getElem?_eq_some_iff.mp hi
      have hk := h.accounts k
      have hperm := ((List.getElem_cons_eraseIdx_perm hlt).map Starting.call).count_eq k
      rw [map_cons, count_cons_eq] at hperm
      rw [count_nil] at hk
      rw [count_cons_eq, count_nil]
      change ((c.starting.eraseIdx i).map Starting.call).count k + c.registered k +
        c.readLoop.inHand k + _ + (c.results.map Prod.fst).count k = if k < c.calls then 1 else 0
      omega }

/-- A call is registered under a new id. -/
theorem Good.register {k numResults : ℕ} (h : c.Good (k :: hand))
    (hrpcs : c.rpcs = some rpcs) (hmismatch : c.mismatch = false) (hnew : c.nextId ∉ c.awaited) :
    Good { c with nextId := (c.nextId + 1) % 2 ^ 64
                  rpcs := some (AList.insert c.nextId ⟨k, numResults⟩ rpcs) } hand := by
  have hfresh : rpcs.lookup c.nextId = none := by
    rwa [lookup_eq_none_iff, ← awaited_of_rpcs hrpcs]
  refine ⟨fun j ↦ ?_, h.panicked, ?_, h.unstuck, ?_, ?_⟩
  · have hj := h.accounts j
    have hisFor : isFor j ⟨k, numResults⟩ = if k = j then 1 else 0 := rfl
    have htotal : total (isFor j) _ = _ := total_insert ⟨k, numResults⟩ hfresh
    rw [count_cons_eq, registered_of_rpcs hrpcs] at hj
    change (c.starting.map Starting.call).count j + total (isFor j)
      (AList.insert c.nextId ⟨k, numResults⟩ rpcs) + c.readLoop.inHand j + hand.count j +
        (c.results.map Prod.fst).count j = if j < c.calls then 1 else 0
    rw [htotal, hisFor]
    omega
  · rintro (hnone | hfail)
    · exact nomatch hnone
    · exact h.closed (.inr hfail)
  · intro hm
    rw [hmismatch] at hm
    exact nomatch hm
  · intro hreturned
    rcases h.returned hreturned with hm | hnone | hclosing
    · exact .inl hm
    · rw [hrpcs] at hnone
      exact nomatch hnone
    · exact .inr (.inr hclosing)

theorem Good.startCall {write : Write} (h : c.Good [r.call])
    (hopened : write = .done → c.opened = true)
    (hchecked : write = .done → c.mismatch = false ∧ c.nextId ∉ c.awaited) :
    (c.startCall r write).Good [] := by
  have hnext : Good { c with nextId := (c.nextId + 1) % 2 ^ 64 } [r.call] := { h with }
  unfold IpcConn.startCall
  match write with
  | .headerFails => exact hnext.send _
  | .argFails => exact (hnext.send _).beginClose true
  | .done =>
    dsimp only
    split
    · next hnone =>
      have hclosed := h.closed (.inl hnone)
      rw [hopened rfl] at hclosed
      exact nomatch hclosed
    · next rpcs hrpcs => exact h.register hrpcs (hchecked rfl).1 (hchecked rfl).2

theorem Good.failCalls (h : c.Good []) (hclosed : c.opened = false) : c.failCalls.Good [] := by
  unfold IpcConn.failCalls
  split
  · exact h
  · next rpcs hrpcs =>
    refine ⟨fun k ↦ ?_, h.panicked, fun _ ↦ hclosed, h.unstuck, fun _ ↦ rfl,
      fun _ ↦ .inr (.inl rfl)⟩
    have hk := h.accounts k
    have hcount : ((rpcs.entries.map fun e ↦ (e.2.call, some Err.eof)).map Prod.fst).count k =
        rpcs.total (isFor k) := by
      unfold total
      rw [List.map_map]
      generalize rpcs.entries = l
      induction l with
      | nil => rfl
      | cons e l ih =>
        rw [map_cons, map_cons, sum_cons, count_cons_eq, ih, isFor, Nat.add_comm]
        rfl
    change (c.starting.map Starting.call).count k + 0 + c.readLoop.inHand k + 0 +
      ((c.results ++ rpcs.entries.map fun e ↦ (e.2.call, some Err.eof)).map Prod.fst).count k =
        if k < c.calls then 1 else 0
    rw [map_append, count_append, hcount, ← registered_of_rpcs hrpcs]
    rw [count_nil] at hk
    omega

/-- The read loop takes a call whose response has come. -/
theorem Good.lookupResp {id numArgs : ℕ} (h : c.Good [])
    (hloop : c.readLoop = .responding id numArgs err) (hid : id ∈ c.awaited) :
    (c.lookupResp id numArgs err).Good [] := by
  unfold awaited at hid
  split at hid
  · exact nomatch hid
  rename_i rpcs hrpcs
  obtain ⟨info, hinfo⟩ := mem_keys_iff.mp hid
  have hlookup : c.rpcs.bind (AList.lookup id) = some info := by
    rw [hrpcs]
    exact hinfo
  have hawaited := awaited_of_rpcs hrpcs
  unfold IpcConn.lookupResp
  rw [hlookup, hrpcs]
  have hnew : ∀ j ∈ AList.keys (AList.erase id rpcs), j ∈ c.awaited := by
    intro j hj
    obtain ⟨info', hinfo'⟩ := mem_keys_iff.mp hj
    rw [lookup_erase_eq_ite] at hinfo'
    obtain ⟨-, hinfo'⟩ := ite_none_left_eq_some.mp hinfo'
    rw [hawaited]
    exact mem_keys_iff.mpr ⟨info', hinfo'⟩
  refine ⟨fun k ↦ ?_, h.panicked, ?_, nofun, fun hm ↦ ?_, nofun⟩
  · have hk := h.accounts k
    have htotal : total (isFor k) rpcs = _ := total_erase hinfo
    rw [registered_of_rpcs hrpcs, htotal, hloop] at hk
    change _ + _ + 0 + _ + _ = _ at hk
    change (c.starting.map Starting.call).count k + total (isFor k)
      (AList.erase id rpcs) + info.isFor k + 0 + (c.results.map Prod.fst).count k =
        if k < c.calls then 1 else 0
    rw [count_nil] at hk
    omega
  · rintro (hnone | hfail)
    · exact nomatch hnone
    · exact h.closed (.inr hfail)
  · have hempty := h.mismatch hm
    rw [hawaited] at hempty
    rw [hempty] at hid
    exact nomatch hid

theorem Good.deliver {call : ℕ} {expected : Bool} (h : c.Good [])
    (hloop : c.readLoop = .delivering call expected err) (ok : Bool) :
    (c.deliver call expected err ok).Good [] := by
  have hread : Good { c with readLoop := .reading } [call] := by
    refine ⟨fun k ↦ ?_, h.panicked, h.closed, nofun, h.mismatch, nofun⟩
    have hk := h.accounts k
    rw [hloop, count_nil] at hk
    rw [count_cons_eq, count_nil]
    change _ + _ + (if call = k then 1 else 0) + _ + _ = _ at hk
    change (c.starting.map Starting.call).count k + c.registered k + 0 + _ +
      (c.results.map Prod.fst).count k = if k < c.calls then 1 else 0
    omega
  unfold IpcConn.deliver
  split
  · split
    · exact hread.send _
    · exact (hread.send (some .decode)).returnClosing rfl fun _ ↦ rfl
  · exact hread.send _

/-- Calls of `closeConn` and `Close` go on, and the calls still fail at the end. -/
theorem Good.setClosing {closing : List Closing} (h : c.Good hand)
    (hfail : .failCalls ∈ closing → c.opened = false)
    (hfails : (∃ x ∈ c.closing, x.fails = true) → c.rpcs = none ∨ ∃ x ∈ closing, x.fails = true) :
    Good { c with closing := closing } hand :=
  { h with
    closed := fun hclosed ↦ hclosed.elim (fun hnone ↦ h.closed (.inl hnone)) hfail
    returned := fun hreturned ↦ (h.returned hreturned).imp_right fun hor ↦ hor.elim .inl hfails }

theorem mem_iff_of_getElem? {x z : Closing} (hi : l[i]? = some x) :
    z ∈ l ↔ z = x ∨ z ∈ l.eraseIdx i := by
  obtain ⟨hlt, rfl⟩ := List.getElem?_eq_some_iff.mp hi
  rw [← (List.getElem_cons_eraseIdx_perm hlt).mem_iff, List.mem_cons]

theorem mem_set_iff {x y z : Closing} (hi : l[i]? = some x) :
    z ∈ l.set i y ↔ z = y ∨ z ∈ l.eraseIdx i := by
  obtain ⟨hlt, -⟩ := List.getElem?_eq_some_iff.mp hi
  rw [(List.set_perm_cons_eraseIdx hlt y).mem_iff, List.mem_cons]

theorem exists_fails_set {x y : Closing} (hi : l[i]? = some x)
    (hxy : x.fails = true → y.fails = true) (h : ∃ z ∈ l, z.fails = true) :
    ∃ z ∈ l.set i y, z.fails = true := by
  obtain ⟨z, hz, hfails⟩ := h
  rcases (mem_iff_of_getElem? hi).mp hz with rfl | hz
  · exact ⟨y, (mem_set_iff hi).mpr (.inl rfl), hxy hfails⟩
  · exact ⟨z, (mem_set_iff hi).mpr (.inr hz), hfails⟩

theorem rpcs_failCalls (c : IpcConn) : c.failCalls.rpcs = none := by
  unfold IpcConn.failCalls
  split
  · assumption
  · rfl

theorem opened_failCalls (c : IpcConn) : c.failCalls.opened = c.opened := by
  unfold IpcConn.failCalls
  split <;> rfl

theorem Good.advance (h : c.Good []) (hstep : c.advance i = some c') : c'.Good [] := by
  unfold IpcConn.advance at hstep
  split at hstep
  · exact nomatch hstep
  · next fails hi =>
    obtain rfl := some.inj hstep
    refine h.setClosing (fun hmem ↦ ?_) fun hex ↦ .inr (exists_fails_set hi id hex)
    rcases (mem_set_iff hi).mp hmem with heq | hmem
    · exact nomatch heq
    · exact h.closed (.inr ((mem_iff_of_getElem? hi).mpr (.inr hmem)))
  · next fails hi =>
    obtain rfl := some.inj hstep
    refine h.shut.setClosing (fun _ ↦ rfl) fun hex ↦ .inr ?_
    split
    · exact exists_fails_set hi (fun _ ↦ rfl) hex
    · next hnot =>
      obtain ⟨x, hx, hfails⟩ := hex
      rcases (mem_iff_of_getElem? hi).mp hx with rfl | hx
      · exact absurd hfails hnot
      · exact ⟨x, hx, hfails⟩
  · next hi =>
    obtain ⟨-, ⟨⟩⟩ := ite_none_left_eq_some.mp hstep
    have hclosed : c.opened = false := h.closed (.inr ((mem_iff_of_getElem? hi).mpr (.inl rfl)))
    refine (h.failCalls hclosed).setClosing (fun _ ↦ ?_) fun _ ↦ .inl (rpcs_failCalls c)
    rw [opened_failCalls, hclosed]

/-! ## The condition -/

/-- What the code does not check. If the versions do not fit, then no response is awaited, and no
call is written afterwards; a call is not given the id of another one that waits (ids wrap around);
and a response is to a call that awaits it. -/
def Checked (c : IpcConn) : ConnAction → Prop
  | .readVersion minVersion maxVersion =>
    (minVersion ≤ currentVersion ∧ currentVersion ≤ maxVersion) ∨ c.awaited = []
  | .startCall _ .done => c.mismatch = false ∧ c.nextId ∉ c.awaited
  | .lookupResp =>
    match c.readLoop with
    | .responding id _ _ => id ∈ c.awaited
    | _ => True
  | _ => True

instance (c : IpcConn) (a : ConnAction) : Decidable (c.Checked a) := by
  unfold Checked
  split
  · infer_instance
  · infer_instance
  · split <;> infer_instance
  · infer_instance

theorem Good.step {a : ConnAction} (h : c.Good []) (hchecked : c.Checked a)
    (hstep : c.step a = some c') : c'.Good [] := by
  match a with
  | .call numArgs numResults =>
    obtain rfl := some.inj hstep
    refine { h with accounts := fun k ↦ ?_ }
    have hk := h.accounts k
    have hnew : (if k < c.calls + 1 then 1 else 0) =
        (if k < c.calls then 1 else 0) + if c.calls = k then 1 else 0 := by
      split <;> split <;> split <;> omega
    rw [map_append, map_singleton, count_concat]
    rw [hnew]
    change _ + (if c.calls = k then 1 else 0) + c.registered k + c.readLoop.inHand k + _ +
      (c.results.map Prod.fst).count k = _
    omega
  | .close =>
    obtain rfl := some.inj hstep
    exact h.beginClose true
  | .receive m =>
    obtain ⟨-, ⟨⟩⟩ := ite_none_right_eq_some.mp hstep
    exact { h with }
  | .sendVersion ok =>
    obtain ⟨-, ⟨⟩⟩ := ite_none_left_eq_some.mp hstep
    have hunlock : Good { c with locked := false } [] := { h with }
    split
    · exact hunlock
    · exact hunlock.beginClose false
  | .startCall i write =>
    dsimp only [IpcConn.step] at hstep
    split at hstep
    · exact nomatch hstep
    · next r hi =>
      obtain ⟨-, hstep⟩ := ite_none_left_eq_some.mp hstep
      obtain ⟨hopened, hstep⟩ := ite_none_left_eq_some.mp hstep
      obtain ⟨-, ⟨⟩⟩ := ite_none_left_eq_some.mp hstep
      refine (h.take hi).startCall ?_ ?_
      · rintro rfl
        by_contra hclosed
        exact hopened ⟨Bool.eq_false_iff.mpr hclosed, nofun⟩
      · rintro rfl
        exact hchecked
  | .handleReq i ok =>
    obtain ⟨-, ⟨⟩⟩ := ite_none_left_eq_some.mp hstep
    have htake : Good { c with handling := c.handling.eraseIdx i } [] := { h with }
    split
    · exact htake
    · exact htake.beginClose true
  | .advance i => exact h.advance hstep
  | .readVersion minVersion maxVersion =>
    obtain ⟨hloop, ⟨⟩⟩ := ite_none_right_eq_some.mp hstep
    unfold IpcConn.readVersion
    split
    · exact h.setReadLoop hloop (fun _ ↦ rfl) nofun nofun
    · next hnot =>
      have hempty : c.awaited = [] := hchecked.resolve_left hnot
      have hclose := h.beginClose false
      refine { hclose with
        accounts := fun k ↦ ?_
        unstuck := nofun
        mismatch := fun _ ↦ hempty
        returned := fun _ ↦ .inl rfl }
      have hk := hclose.accounts k
      change _ + _ + c.readLoop.inHand k + _ + _ = _ at hk
      rw [hloop] at hk
      exact hk
  | .readMessage =>
    dsimp only [IpcConn.step] at hstep
    split at hstep
    · next m inbox hloop hinbox =>
      obtain rfl := some.inj hstep
      have htake : Good { c with inbox := inbox } [] := { h with }
      match m with
      | .request id => exact { htake with }
      | .response id numArgs err => exact htake.setReadLoop hloop (fun _ ↦ rfl) nofun nofun
      | .unsupported => exact htake.returnClosing hloop fun _ ↦ rfl
    · exact nomatch hstep
  | .readFails =>
    obtain ⟨hloop, ⟨⟩⟩ := ite_none_right_eq_some.mp hstep
    exact h.returnClosing hloop fun _ ↦ rfl
  | .lookupResp =>
    dsimp only [IpcConn.step] at hstep
    split at hstep
    · next id numArgs err hloop =>
      obtain ⟨-, ⟨⟩⟩ := ite_none_left_eq_some.mp hstep
      dsimp only [Checked] at hchecked
      rw [hloop] at hchecked
      exact h.lookupResp hloop hchecked
    · exact nomatch hstep
  | .deliver ok =>
    dsimp only [IpcConn.step] at hstep
    split at hstep
    · next hloop =>
      obtain rfl := some.inj hstep
      exact h.deliver hloop ok
    · exact nomatch hstep

end IpcConn

end Vanadium.Agent
