import Vanadium.Flow.Effects

/-!
# Shared tokens are conserved

A flow that borrows shared tokens owes them: to its own counter while it is in `c.flows`, and to
`outstandingBorrowed` after it was closed locally. `pool` is the number of tokens that are shared or
owed. Every action keeps it while the connection is not closing, provided that a writer that borrows
takes its turn only while its flow is in `c.flows`: the loan of any other writer is never recorded.
-/

namespace Vanadium.Tokens

open Foundations Table Foundations.Transition Conn Flw Conn
open Vanadium.Flow (defaultBytesBufferedPerFlow)

/-- What a flow in `c.flows` owes. -/
def Flw.loan (f : Flw) : ℕ := if f.inFlows then f.borrowed else 0

/-- The shared tokens, those borrowed by flows in `c.flows` and those in `outstandingBorrowed`. -/
def Conn.pool (c : Conn) : ℕ :=
  c.lshared + Table.total Flw.loan c.flows + Table.total (fun n ↦ n) c.outstandingBorrowed

/-- What a flow owes. -/
def Conn.owed (c : Conn) (id : ℕ) : ℕ :=
  ((c.flows.lookup id).map Flw.loan).getD 0 + counter c.outstandingBorrowed id

/-- One step, whatever is sent. -/
def Conn.step (c : Conn) (a : Action) : Option Conn :=
  match c.exec a with
  | .error _ => none
  | .ok (c', _) => some c'

variable {a : Action}

theorem Conn.step_eq_some_iff {c c' : Conn} :
    c.step a = some c' ↔ ∃ out, c.exec a = .ok (c', out) := by
  rw [step]
  rcases c.exec a with e | ⟨d, out⟩
  · simp
  · simp

namespace Conn

variable {c c' : Conn} {T : ℕ}

/-- What holds in every state of a connection that started with `T` shared tokens. -/
structure Conserves (T : ℕ) (c : Conn) : Prop where
  le : c.pool ≤ T
  eq : c.status = .active → c.pool = T
  outstanding : ∀ id f, c.flows.lookup id = some f → f.inFlows →
    c.outstandingBorrowed.lookup id = none
  known : ∀ id n, c.outstandingBorrowed.lookup id = some n → ∃ f, c.flows.lookup id = some f
  fresh : ∀ id f, c.flows.lookup id = some f → id % 2 = c.nextFid % 2 → id < c.nextFid
  wf : ∀ id f, c.flows.lookup id = some f → f.Wf

/-! ## Updates -/

theorem lookup_set (c : Conn) (id k : ℕ) (f : Flw) :
    (c.set id f).flows.lookup k = if k = id then some f else c.flows.lookup k :=
  lookup_insert_eq_ite c.flows id k f

variable {id n : ℕ} {f f' : Flw} (counters : List (ℕ × ℕ))

theorem pool_set (f' : Flw) (h : c.flows.lookup id = some f) :
    (c.set id f').pool + f.loan = c.pool + f'.loan := by
  have htotal := total_update (f := loan) f' h
  change c.lshared + total loan (AList.insert id f' c.flows) +
    total (fun n ↦ n) c.outstandingBorrowed + f.loan = c.pool + f'.loan
  rw [pool]
  omega

section

variable (h : c.Conserves T)
include h

/-- One flow is changed, and nothing that other flows owe. -/
theorem Conserves.update (hle : c'.pool ≤ T)
    (heq : c'.status = .active → c'.pool = T)
    (hflows : ∀ k, c'.flows.lookup k = if k = id then some f else c.flows.lookup k)
    (hout : ∀ k, k ≠ id → c'.outstandingBorrowed.lookup k = c.outstandingBorrowed.lookup k)
    (hin : f.inFlows → c'.outstandingBorrowed.lookup id = none) (hwf : f.Wf)
    (hnext : c.nextFid ≤ c'.nextFid) (hpar : c'.nextFid % 2 = c.nextFid % 2)
    (hid : id % 2 = c'.nextFid % 2 → id < c'.nextFid) : c'.Conserves T := by
  have hlookup (k : ℕ) (g : Flw) (hk : c'.flows.lookup k = some g) :
      (k = id ∧ g = f) ∨ (k ≠ id ∧ c.flows.lookup k = some g) := by
    rw [hflows] at hk
    split at hk
    · next hid => exact .inl ⟨hid, (Option.some.inj hk).symm⟩
    · next hid => exact .inr ⟨hid, hk⟩
  refine ⟨hle, heq, fun k g hk hg ↦ ?_, fun k m hk ↦ ?_, fun k g hk hmod ↦ ?_, fun k g hk ↦ ?_⟩
  · rcases hlookup k g hk with ⟨rfl, rfl⟩ | ⟨hne, hk⟩
    · exact hin hg
    · exact (hout k hne).trans (h.outstanding k g hk hg)
  · rw [hflows]
    split
    · exact ⟨f, rfl⟩
    · next hne => exact h.known k m ((hout k hne).symm.trans hk)
  · rcases hlookup k g hk with ⟨rfl, rfl⟩ | ⟨-, hk⟩
    · exact hid hmod
    · exact (h.fresh k g hk (hmod.trans hpar)).trans_le hnext
  · rcases hlookup k g hk with ⟨-, rfl⟩ | ⟨-, hk⟩
    · exact hwf
    · exact h.wf k g hk

theorem Conserves.set (hf : c.flows.lookup id = some f)
    (hin : f'.inFlows → f.inFlows) (hwf : f'.Wf) (hloan : f.loan + c.lshared = f'.loan + n) :
    ({ c with lshared := n }.set id f').Conserves T := by
  have hpool : ({ c with lshared := n }.set id f').pool = c.pool := by
    have hset := pool_set (c := { c with lshared := n }) f' hf
    change _ + f.loan =
      n + total loan c.flows + total (fun n ↦ n) c.outstandingBorrowed + f'.loan at hset
    have hpool : c.pool = c.lshared + total loan c.flows +
      total (fun n ↦ n) c.outstandingBorrowed := rfl
    omega
  exact h.update (hpool ▸ h.le) (fun hs ↦ hpool ▸ h.eq hs) (lookup_set _ _ · _) (fun _ _ ↦ rfl)
    (fun hg ↦ h.outstanding id f hf (hin hg)) hwf le_rfl rfl (h.fresh id f hf)

theorem Conserves.set_same
    (hf : c.flows.lookup id = some f) (hin : f'.inFlows = f.inFlows)
    (hborrowed : f'.borrowed = f.borrowed) (hwf : f.Wf → f'.Wf) : (c.set id f').Conserves T := by
  refine h.set hf (fun hg ↦ hin ▸ hg) (hwf (h.wf id f hf)) ?_
  rw [loan, loan, hin, hborrowed]

theorem Conserves.add (hnone : c.flows.lookup id = none)
    (hf : f.borrowed = 0) (hwf : f.Wf) (hn : c.nextFid ≤ n) (hpar : n % 2 = c.nextFid % 2)
    (hid : id % 2 = n % 2 → id < n) : ({ c with nextFid := n }.set id f).Conserves T := by
  have hloan : f.loan = 0 := by
    rw [loan, hf]
    exact ite_self 0
  have hpool : ({ c with nextFid := n }.set id f).pool = c.pool := by
    change c.lshared + total loan (AList.insert id f c.flows) + _ = _
    rw [total_insert f hnone, hloan, Nat.zero_add]
    rfl
  refine h.update (hpool ▸ h.le) (fun hs ↦ hpool ▸ h.eq hs) (lookup_set _ _ · _) (fun _ _ ↦ rfl)
    (fun _ ↦ ?_) hwf hn hpar hid
  by_contra hsome
  obtain ⟨m, hm⟩ := Option.ne_none_iff_exists'.mp hsome
  obtain ⟨g, hg⟩ := h.known id m hm
  exact nomatch hnone.symm.trans hg

theorem Conserves.releaseLocked {tokens : ℕ}
    (hf : c.flows.lookup id = some f) (hin : f.inFlows) :
    (c.releaseLocked id f tokens).Conserves T := by
  refine h.set hf (fun _ ↦ hin) ((h.wf id f hf).congr rfl rfl rfl) ?_
  rw [loan, loan, if_pos hin]
  dsimp only
  rw [if_pos hin]
  omega

omit h in
theorem counter_eq {t : Table ℕ ℕ} (h : t.lookup id = some n) : counter t id = n := by
  rw [counter, h]
  rfl

/-- `releaseOutstandingBorrowedLocked` returns what is released of an outstanding loan. -/
theorem Conserves.releaseOutstandingBorrowedLocked (fid val : ℕ) :
    (c.releaseOutstandingBorrowedLocked fid val).Conserves T := by
  rw [Conn.releaseOutstandingBorrowedLocked]
  dsimp only
  split
  · exact h
  rename_i hne
  rcases ho : c.outstandingBorrowed.lookup fid with _ | borrowed
  · exact absurd (by rw [counter, ho]; rfl) hne
  rw [counter_eq ho]
  generalize ht : (if min val borrowed = borrowed then AList.erase fid c.outstandingBorrowed
    else AList.insert fid (borrowed - min val borrowed) c.outstandingBorrowed) = t
  -- the loan gets smaller by what is released
  have htotal : total (fun n ↦ n) t + min val borrowed =
      total (fun n ↦ n) c.outstandingBorrowed := by
    rw [← ht]
    split
    · next heq =>
      rw [total_erase ho, heq, Nat.add_comm]
    · have := total_update (f := (fun n ↦ n)) (borrowed - min val borrowed) ho
      omega
  have hlookup (k m : ℕ) (hk : t.lookup k = some m) :
      ∃ m', c.outstandingBorrowed.lookup k = some m' := by
    rw [← ht] at hk
    split at hk
    · rw [lookup_erase_eq_ite] at hk
      split at hk
      · cases hk
      · exact ⟨m, hk⟩
    · rw [lookup_insert_eq_ite] at hk
      split at hk
      · next heq => exact ⟨borrowed, heq ▸ ho⟩
      · exact ⟨m, hk⟩
  have hpool : { c with lshared := c.lshared + min val borrowed,
                        outstandingBorrowed := t }.pool = c.pool := by
    rw [pool, pool]
    dsimp only
    omega
  refine ⟨hpool ▸ h.le, fun hs ↦ hpool ▸ h.eq hs, fun k g hk hg ↦ ?_, fun k m hk ↦ ?_, h.fresh,
    h.wf⟩
  · by_contra hsome
    obtain ⟨m, hm⟩ := Option.ne_none_iff_exists'.mp hsome
    obtain ⟨m', hm'⟩ := hlookup k m hm
    rw [h.outstanding k g hk hg] at hm'
    cases hm'
  · obtain ⟨m', hm'⟩ := hlookup k m hk
    exact h.known k m' hm'

theorem Conserves.releaseCounter (fid val : ℕ) : (c.releaseCounter fid val).Conserves T := by
  rw [Conn.releaseCounter]
  split
  · exact h.releaseOutstandingBorrowedLocked fid val
  · next f hf =>
    split
    · next hin => exact h.releaseLocked hf hin
    · exact h.releaseOutstandingBorrowedLocked fid val

omit h in
theorem Conserves.releaseCounters : ∀ {c : Conn}, c.Conserves T →
    (counters.foldl (fun c e ↦ c.releaseCounter e.1 e.2) c).Conserves T := by
  induction counters with
  | nil => exact fun h ↦ h
  | cons e counters ih => exact fun h ↦ ih (h.releaseCounter e.1 e.2)

/-- The end of `close`. -/
theorem Conserves.finishClose {remotely : Bool}
    (hf : c.flows.lookup id = some f) (same : f.Same f') (hclosing : f'.closer ≠ .none) :
    (c.finishClose id f' remotely).Conserves T := by
  obtain ⟨hclosed, hin⟩ := (same.wf (h.wf id f hf)).closing hclosing
  have hloan : f.loan = f'.borrowed := by rw [loan, if_pos (same.inFlows ▸ hin), same.borrowed]
  have hwf {g : Flw} (hcloser : g.closer = .none) (hg : g.closed) : g.Wf :=
    ⟨fun hne ↦ absurd hcloser hne, fun hopen ↦ absurd (hg.symm.trans hopen) (by decide)⟩
  have hnone := h.outstanding id f hf (same.inFlows ▸ hin)
  rw [Conn.finishClose]
  split
  · -- the peer has closed the flow
    have hset := h.set hf (fun hg ↦ by cases hg)
      (hwf (g := { f' with borrowed := 0, inFlows := false, closer := .none }) rfl hclosed)
      (by rw [hloan, Nat.add_comm]; exact (Nat.zero_add _).symm)
    exact { hset with }
  -- the flow without its loan
  have hset (o : Table ℕ ℕ) : ({ c with outstandingBorrowed := o }.set id
      { f' with inFlows := false, closer := .none }).pool + f'.borrowed =
      c.lshared + total loan c.flows + total (fun n ↦ n) o := by
    rw [← hloan, pool_set (c := { c with outstandingBorrowed := o }) _ hf]
    rfl
  have hpool : c.pool = c.lshared + total loan c.flows +
    total (fun n ↦ n) c.outstandingBorrowed := rfl
  have hle := h.le
  split
  · next hout =>
    -- the loan moves to the outstanding ones
    have heq : ({ c with outstandingBorrowed := c.outstandingBorrowed.insert id f'.borrowed }.set id
        { f' with inFlows := false, closer := .none }).pool = c.pool := by
      have := hset (c.outstandingBorrowed.insert id f'.borrowed)
      rw [total_insert _ hnone] at this
      omega
    exact h.update (heq ▸ hle) (fun hs ↦ heq ▸ h.eq hs) (lookup_set _ _ · _)
      (fun _ hne ↦ AList.lookup_insert_ne hne) (fun hg ↦ nomatch hg) (hwf rfl hclosed) le_rfl rfl
      (h.fresh id f hf)
  · next hnot =>
    -- there is no loan, or it is forgotten because the connection is closing
    have := hset c.outstandingBorrowed
    change (c.set id _).pool + _ = _ at this
    refine h.update (by omega) (fun hs ↦ ?_) (lookup_set _ _ · _) (fun _ _ ↦ rfl)
      (fun hg ↦ nomatch hg) (hwf rfl hclosed) le_rfl rfl (h.fresh id f hf)
    have hzero : f'.borrowed = 0 := by
      by_contra hne
      exact hnot ⟨Nat.pos_of_ne_zero hne, hs⟩
    have heq := h.eq hs
    omega

theorem Conserves.lookup_nextFid : c.flows.lookup c.nextFid = none := by
  by_contra hsome
  obtain ⟨f, hf⟩ := Option.ne_none_iff_exists'.mp hsome
  exact absurd (h.fresh _ f hf rfl) (lt_irrefl _)

/-! ## One step -/

/-- The condition on a step: a flow that borrows is in `c.flows` when its writer takes a turn. -/
def borrowsOpen (c : Conn) : Action → Bool
  | .turn id => (c.flows.lookup id).all fun f ↦ f.inFlows || !f.borrowing
  | _ => true

/-- **Every effect keeps the tokens**, if it meets the condition. -/
theorem Conserves.effect {out : List Message}
    (ha : c.borrowsOpen a) (heff : Effect c a c' out) : c'.Conserves T := by
  have hsame {c : Conn} (h : c.Conserves T) {id : ℕ} {f f' : Flw}
      (hf : c.flows.lookup id = some f) (h₁ : f'.inFlows = f.inFlows)
      (h₂ : f'.borrowed = f.borrowed) (h₃ : f'.closed = f.closed) (h₄ : f'.closer = f.closer) :
      (c.set id f').Conserves T := h.set_same hf h₁ h₂ fun h ↦ h.congr h₃ h₄ h₁
  cases heff with
  | status hs hr => exact { h with eq := fun hactive ↦ h.eq (hs hactive) }
  | noop => exact h
  | quiet hf same hr hout => exact { h.set_same hf same.inFlows same.borrowed same.wf with }
  | dial =>
    exact h.add h.lookup_nextFid rfl ⟨fun hne ↦ absurd rfl hne, fun _ ↦ rfl⟩ (Nat.le_add_right _ 2)
      (Nat.add_mod_right _ 2) fun _ ↦ Nat.lt_add_of_pos_right Nat.two_pos
  | @borrow id n f w hf hb hle hold hnew hopens =>
    -- the loan is recorded because the flow is in `c.flows`
    have hin : f.inFlows := by
      rw [borrowsOpen, hf, Option.all_some, hb] at ha
      simpa using ha
    refine h.set hf (fun _ ↦ hin) ((h.wf id f hf).congr rfl rfl rfl) ?_
    rw [loan, loan, if_pos hin]
    dsimp only
    rw [if_pos hin]
    omega
  | spend hf | wire hf | read hf => exact hsame h hf rfl rfl rfl rfl
  | remove hf same hclosing => exact h.finishClose hf same hclosing
  | count hf | flush hf | put hf =>
    refine hsame ?_ hf rfl rfl rfl rfl
    exact { h with }
  | sendRelease hi hout => exact { h with }
  | handleRelease => exact h.releaseCounters _
  | handleData hf hidle => exact { h with }
  | handleDrop hf => exact h.releaseOutstandingBorrowedLocked _ _
  | @accept id init size closeFlag hnone hpar hidle =>
    have hadd := h.add (f := { newFlow false true with released := init }) hnone rfl
      ⟨fun hne ↦ absurd rfl hne, fun _ ↦ rfl⟩ le_rfl rfl fun heq ↦ absurd heq.symm hpar
    exact { hadd with }

theorem Conserves.step (ha : c.borrowsOpen a)
    (hstep : c.step a = some c') : c'.Conserves T := by
  obtain ⟨out, hexec⟩ := step_eq_some_iff.mp hstep
  exact h.effect ha (effect_of_exec hexec)

end

theorem sharedTokens_le (n : ℕ) : sharedTokens n ≤ defaultBytesBufferedPerFlow := by
  rw [sharedTokens]
  split
  · next h => exact h.2.le
  · exact le_rfl

/-- A new connection. -/
theorem conserves_new (dialer encapsulated handler : Bool) (remoteMtu remoteTokens : ℕ) :
    (new dialer encapsulated handler remoteMtu remoteTokens).Conserves
      (sharedTokens remoteTokens) := by
  rw [new]
  have hbase (c : Conn) (hshared : c.lshared = sharedTokens remoteTokens)
      (hflows : c.flows = (∅ : Table ℕ Flw).insert blessingsFlowID (newFlow true true))
      (hout : c.outstandingBorrowed = ∅) (hnext : blessingsFlowID < c.nextFid) :
      c.Conserves (sharedTokens remoteTokens) := by
    have hlookup (k : ℕ) (f : Flw) (hk : c.flows.lookup k = some f) :
        k = blessingsFlowID ∧ f = newFlow true true := by
      rw [hflows, lookup_insert_eq_ite] at hk
      split at hk
      · next heq => exact ⟨heq, (Option.some.inj hk).symm⟩
      · cases hk
    have hpool : c.pool = sharedTokens remoteTokens := by
      rw [pool, hflows, hout, hshared]
      rfl
    refine ⟨hpool.le, fun _ ↦ hpool, fun _ _ _ _ ↦ ?_, fun k m hk ↦ ?_, fun k f hk _ ↦ ?_,
      fun k f hk ↦ ?_⟩
    · rw [hout]
      rfl
    · rw [hout] at hk
      cases hk
    · rw [(hlookup k f hk).1]
      exact hnext
    · rw [(hlookup k f hk).2]
      exact ⟨fun hne ↦ absurd rfl hne, fun _ ↦ rfl⟩
  split
  · exact (hbase _ rfl rfl rfl (by decide : blessingsFlowID < reservedFlows)).releaseLocked
      (AList.lookup_insert _) rfl
  · exact hbase _ rfl rfl rfl (by decide : blessingsFlowID < reservedFlows + 1)

/-! ## What a flow owes -/

theorem owed_eq (c : Conn) (hf : c.flows.lookup id = some f) :
    c.owed id = f.loan + counter c.outstandingBorrowed id := by
  rw [owed, hf]
  rfl

theorem counter_releaseOutstanding (c : Conn) (fid val id : ℕ) :
    counter (c.releaseOutstandingBorrowedLocked fid val).outstandingBorrowed id =
      counter c.outstandingBorrowed id - if id = fid then val else 0 := by
  rw [releaseOutstandingBorrowedLocked]
  split
  · next hzero =>
    split
    · next heq => rw [heq, hzero, Nat.zero_sub]
    · rfl
  dsimp only
  by_cases hid : id = fid
  · subst hid
    rw [if_pos rfl]
    split
    · next hmin =>
      rw [counter, lookup_erase_eq_ite, if_pos rfl]
      change 0 = _
      omega
    · rw [counter, AList.lookup_insert]
      change counter c.outstandingBorrowed id - min val (counter c.outstandingBorrowed id) = _
      omega
  · split
    · rw [counter, AList.lookup_erase_ne hid]
      rfl
    · rw [counter, AList.lookup_insert_ne hid]
      rfl

theorem flows_releaseOutstanding (c : Conn) (fid val : ℕ) :
    (c.releaseOutstandingBorrowedLocked fid val).flows = c.flows := by
  rw [releaseOutstandingBorrowedLocked]
  split <;> rfl

theorem lshared_releaseOutstanding (c : Conn) (fid val : ℕ) :
    (c.releaseOutstandingBorrowedLocked fid val).lshared =
      c.lshared + min val (counter c.outstandingBorrowed fid) := by
  rw [releaseOutstandingBorrowedLocked]
  split
  · next hzero => rw [hzero, Nat.min_zero, Nat.add_zero]
  · rfl

theorem owed_of_not_inFlows (hout : ∀ f, c.flows.lookup id = some f → f.inFlows = false) :
    c.owed id = counter c.outstandingBorrowed id := by
  rw [owed]
  rcases hf : c.flows.lookup id with _ | f
  · exact Nat.zero_add _
  · change f.loan + _ = _
    rw [loan, hout f hf]
    exact Nat.zero_add _

theorem owed_releaseOutstanding {fid val : ℕ}
    (hout : ∀ f, c.flows.lookup fid = some f → f.inFlows = false) :
    (c.releaseOutstandingBorrowedLocked fid val).owed id =
      c.owed id - if id = fid then val else 0 := by
  by_cases hid : id = fid
  · subst hid
    rw [owed_of_not_inFlows hout, ← counter_releaseOutstanding]
    refine owed_of_not_inFlows ?_
    rwa [flows_releaseOutstanding]
  · rw [owed, flows_releaseOutstanding, counter_releaseOutstanding, if_neg hid]
    rfl

theorem owed_releaseCounter (h : c.Conserves T) (fid val id : ℕ) :
    (c.releaseCounter fid val).owed id = c.owed id - if id = fid then val else 0 := by
  rw [releaseCounter]
  split
  · next hnone => exact owed_releaseOutstanding fun f hf ↦ nomatch hnone.symm.trans hf
  rename_i f hf
  split
  · next hin =>
    have hnone := h.outstanding fid f hf hin
    rw [owed, owed]
    change ((((c.set fid _).flows.lookup id).map loan).getD
      0 + counter c.outstandingBorrowed id) = _
    rw [lookup_set]
    by_cases hid : id = fid
    · subst hid
      have hzero : counter c.outstandingBorrowed id = 0 := by
        rw [counter, hnone]
        rfl
      rw [if_pos rfl, if_pos rfl, hf, hzero]
      change (if f.inFlows then f.borrowed - min val f.borrowed else 0) + 0 = f.loan + 0 - val
      rw [if_pos hin, loan, if_pos hin]
      omega
    · rw [if_neg hid, if_neg hid]
      rfl
  · next hin =>
    refine owed_releaseOutstanding fun g hg ↦ ?_
    rw [hf] at hg
    cases hg
    exact Bool.eq_false_iff.mpr hin

/-- The tokens that a `Release` message releases to a flow. -/
def releasedTo (counters : List (ℕ × ℕ)) (id : ℕ) : ℕ :=
  (counters.map fun e ↦ if id = e.1 then e.2 else 0).sum

theorem owed_releaseCounters (id : ℕ) {c : Conn} (h : c.Conserves T) :
    (counters.foldl (fun c e ↦ c.releaseCounter e.1 e.2) c).owed id =
      c.owed id - releasedTo counters id := by
  induction counters generalizing c with
  | nil => exact rfl
  | cons e counters ih =>
    rw [List.foldl_cons, ih (h.releaseCounter e.1 e.2), owed_releaseCounter h,
      releasedTo, releasedTo, List.map_cons, List.sum_cons, Nat.sub_sub]

theorem owed_le (h : c.Conserves T) (id : ℕ) : c.owed id ≤ T := by
  have hpool := h.le
  rw [pool] at hpool
  have hloan : ((c.flows.lookup id).map loan).getD 0 ≤ total loan c.flows := by
    rcases hf : c.flows.lookup id with _ | f
    · exact Nat.zero_le _
    · exact apply_le_total (f := loan) hf
  have hout : counter c.outstandingBorrowed id ≤ total (fun n ↦ n) c.outstandingBorrowed := by
    rw [counter]
    rcases ho : c.outstandingBorrowed.lookup id with _ | n
    · exact Nat.zero_le _
    · exact apply_le_total (f := fun n ↦ n) ho
  rw [owed]
  omega

theorem eq_of_ok {ε : Type} {out out' : List Message}
    (h : (Except.ok (c, out) : Except ε _) = .ok (c', out')) : c = c' := by
  cases h
  rfl

theorem owed_handle_release (h : c.Conserves T) {counters : List (ℕ × ℕ)}
    (hstep : c.step (.handle (.release counters)) = some c') (id : ℕ) :
    c'.owed id = c.owed id - releasedTo counters id := by
  obtain ⟨out, hexec⟩ := step_eq_some_iff.mp hstep
  change c.handle (.release counters) = _ at hexec
  unfold handle at hexec
  split at hexec
  · rw [← eq_of_ok hexec, owed_releaseCounters counters id h]
  · nomatch hexec

/-- Data for a flow that is not in `c.flows` is an implicit release of everything that the flow
owes. -/
theorem owed_handle_data (h : c.Conserves T) (hT : T ≤ defaultBytesBufferedPerFlow) {size : ℕ}
    {closeFlag : Bool} (hout : ∀ f, c.flows.lookup id = some f → f.inFlows = false)
    (hs : c.status = .active) (hstep : c.step (.handle (.data id size closeFlag)) = some c') :
    c'.owed id = 0 ∧ c'.lshared = c.lshared + c.owed id := by
  obtain ⟨out, hexec⟩ := step_eq_some_iff.mp hstep
  have hc' : c' = c.releaseOutstandingBorrowedLocked id (2 ^ 64 - 1) := by
    change c.handle (.data id size closeFlag) = _ at hexec
    unfold handle at hexec
    rw [hs] at hexec
    split at hexec
    · dsimp only at hexec
      rw [if_neg (nomatch ·)] at hexec
      split at hexec
      · exact (eq_of_ok hexec).symm
      · next f hf =>
        rw [if_neg (Bool.eq_false_iff.mp (hout f hf))] at hexec
        exact (eq_of_ok hexec).symm
    · nomatch hexec
  have hle : c.owed id ≤ 2 ^ 64 - 1 := (owed_le h id).trans (hT.trans (by decide))
  constructor
  · rw [hc', owed_releaseOutstanding hout, if_pos rfl]
    exact Nat.sub_eq_zero_of_le hle
  · rw [hc', lshared_releaseOutstanding, ← owed_of_not_inFlows hout, Nat.min_eq_right hle]

/-- The peer has closed the flow: it owes nothing when `close` ends. -/
theorem owed_closeSection (h : c.Conserves T) (hf : c.flows.lookup id = some f)
    (hcloser : f.closer = .cancelled true) (hstep : c.step (.closeSection id) = some c') :
    c'.owed id = 0 ∧ c'.lshared = c.lshared + c.owed id := by
  obtain ⟨out, hexec⟩ := step_eq_some_iff.mp hstep
  have hin : f.inFlows := (h.wf id f hf).closing (by rw [hcloser]; nofun) |>.2
  have hnone : counter c.outstandingBorrowed id = 0 := by
    rw [counter, h.outstanding id f hf hin]
    rfl
  have howed : c.owed id = f.borrowed := by rw [owed_eq c hf, hnone, loan, if_pos hin, Nat.add_zero]
  obtain ⟨g, hg, rfl⟩ : ∃ g : Flw, g.borrowed = f.borrowed ∧ c' = c.finishClose id g true := by
    change c.closeSection id = _ at hexec
    rw [closeSection, withFlow, hf] at hexec
    dsimp only at hexec
    rw [hcloser] at hexec
    dsimp only at hexec
    split at hexec
    · refine ⟨_, ?_, (eq_of_ok hexec).symm⟩
      rfl
    · exact ⟨f, rfl, (eq_of_ok hexec).symm⟩
  rw [finishClose, if_pos rfl]
  constructor
  · rw [owed, lookup_set, if_pos rfl]
    change 0 + counter c.outstandingBorrowed id = 0
    rw [hnone]
  · rw [howed, ← hg]
    rfl

/-! ## Runs -/

/-- **Shared tokens are conserved** in every run in which a writer that borrows takes its turn only
while its flow is in `c.flows`. A closed flow's loan is given back by what the peer releases to it,
by data for a flow that is not in `c.flows`, and by a close of the peer. -/
theorem shared_tokens_conserved (dialer encapsulated handler : Bool) (remoteMtu remoteTokens : ℕ)
    (as : List Action) (c : Conn)
    (h : run (guarded (fun c a ↦ c.borrowsOpen a = true) step)
      (Conn.new dialer encapsulated handler remoteMtu remoteTokens) as = some c)
    (hs : c.status = .active) :
    c.lshared + Table.total Flw.loan c.flows + Table.total (fun n ↦ n) c.outstandingBorrowed =
        sharedTokens remoteTokens ∧
      (∀ counters c', c.step (.handle (.release counters)) = some c' →
        ∀ id, c'.owed id = c.owed id - releasedTo counters id) ∧
      (∀ id size closeFlag c', c.step (.handle (.data id size closeFlag)) = some c' →
        (∀ f, c.flows.lookup id = some f → f.inFlows = false) →
          c'.owed id = 0 ∧ c'.lshared = c.lshared + c.owed id) ∧
      ∀ id f c', c.flows.lookup id = some f → f.closer = .cancelled true →
        c.step (.closeSection id) = some c' →
          c'.owed id = 0 ∧ c'.lshared = c.lshared + c.owed id := by
  have hinv : c.Conserves _ :=
    guarded_invariant (fun _ _ _ hinv ha hstep ↦ hinv.step ha hstep) (conserves_new ..) h
  refine ⟨hinv.eq hs, fun counters c' hstep ↦ ?_, fun id size closeFlag c' hstep hout ↦ ?_,
    fun id f c' hf hcloser hstep ↦ ?_⟩
  · exact owed_handle_release hinv hstep
  · exact owed_handle_data hinv (sharedTokens_le _) hout hs hstep
  · exact owed_closeSection hinv hf hcloser hstep

/-- The dialer writes five bytes on a new flow and closes it; the peer releases them later. -/
def closedLoanRun : List Action :=
  [.dial, .startWrite 10 [5] false false, .turn 10, .wire 10 true false, .wired 10, .close 10,
    .closeCancel 10, .closeSection 10, .closeWire 10 true, .closeFinal 10,
    .handle (.release [(10, 5)])]

theorem shared_tokens_conserved_closedLoanRun :
    ∃ c, run (guarded (fun c a ↦ c.borrowsOpen a = true) step)
        (Conn.new true false false 0 0) closedLoanRun = some c ∧ c.status = .active ∧
      c.lshared + Table.total Flw.loan c.flows + Table.total (fun n ↦ n) c.outstandingBorrowed =
        sharedTokens 0 := by
  have hany : (run (guarded (fun c a ↦ c.borrowsOpen a = true) step)
      (new true false false 0 0) closedLoanRun).any
      (fun c ↦ decide (c.status = .active)) = true := by decide +kernel
  obtain ⟨c, hrun, hs⟩ := exists_run_of_any hany
  have hs := of_decide_eq_true hs
  exact ⟨c, hrun, hs, (shared_tokens_conserved _ _ _ _ _ _ c hrun hs).1⟩

/-- The peer closes a flow while its writer waits: the writer is notified and cancelled at once, and
it takes its turn. -/
def lostLoanRun : List Action :=
  [.dial, .startWrite 10 [5] false false, .turn 10, .wire 10 true false, .wired 10,
    .startWrite 10 [7] false false, .handle (.data 10 0 true), .readPut, .readClose,
    .closeCancel 10, .closeSection 10, .turn 10]

/-- The seven tokens of the second write are lost. -/
theorem shared_tokens_lost :
    ∃ c, run step (Conn.new true false false 0 0) lostLoanRun = some c ∧ c.status = .active ∧
      c.lshared + Table.total Flw.loan c.flows + Table.total (fun n ↦ n) c.outstandingBorrowed + 7 =
        sharedTokens 0 := by
  have hany : (run step (new true false false 0 0) lostLoanRun).any
      (fun c ↦ decide (c.status = .active ∧ c.lshared + Table.total loan c.flows +
          Table.total (fun n ↦ n) c.outstandingBorrowed + 7 = sharedTokens 0)) = true := by
    decide +kernel
  obtain ⟨c, hrun, hs⟩ := exists_run_of_any hany
  exact ⟨c, hrun, of_decide_eq_true hs⟩

end Conn

end Vanadium.Tokens
