import Vanadium.Raft.Cluster

/-!
# At most one leader in a term

Every member gives at most one vote in a term, its own candidacy included, because the vote is
stored with the term and a stored vote is only dropped together with the term. Two members that lead
the same term would need a common voter, so the question is whether a winner has the votes of more
than half of the members *for the term it leads*.

It need not. `startElection` compares the votes with half of the number of the *other* members,
which is less than half of the group when the group is even; and it looks at the role and not at the
term when the votes are in, so that a server which has started a second election meanwhile takes
over the later term with the votes of the earlier one (`two_leaders_in_one_term`). In a group of odd
size in which no server starts an election while it still counts the votes of another one, no term
has two leaders (`leader_unique_of_odd`).
-/

namespace Vanadium.Raft

open Foundations Transition List Function Server
open Server (VoteRequest AppendMsg SnapshotMsg)

variable {ι : Type} {answer : Option (Except RaftErr Unit)} {got : ι → Option (Term × Bool)}
  {req : VoteRequest ι} {p p' : Persist ι}

/-! ## What the handlers do to term, vote and role -/

namespace Persist

theorem ballot_addToLogTail (p : Persist ι) (e : LogEntry) :
    (p.addToLogTail e).currentTerm = p.currentTerm ∧ (p.addToLogTail e).votedFor = p.votedFor := by
  rw [addToLogTail]
  cases p.lookup e.index with
  | none => exact ⟨rfl, rfl⟩
  | some old => by_cases h : old.term = e.term <;> simp [h]

theorem ballot_appendEntries (es : List LogEntry) (p : Persist ι) (i : Index) :
    (p.appendEntries i es).currentTerm = p.currentTerm ∧
      (p.appendEntries i es).votedFor = p.votedFor := by
  induction es generalizing p i with
  | nil => exact ⟨rfl, rfl⟩
  | cons e es ih =>
    rw [appendEntries]
    split
    · exact ih p (i + 1)
    · obtain ⟨ht, hv⟩ := ballot_addToLogTail p e
      exact ⟨(ih _ _).1.trans ht, (ih _ _).2.trans hv⟩

theorem ballot_appendToLog {t : Term} {i : Index} {es : List LogEntry}
    (h : p.appendToLog t i es = .ok p') :
    p'.currentTerm = p.currentTerm ∧ p'.votedFor = p.votedFor := by
  rw [appendToLog] at h
  split at h
  · obtain rfl := Except.ok.inj h
    exact ballot_appendEntries es p (i + 1)
  · cases h

theorem ballot_trimLogTail (p : Persist ι) (i : Index) :
    (p.trimLogTail i).currentTerm = p.currentTerm ∧ (p.trimLogTail i).votedFor = p.votedFor := by
  rw [trimLogTail]
  split
  · exact ⟨rfl, rfl⟩
  · exact ⟨rfl, rfl⟩

theorem ballot_finishSnapshot {t : Term} {i : Index} (h : p.finishSnapshot t i = .ok p') :
    p'.currentTerm = p.currentTerm ∧ p'.votedFor = p.votedFor := by
  rw [finishSnapshot] at h
  split at h
  · obtain rfl := Except.ok.inj h
    exact ⟨rfl, rfl⟩
  · cases hl : p.lookup i with
    | none => rw [hl] at h; cases h
    | some le =>
      rw [hl] at h
      obtain rfl := Except.ok.inj h
      exact ballot_trimLogTail p i

end Persist

namespace Server

/-- The server keeps its term, vote and role, or steps down; a vote is only dropped with the
term. -/
structure Yields (s s' : Server ι) : Prop where
  term_le : s.p.currentTerm ≤ s'.p.currentTerm
  vote : s'.p.currentTerm = s.p.currentTerm → s'.p.votedFor = s.p.votedFor
  role : (s'.role = s.role ∧ s'.p.currentTerm = s.p.currentTerm) ∨ s'.role = .follower

variable {s s' : Server ι}

theorem Yields.of_eq (ht : s'.p.currentTerm = s.p.currentTerm)
    (hv : s'.p.votedFor = s.p.votedFor) (hr : s'.role = s.role) : Yields s s' :=
  ⟨ht.ge, fun _ ↦ hv, .inl ⟨hr, ht⟩⟩

theorem Yields.refl (s : Server ι) : Yields s s := Yields.of_eq rfl rfl rfl

theorem Yields.step_down (ht : s.p.currentTerm ≤ s'.p.currentTerm)
    (hv : s'.p.currentTerm = s.p.currentTerm → s'.p.votedFor = s.p.votedFor)
    (hr : s'.role = .follower) : Yields s s' :=
  ⟨ht, hv, .inr hr⟩

variable (t : Term) (me : ι)

theorem yields_observeTerm (s : Server ι) : Yields s (s.observeTerm t) := by
  rw [observeTerm]
  split
  · next h => exact .step_down h.le (fun heq ↦ absurd heq h.ne') rfl
  · exact .refl s

theorem yields_acceptLeader (l : ι) (s : Server ι) : Yields s (s.acceptLeader t l) := by
  by_cases h : s.p.currentTerm < t
  · refine .step_down ?_ (fun heq ↦ ?_) rfl
    · rw [acceptLeader, if_pos h]
      exact h.le
    · rw [acceptLeader, if_pos h] at heq
      exact absurd heq h.ne'
  · refine .step_down ?_ (fun _ ↦ ?_) rfl
    · rw [acceptLeader, if_neg h]
    · rw [acceptLeader, if_neg h]

theorem yields_handleAppend (m : AppendMsg ι) (s : Server ι) : Yields s (s.handleAppend m).1 := by
  rw [handleAppend]
  split
  · exact .refl s
  dsimp only
  have hy := yields_acceptLeader m.term m.leader s
  cases hp : (s.acceptLeader m.term m.leader).p.appendToLog m.prevTerm m.prevIndex m.entries with
  | error e => exact hy
  | ok p =>
    obtain ⟨ht, hv⟩ := Persist.ballot_appendToLog hp
    refine .step_down ?_ ?_ rfl
    · exact ht ▸ hy.term_le
    · intro heq
      exact hv.trans (hy.vote (ht ▸ heq))

theorem yields_installSnapshot (m : SnapshotMsg ι) (saved : Except RaftErr Unit) (s : Server ι) :
    Yields s (s.installSnapshot m saved).1 := by
  rw [installSnapshot]
  split
  · exact .refl s
  have hy := yields_acceptLeader m.term m.leader s
  cases saved with
  | error e => exact hy
  | ok u => exact .step_down hy.term_le hy.vote rfl

theorem yields_commitMatched [Fintype ι] (s : Server ι) : Yields s s.commitMatched := by
  rw [commitMatched]
  split
  · exact .refl s
  · exact .of_eq rfl rfl rfl

theorem yields_commitReceived (i : Index) (s : Server ι) : Yields s (s.commitReceived i) := by
  rw [commitReceived]
  split
  · exact .refl s
  · exact .of_eq rfl rfl rfl

theorem yields_applyFetch (s : Server ι) : Yields s s.applyFetch := by
  rw [applyFetch]
  split
  · exact .refl s
  · split
    · split <;> exact .of_eq rfl rfl rfl
    · exact .of_eq rfl rfl rfl

theorem yields_applyRecord (s : Server ι) : Yields s s.applyRecord := by
  rw [applyRecord]
  split
  · exact .refl s
  · exact .of_eq rfl rfl rfl

variable [DecidableEq ι]

/-- Either no vote is given, or the voter is now in the term of the request and its vote, which was
free or already the candidate's, is stored. -/
theorem requestVote_cases (req : VoteRequest ι) (s : Server ι) :
    ((s.requestVote req).2.2 = false ∧ Yields s (s.requestVote req).1) ∨
      ((s.requestVote req).2 = (req.term, true) ∧ s.p.currentTerm ≤ req.term ∧
        (s.p.currentTerm = req.term →
          s.p.votedFor = none ∨ s.p.votedFor = some req.candidate) ∧
        (s.requestVote req).1.role = .follower ∧
        (s.requestVote req).1.p.currentTerm = req.term ∧
        (s.requestVote req).1.p.votedFor = some req.candidate) := by
  rw [requestVote]
  split
  · exact .inl ⟨rfl, .refl s⟩
  rename_i hlt
  by_cases hvf : (s.observeTerm req.term).p.votedFor ≠ none ∧
      (s.observeTerm req.term).p.votedFor ≠ some req.candidate
  · rw [if_pos hvf]
    exact .inl ⟨rfl, yields_observeTerm _ s⟩
  rw [if_neg hvf]
  split
  · exact .inl ⟨rfl, yields_observeTerm _ s⟩
  refine .inr ⟨rfl, not_lt.mp hlt, fun heq ↦ ?_, rfl, rfl, rfl⟩
  -- in its own term `observeTerm` changes nothing
  rw [observeTerm, if_neg heq.not_lt] at hvf
  by_contra hno
  exact hvf ⟨fun h ↦ hno (.inl h), fun h ↦ hno (.inr h)⟩

theorem ballot_appendOwn {me : ι} {cmd : Bytes} {type : EntryType}
    (h : s.appendOwn me cmd type = .ok s') :
    s'.p.currentTerm = s.p.currentTerm ∧ s'.p.votedFor = s.p.votedFor ∧ s'.role = s.role := by
  rw [appendOwn] at h
  cases hp : s.p.appendToLog s.p.lastTerm s.p.lastIndex
      [⟨s.p.currentTerm, s.p.lastIndex + 1, cmd, type⟩] with
  | error e => rw [hp] at h; cases h
  | ok p =>
    rw [hp] at h
    obtain rfl := Except.ok.inj h
    exact ⟨(Persist.ballot_appendToLog hp).1, (Persist.ballot_appendToLog hp).2, rfl⟩

theorem ballot_appendNull (s : Server ι) :
    (s.appendNull me).p.currentTerm = s.p.currentTerm ∧
      (s.appendNull me).p.votedFor = s.p.votedFor ∧ (s.appendNull me).role = s.role := by
  rw [appendNull]
  cases h : s.appendOwn me [] .raft with
  | error e => exact ⟨rfl, rfl, rfl⟩
  | ok s' => exact ballot_appendOwn h

/-- Either the election is lost, or a candidate with enough votes leads the term it is in. -/
theorem finishElection_cases (others oks : ℕ) (highest : Term) (s : Server ι) :
    Yields s (s.finishElection me others oks highest) ∨
      (others / 2 < oks ∧ s.role = .candidate ∧
        (s.finishElection me others oks highest).role = .leader ∧
        (s.finishElection me others oks highest).p.currentTerm = s.p.currentTerm ∧
        (s.finishElection me others oks highest).p.votedFor = s.p.votedFor) := by
  rw [finishElection]
  split
  · refine .inl ?_
    split
    · next hh => exact .step_down hh.le (fun _ ↦ rfl) rfl
    · exact .refl s
  · next hlost =>
    obtain ⟨hoks, hrole⟩ := not_or.mp hlost
    obtain ⟨ht, hv, hr⟩ := ballot_appendNull me (s.becomeLeader me)
    exact .inr ⟨not_le.mp hoks, not_not.mp hrole, hr, ht, hv⟩

theorem yields_appendReturned (m : ι) (n : ℕ) (answer : Option (Except RaftErr Unit))
    (s : Server ι) : Yields s (s.appendReturned m n answer) := by
  unfold appendReturned
  split
  · exact .refl s
  rcases answer with _ | (_ | ⟨t, i⟩ | _ | _ | _) | u
  case some.error.outOfSequence =>
    dsimp only
    split
    · exact .refl s
    · split
      · exact .refl s
      · exact .of_eq rfl rfl rfl
  case some.ok => exact .of_eq rfl rfl rfl
  all_goals exact .refl s

end Server

/-! ## What a step does to the votes -/

namespace Cluster

open Server (Yields)

variable {i m v cand j : ι} {c c' : Cluster ι} {k : ℕ} {t : Term} {s : Server ι}

theorem getElem?_of_prefix {α : Type} {l l' : List α} {a : α} (hpre : l <+: l')
    (h : l[k]? = some a) : l'[k]? = some a := by
  obtain ⟨rest, rfl⟩ := hpre
  rwa [List.getElem?_append_left (List.getElem?_eq_some_iff.mp h).1]

/-- Nobody gains anything: every server keeps its ballot or steps down, no vote is asked for or
given, and no count of votes begins. -/
structure Idle (c c' : Cluster ι) : Prop where
  server : ∀ j, Yields (c.server j) (c'.server j)
  requests : c'.requests = c.requests
  replies : c'.replies = c.replies
  collecting : ∀ j, c'.collecting j ⊆ c.collecting j

theorem Idle.of_eq (hs : c'.server = c.server) (hreq : c'.requests = c.requests)
    (hrep : c'.replies = c.replies) (hcol : c'.collecting = c.collecting) : Idle c c' :=
  ⟨fun _ ↦ hs ▸ .refl _, hreq, hrep, fun _ ↦ hcol ▸ List.Subset.refl _⟩

/-- Member `v` has voted for `cand` in term `t`: it asked for votes itself, or it answered a request
of `cand` with a vote. -/
def Voted (c : Cluster ι) (v : ι) (t : Term) (cand : ι) : Prop :=
  (v = cand ∧ ∃ req ∈ c.requests, req.candidate = v ∧ req.term = t) ∨
    ∃ k req u, c.requests[k]? = some req ∧ req.candidate = cand ∧ req.term = t ∧
      (⟨k, v, u, true⟩ : VoteReply ι) ∈ c.replies

theorem Voted.mono
    (hreq : c.requests <+: c'.requests) (hrep : c.replies ⊆ c'.replies) (h : c.Voted v t cand) :
    c'.Voted v t cand := by
  rcases h with ⟨hv, req, hmem, hc, ht⟩ | ⟨k, req, u, hk, hc, ht, hmem⟩
  · exact .inl ⟨hv, req, hreq.subset hmem, hc, ht⟩
  · exact .inr ⟨k, req, u, getElem?_of_prefix hreq hk, hc, ht, hrep hmem⟩

/-- Member `i` has the votes of more than half of the members for term `t`. -/
def Elected [Fintype ι] (c : Cluster ι) (i : ι) (t : Term) : Prop :=
  ∃ V : Finset ι, Fintype.card ι < 2 * V.card ∧ ∀ v ∈ V, c.Voted v t i

theorem Elected.mono [Fintype ι]
    (hreq : c.requests <+: c'.requests) (hrep : c.replies ⊆ c'.replies) (h : c.Elected i t) :
    c'.Elected i t := by
  obtain ⟨V, hcard, hV⟩ := h
  exact ⟨V, hcard, fun v hv ↦ (hV v hv).mono hreq hrep⟩

/-- What an answer adds to the votes. -/
theorem voted_reply {w : ι} {u : Term} {g : Bool}
    (h : c'.Voted w t cand) (hk : c.requests[k]? = some req)
    (hreq : c'.requests = c.requests) (hrep : c'.replies = c.replies ++ [⟨k, v, u, g⟩]) :
    c.Voted w t cand ∨ (g = true ∧ w = v ∧ t = req.term ∧ cand = req.candidate) := by
  rcases h with ⟨rfl, req', hmem, hc, ht⟩ | ⟨k', req', u', hk', hc, ht, hmem⟩
  · exact .inl (.inl ⟨rfl, req', hreq ▸ hmem, hc, ht⟩)
  · rw [hrep] at hmem
    rcases mem_append.mp hmem with hmem | hmem
    · exact .inl (.inr ⟨k', req', u', hreq ▸ hk', hc, ht, hmem⟩)
    · obtain ⟨rfl, rfl, rfl, rfl⟩ := VoteReply.mk.inj (mem_singleton.mp hmem)
      rw [hreq, hk] at hk'
      obtain rfl := Option.some.inj hk'
      exact .inr ⟨rfl, rfl, ht.symm, hc.symm⟩

variable [DecidableEq ι]

@[simp] theorem server_set_self (c : Cluster ι) (i : ι) (s : Server ι) :
    (c.set i s).server i = s := update_self ..

theorem server_set_of_ne (c : Cluster ι) (s : Server ι) (h : j ≠ i) :
    (c.set i s).server j = c.server j := update_of_ne h ..

theorem idle_set (h : Yields (c.server i) s) : Idle c (c.set i s) := by
  refine ⟨fun j ↦ ?_, rfl, rfl, fun _ ↦ List.Subset.refl _⟩
  by_cases hj : j = i
  · subst hj
    rwa [server_set_self]
  · rw [server_set_of_ne c s hj]
    exact .refl _

theorem Idle.setCalling (h : Idle c c') (i m : ι) (call : Option Call) :
    Idle c (c'.setCalling i m call) :=
  ⟨h.server, h.requests, h.replies, h.collecting⟩

theorem idle_serverEvent (hy : Yields (c.server i) s)
    (h : c.serverEvent i s = some c') : Idle c c' := by
  rw [serverEvent] at h
  split at h <;> cases h
  exact idle_set hy

theorem idle_deliverAppend (h : c.deliverAppend k = some c') :
    Idle c c' := by
  rw [deliverAppend] at h
  split at h <;> cases h
  obtain ⟨hs, hreq, hrep, hcol⟩ := idle_set (yields_handleAppend _ (c.server _))
  exact ⟨hs, hreq, hrep, hcol⟩

theorem idle_deliverSnapshot {saved : Except RaftErr Unit}
    (h : c.deliverSnapshot k saved = some c') : Idle c c' := by
  rw [deliverSnapshot] at h
  split at h <;> cases h
  obtain ⟨hs, hreq, hrep, hcol⟩ := idle_set (yields_installSnapshot _ saved (c.server _))
  exact ⟨hs, hreq, hrep, hcol⟩

theorem idle_callFollower (h : c.callFollower i m = some c') :
    Idle c c' := by
  rw [callFollower] at h
  split at h
  · cases h
  · split at h <;> cases h <;> exact Idle.of_eq rfl rfl rfl rfl

theorem idle_sendSnapshot (h : c.sendSnapshot i m = some c') :
    Idle c c' := by
  rw [sendSnapshot] at h
  split at h
  · split at h <;> cases h <;> exact Idle.of_eq rfl rfl rfl rfl
  · cases h

theorem idle_appendReturn (h : c.appendReturn i m answer = some c') : Idle c c' := by
  rw [appendReturn] at h
  split at h
  · split at h
    · cases h
    · split at h <;> cases h
      exact (idle_set (yields_appendReturned m _ answer (c.server i))).setCalling i m none
  · cases h

theorem idle_snapshotReturn (h : c.snapshotReturn i m answer = some c') : Idle c c' := by
  rw [snapshotReturn] at h
  split at h
  · split at h
    · cases h
    · split at h
      · split at h
        · cases h
          refine Idle.setCalling (idle_set ?_) i m none
          exact .of_eq rfl rfl rfl
        · cases h
          exact Idle.of_eq rfl rfl rfl rfl
      · cases h
  · cases h

theorem not_voted_initial : ¬(initial : Cluster ι).Voted v t cand := by
  rintro (⟨-, req, hmem, -⟩ | ⟨k, req, u, hk, -⟩)
  · cases hmem
  · cases hk

variable [Fintype ι] {a : Action ι}

theorem idle_finishSnapshot {saved : Bool}
    (h : c.step (.finishSnapshot i saved) = some c') : Idle c c' := by
  rw [step] at h
  split at h
  · cases h
  · split at h
    · split at h
      · cases h
        exact idle_set (.of_eq rfl rfl rfl)
      · rename_i p hp
        cases h
        obtain ⟨ht, hv⟩ := Persist.ballot_finishSnapshot hp
        exact idle_set (.of_eq ht hv rfl)
    · cases h
      exact idle_set (.of_eq rfl rfl rfl)

theorem idle_restart (h : c.step (.restart i) = some c') :
    Idle c c' := by
  cases h
  obtain ⟨hs, hreq, hrep, -⟩ := idle_set (s := (c.server i).restart i)
      (.step_down le_rfl (fun _ ↦ rfl) rfl)
  refine ⟨hs, hreq, hrep, fun j ↦ ?_⟩
  by_cases hj : j = i
  · subst hj
    dsimp only
    rw [update_self]
    exact nil_subset _
  · dsimp only
    rw [update_of_ne hj]
    exact List.Subset.refl _

/-- Votes are only asked for, given and counted in the three steps of an election. -/
theorem step_cases (h : c.step a = some c') :
    Idle c c' ∨ (∃ i, a = .startElection i ∧ c' = c.startElection i) ∨
      (∃ k v, a = .deliverVote k v ∧ c.deliverVote k v = some c') ∨
      ∃ i k got, a = .finishElection i k got ∧ c.finishElection i k got = some c' := by
  cases a with
  | startElection i => exact .inr (.inl ⟨i, rfl, (Option.some.inj h).symm⟩)
  | deliverVote k v => exact .inr (.inr (.inl ⟨k, v, rfl, h⟩))
  | finishElection i k got => exact .inr (.inr (.inr ⟨i, k, got, rfl, h⟩))
  | clientAppend i cmd =>
    refine .inl ?_
    rw [step] at h
    rw [clientAppend] at h
    split at h
    · cases h
    · rename_i s hs
      cases h
      split at hs
      · cases hs
      · obtain ⟨ht, hv, hr⟩ := ballot_appendOwn hs
        exact idle_set (.of_eq ht hv hr)
  | callFollower i m => exact .inl (idle_callFollower h)
  | deliverAppend k => exact .inl (idle_deliverAppend h)
  | appendReturn i m answer => exact .inl (idle_appendReturn h)
  | sendSnapshot i m => exact .inl (idle_sendSnapshot h)
  | deliverSnapshot k saved => exact .inl (idle_deliverSnapshot h)
  | snapshotReturn i m answer => exact .inl (idle_snapshotReturn h)
  | commitMatched i => exact .inl (idle_serverEvent (yields_commitMatched _) h)
  | commitReceived i k =>
    refine .inl ?_
    rw [step] at h
    split at h
    · cases h
    · refine idle_serverEvent ?_ h
      obtain ⟨ht, hv, hr⟩ := yields_commitReceived _
        { c.server i with newCommit := (c.server i).newCommit.eraseIdx k }
      exact ⟨ht, hv, hr⟩
  | applyFetch i =>
    refine .inl ?_
    rw [step] at h
    split at h <;> cases h
    exact idle_set (yields_applyFetch _)
  | applyRecord i =>
    cases h
    exact .inl (idle_set (yields_applyRecord _))
  | beginSnapshot i =>
    refine .inl ?_
    rw [step] at h
    split at h <;> cases h
    exact idle_set (.of_eq rfl rfl rfl)
  | finishSnapshot i saved => exact .inl (idle_finishSnapshot h)
  | restart i => exact .inl (idle_restart h)

/-! ## Votes -/

/-- Votes are backed by what the voters have stored, nobody votes twice in a term, every leader was
elected for its term, and a candidate still counts the votes of its term only. -/
structure BallotInv (c : Cluster ι) : Prop where
  known : ∀ r ∈ c.replies, ∃ req, c.requests[r.call]? = some req ∧ req.candidate ≠ r.voter
  stored : ∀ v t cand, c.Voted v t cand → t ≤ (c.server v).p.currentTerm ∧
    ((c.server v).p.currentTerm = t → (c.server v).p.votedFor = some cand)
  unique : ∀ v t cand cand', c.Voted v t cand → c.Voted v t cand' → cand = cand'
  elected : ∀ i, (c.server i).role = .leader → c.Elected i (c.server i).p.currentTerm
  counting : ∀ i, ∀ k ∈ c.collecting i, ∃ req, c.requests[k]? = some req ∧ req.candidate = i ∧
    ((c.server i).role = .candidate → req.term = (c.server i).p.currentTerm)

/-- Two majorities share a voter. -/
theorem BallotInv.elected_unique (hi : c.BallotInv)
    (h : c.Elected i t) (h' : c.Elected j t) : i = j := by
  obtain ⟨V, hcard, hV⟩ := h
  obtain ⟨W, hcard', hW⟩ := h'
  have hunion : (V ∪ W).card + (V ∩ W).card = V.card + W.card :=
    Finset.card_union_add_card_inter V W
  have hle : (V ∪ W).card ≤ Fintype.card ι := Finset.card_le_univ _
  have hpos : 0 < (V ∩ W).card := by omega
  obtain ⟨v, hv⟩ := Finset.card_pos.mp hpos
  obtain ⟨hvV, hvW⟩ := Finset.mem_inter.mp hv
  exact hi.unique v t i j (hV v hvV) (hW v hvW)

theorem ballotInv_initial : (initial : Cluster ι).BallotInv where
  known := fun r hr ↦ by cases hr
  stored := fun _ _ _ hv ↦ absurd hv not_voted_initial
  unique := fun _ _ _ _ hv _ ↦ absurd hv not_voted_initial
  elected := fun i h ↦ by cases h
  counting := fun i k hk ↦ by cases hk

/-! ### The steps keep the invariant -/

omit [DecidableEq ι] in
/-- A step in which nobody gains a vote or a candidacy. -/
theorem BallotInv.of_yields (hi : c.BallotInv)
    (hs : ∀ j, Yields (c.server j) (c'.server j)) (hreq : c'.requests = c.requests)
    (hrep : c.replies ⊆ c'.replies) (hcol : ∀ j, c'.collecting j ⊆ c.collecting j)
    (hknown : ∀ r ∈ c'.replies, ∃ req, c'.requests[r.call]? = some req ∧ req.candidate ≠ r.voter)
    (hvoted : ∀ v t cand, c'.Voted v t cand → c.Voted v t cand) : c'.BallotInv := by
  refine ⟨hknown, fun v t cand hv ↦ ?_, fun v t cand cand' hv hv' ↦ ?_, fun i hr ↦ ?_,
    fun i k hk ↦ ?_⟩
  · obtain ⟨hle, hvf⟩ := hi.stored v t cand (hvoted v t cand hv)
    refine ⟨hle.trans (hs v).term_le, fun heq ↦ ?_⟩
    have hsame : (c'.server v).p.currentTerm = (c.server v).p.currentTerm :=
      le_antisymm (heq.trans_le hle) (hs v).term_le
    rw [(hs v).vote hsame]
    exact hvf (hsame.symm.trans heq)
  · exact hi.unique v t cand cand' (hvoted v t cand hv) (hvoted v t cand' hv')
  · rcases (hs i).role with ⟨hrole, hterm⟩ | hrole
    · rw [hterm]
      exact (hi.elected i (hrole ▸ hr)).mono (by rw [hreq]) hrep
    · rw [hrole] at hr
      cases hr
  · obtain ⟨req, hk', hc, ht⟩ := hi.counting i k (hcol i hk)
    refine ⟨req, hreq ▸ hk', hc, fun hr ↦ ?_⟩
    rcases (hs i).role with ⟨hrole, hterm⟩ | hrole
    · rw [hterm]
      exact ht (hrole ▸ hr)
    · rw [hrole] at hr
      cases hr

omit [DecidableEq ι] in
theorem BallotInv.idle (hi : c.BallotInv) (h : Idle c c') : c'.BallotInv := by
  refine hi.of_yields h.server h.requests (by rw [h.replies]; exact List.Subset.refl _) h.collecting
    (by rw [h.replies, h.requests]; exact hi.known) fun v t cand hv ↦ ?_
  exact hv.mono (by rw [h.requests]) (by rw [h.replies]; exact List.Subset.refl _)

/-- The only new vote of a candidacy is the candidate's own, in its new term. -/
theorem BallotInv.voted_startElection (hi : c.BallotInv) (h : (c.startElection i).Voted v t cand) :
    c.Voted v t cand ∨ (v = i ∧ cand = i ∧ t = (c.server i).p.currentTerm + 1) := by
  rcases h with ⟨rfl, req, hmem, hc, ht⟩ | ⟨k, req, u, hk, hc, ht, hmem⟩
  · rcases mem_append.mp hmem with hmem | hmem
    · exact .inl (.inl ⟨rfl, req, hmem, hc, ht⟩)
    · obtain rfl := mem_singleton.mp hmem
      exact .inr ⟨hc.symm, hc.symm, ht.symm⟩
  · refine .inl (.inr ⟨k, req, u, ?_, hc, ht, hmem⟩)
    obtain ⟨req', hreq', -⟩ := hi.known _ hmem
    have hlt : k < c.requests.length := (List.getElem?_eq_some_iff.mp hreq').1
    have hk' : (c.requests ++ [((c.server i).startElection i).voteRequest i])[k]? = some req := hk
    rwa [getElem?_append_left hlt] at hk'

theorem BallotInv.startElection (hi : c.BallotInv)
    (hfree : c.collecting i = []) : (c.startElection i).BallotInv := by
  have hpre : c.requests <+: (c.startElection i).requests := prefix_append _ _
  have hself : (c.startElection i).server i = (c.server i).startElection i := server_set_self _ _ _
  have hother : ∀ j, j ≠ i → (c.startElection i).server j = c.server j :=
    fun j hj ↦ server_set_of_ne c _ hj
  -- an earlier vote of the candidate is one of an earlier term
  have hold : ∀ {t cand}, c.Voted i t cand → t ≤ (c.server i).p.currentTerm :=
    fun hv ↦ (hi.stored _ _ _ hv).1
  refine ⟨fun r hr ↦ ?_, fun v t cand hv ↦ ?_, fun v t cand cand' hv hv' ↦ ?_, fun j hr ↦ ?_,
    fun j k hk ↦ ?_⟩
  · obtain ⟨req, hreq, hne⟩ := hi.known r hr
    exact ⟨req, getElem?_of_prefix hpre hreq, hne⟩
  · rcases hi.voted_startElection hv with hv₀ | ⟨rfl, rfl, rfl⟩
    · by_cases hvi : v = i
      · subst hvi
        rw [hself]
        have hle := hold hv₀
        refine ⟨hle.trans (Nat.le_succ _), fun heq ↦ ?_⟩
        exact absurd (heq.trans_le hle) (Nat.not_succ_le_self _)
      · rw [hother v hvi]
        exact hi.stored v t cand hv₀
    · rw [hself]
      exact ⟨le_rfl, fun _ ↦ rfl⟩
  · rcases hi.voted_startElection hv with h₁ | ⟨rfl, rfl, rfl⟩ <;>
      rcases hi.voted_startElection hv' with h₂ | ⟨hvi, rfl, ht⟩
    · exact hi.unique v t cand cand' h₁ h₂
    · subst hvi ht
      exact absurd (hold h₁) (Nat.not_succ_le_self _)
    · exact absurd (hold h₂) (Nat.not_succ_le_self _)
    · rfl
  · by_cases hj : j = i
    · subst hj
      rw [hself] at hr
      cases hr
    · rw [hother j hj] at hr ⊢
      exact (hi.elected j hr).mono hpre (List.Subset.refl _)
  · by_cases hj : j = i
    · subst hj
      have hk' : k ∈ update c.collecting j (c.collecting j ++ [c.requests.length]) j := hk
      rw [update_self, hfree] at hk'
      obtain rfl := mem_singleton.mp hk'
      refine ⟨((c.server j).startElection j).voteRequest j, ?_, rfl, fun _ ↦ ?_⟩
      · exact getElem?_concat_length
      · rw [hself]
        rfl
    · have hk' : k ∈ update c.collecting i (c.collecting i ++ [c.requests.length]) j := hk
      rw [update_of_ne hj] at hk'
      obtain ⟨req, hreq, hc, ht⟩ := hi.counting j k hk'
      rw [hother j hj]
      exact ⟨req, getElem?_of_prefix hpre hreq, hc, ht⟩

theorem BallotInv.deliverVote (hi : c.BallotInv)
    (h : c.deliverVote k v = some c') : c'.BallotInv := by
  rw [Cluster.deliverVote] at h
  cases hk : c.requests[k]? with
  | none => rw [hk] at h; cases h
  | some req =>
  rw [hk] at h
  dsimp only at h
  split at h
  · cases h
  rename_i hv
  cases h
  have hrep : c.replies ⊆ c.replies ++
      [⟨k, v, ((c.server v).requestVote req).2.1, ((c.server v).requestVote req).2.2⟩] :=
    subset_append_left _ _
  have hknown : ∀ r ∈ c.replies ++
      [(⟨k, v, ((c.server v).requestVote req).2.1, ((c.server v).requestVote req).2.2⟩ :
        VoteReply ι)],
      ∃ req, c.requests[r.call]? = some req ∧ req.candidate ≠ r.voter := by
    intro r hr
    rcases mem_append.mp hr with hr | hr
    · exact hi.known r hr
    · obtain rfl := mem_singleton.mp hr
      exact ⟨req, hk, Ne.symm hv⟩
  rcases requestVote_cases req (c.server v) with ⟨hno, hy⟩ | ⟨hyes, hle, hfree, hr, ht, hvf⟩
  · refine hi.of_yields (idle_set hy).server rfl hrep (fun _ ↦ List.Subset.refl _) hknown ?_
    intro w t cand hw
    rcases voted_reply hw hk rfl rfl with hw | ⟨hg, -⟩
    · exact hw
    · rw [hno] at hg
      cases hg
  · -- a vote of the same term, if there was one, went to the same candidate
    have hsame : ∀ {t cand}, c.Voted v t cand → t = req.term → cand = req.candidate := by
      intro t cand hw heq
      obtain ⟨hle', hst⟩ := hi.stored v t cand hw
      have hcur : (c.server v).p.currentTerm = t := le_antisymm (hle.trans_eq heq.symm) hle'
      rcases hfree (hcur.trans heq) with hnone | hsome
      · rw [hst hcur] at hnone
        cases hnone
      · rw [hst hcur] at hsome
        exact Option.some.inj hsome
    refine ⟨hknown, fun w t cand hw ↦ ?_, fun w t cand cand' hw hw' ↦ ?_, fun j hj ↦ ?_,
      fun j i hcol ↦ ?_⟩
    · by_cases hwv : w = v
      · subst hwv
        rw [server_set_self, ht, hvf]
        rcases voted_reply hw hk rfl rfl with hw | ⟨-, -, rfl, rfl⟩
        · exact ⟨(hi.stored w t cand hw).1.trans hle, fun heq ↦ by rw [hsame hw heq.symm]⟩
        · exact ⟨le_rfl, fun _ ↦ rfl⟩
      · rw [server_set_of_ne c _ hwv]
        rcases voted_reply hw hk rfl rfl with hw | ⟨-, rfl, -⟩
        · exact hi.stored w t cand hw
        · exact absurd rfl hwv
    · rcases voted_reply hw hk rfl rfl with h₁ | ⟨-, rfl, rfl, rfl⟩ <;>
        rcases voted_reply hw' hk rfl rfl with h₂ | ⟨-, hwv, hteq, rfl⟩
      · exact hi.unique w t cand cand' h₁ h₂
      · subst hwv
        exact hsame h₁ hteq
      · exact (hsame h₂ rfl).symm
      · rfl
    · by_cases hjv : j = v
      · subst hjv
        rw [server_set_self, hr] at hj
        cases hj
      · rw [server_set_of_ne c _ hjv] at hj ⊢
        exact Elected.mono (prefix_refl c.requests) hrep (hi.elected j hj)
    · obtain ⟨req', hreq', hc, hterm⟩ := hi.counting j i hcol
      refine ⟨req', hreq', hc, fun hj ↦ ?_⟩
      by_cases hjv : j = v
      · subst hjv
        rw [server_set_self, hr] at hj
        cases hj
      · rw [server_set_of_ne c _ hjv] at hj ⊢
        exact hterm hj

/-- In a group of odd size, more votes than half of the others are votes of more than half of
all. -/
theorem BallotInv.elected_of_oks (hi : c.BallotInv) (hodd : Odd (Fintype.card ι))
    (hk : c.requests[k]? = some req) (hc : req.candidate = i) (hans : c.Answered k got)
    (hwin : (Fintype.card ι - 1) / 2 < oks got) : c.Elected i req.term := by
  let V := Finset.univ.filter fun m ↦ (got m).map Prod.snd = some true
  have hmem : ∀ m ∈ V, ∃ u, (⟨k, m, u, true⟩ : VoteReply ι) ∈ c.replies := by
    intro m hm
    obtain ⟨⟨u, g⟩, hgot, rfl⟩ := Option.map_eq_some_iff.mp (Finset.mem_filter.mp hm).2
    exact ⟨u, hans m (u, true) hgot⟩
  have hnot : i ∉ V := by
    intro hm
    obtain ⟨u, hu⟩ := hmem i hm
    obtain ⟨req', hreq', hne⟩ := hi.known _ hu
    rw [show c.requests[k]? = some req' from hreq'] at hk
    obtain rfl := Option.some.inj hk
    exact hne hc
  refine ⟨insert i V, ?_, fun v hv ↦ ?_⟩
  · rw [Finset.card_insert_of_notMem hnot]
    have hoks : oks got = 1 + V.card := rfl
    obtain ⟨n, hn⟩ := hodd
    omega
  · rcases Finset.mem_insert.mp hv with rfl | hv
    · exact .inl ⟨rfl, req, mem_of_getElem? hk, hc, rfl⟩
    · obtain ⟨u, hu⟩ := hmem v hv
      exact .inr ⟨k, req, u, hk, hc, rfl, hu⟩

theorem BallotInv.finishElection (hi : c.BallotInv) (hodd : Odd (Fintype.card ι))
    (h : c.finishElection i k got = some c') : c'.BallotInv := by
  rw [Cluster.finishElection] at h
  by_cases hg : k ∈ c.collecting i ∧ c.Answered k got
  case neg => rw [if_neg hg] at h; cases h
  rw [if_pos hg] at h
  cases h
  obtain ⟨hkc, hans⟩ := hg
  have hcol : ∀ j, update c.collecting i ((c.collecting i).erase k) j ⊆ c.collecting j := by
    intro j
    by_cases hj : j = i
    · subst hj
      rw [update_self]
      exact erase_subset
    · rw [update_of_ne hj]
      exact List.Subset.refl _
  rcases finishElection_cases i (Fintype.card ι - 1) (oks got) (highest got) (c.server i) with
    hy | ⟨hwin, hcand, hr, ht, hvf⟩
  · exact hi.of_yields (idle_set hy).server rfl (List.Subset.refl _) hcol hi.known fun _ _ _ hv ↦ hv
  · obtain ⟨req, hreq, hc, hterm⟩ := hi.counting i k hkc
    have helected : c.Elected i (c.server i).p.currentTerm :=
      hterm hcand ▸ hi.elected_of_oks hodd hreq hc hans hwin
    refine ⟨hi.known, fun v t cand hv ↦ ?_, hi.unique, fun j hj ↦ ?_, fun j l hl ↦ ?_⟩
    · by_cases hvi : v = i
      · subst hvi
        rw [server_set_self, ht, hvf]
        exact hi.stored v t cand hv
      · rw [server_set_of_ne c _ hvi]
        exact hi.stored v t cand hv
    · by_cases hji : j = i
      · subst hji
        rw [server_set_self, ht]
        exact helected
      · rw [server_set_of_ne c _ hji] at hj ⊢
        exact hi.elected j hj
    · obtain ⟨req', hreq', hc', hterm'⟩ := hi.counting j l (hcol j hl)
      refine ⟨req', hreq', hc', fun hj ↦ ?_⟩
      by_cases hji : j = i
      · subst hji
        rw [server_set_self, hr] at hj
        cases hj
      · rw [server_set_of_ne c _ hji] at hj ⊢
        exact hterm' hj

/-! ## Election safety -/

/-- A server starts an election only when it counts no votes of an earlier one. -/
def OneElection (c : Cluster ι) : Action ι → Prop
  | .startElection i => c.collecting i = []
  | _ => True

instance (c : Cluster ι) : (a : Action ι) → Decidable (c.OneElection a)
  | .startElection i => inferInstanceAs (Decidable (c.collecting i = []))
  | .deliverVote _ _ | .finishElection _ _ _ | .clientAppend _ _ | .callFollower _ _
  | .deliverAppend _ | .appendReturn _ _ _ | .sendSnapshot _ _ | .deliverSnapshot _ _
  | .snapshotReturn _ _ _ | .commitMatched _ | .commitReceived _ _ | .applyFetch _
  | .applyRecord _ | .beginSnapshot _ | .finishSnapshot _ _ | .restart _ => .isTrue trivial

theorem BallotInv.step (hodd : Odd (Fintype.card ι))
    (hi : c.BallotInv) (hok : c.OneElection a) (h : c.step a = some c') : c'.BallotInv := by
  rcases step_cases h with hidle | ⟨i, rfl, rfl⟩ | ⟨k, v, rfl, hd⟩ | ⟨i, k, got, rfl, hf⟩
  · exact hi.idle hidle
  · exact hi.startElection hok
  · exact hi.deliverVote hd
  · exact hi.finishElection hodd hf

/-- **Election safety.** In every run of a group of odd size whose servers count the votes of one
election at a time, two members that lead the same term are the same member. -/
theorem leader_unique_of_odd (hodd : Odd (Fintype.card ι)) {as : List (Action ι)} {c : Cluster ι}
    (h : run (guarded OneElection step) initial as = some c) {i j : ι}
    (hi : (c.server i).role = .leader) (hj : (c.server j).role = .leader)
    (ht : (c.server i).p.currentTerm = (c.server j).p.currentTerm) : i = j := by
  have hinv : c.BallotInv :=
    guarded_invariant (fun _ _ _ hs hok hst ↦ hs.step hodd hok hst) ballotInv_initial h
  exact hinv.elected_unique (hinv.elected i hi) (ht ▸ hinv.elected j hj)

/-- Members `i` and `j` lead the same term. -/
def bothLead (i j : ι) (c : Cluster ι) : Bool :=
  (c.server i).role = .leader ∧ (c.server j).role = .leader ∧
    (c.server i).p.currentTerm = (c.server j).p.currentTerm

/-- Without the two conditions a term can have two leaders. In a group of two, each member wins with
its own vote, since one vote is more than half of the one other member, rounded down. In a group of
three, server 0 starts a second election before the answers to its first are in; server 2 wins the
second term with the vote of server 1, and then server 0 counts the vote that server 1 gave it in
the first term and leads the second term as well. -/
theorem two_leaders_in_one_term :
    (∃ as, ∃ c : Cluster (Fin 2), run (guarded OneElection step) initial as = some c ∧
      bothLead 0 1 c = true) ∧
      ∃ as, ∃ c : Cluster (Fin 3), run step initial as = some c ∧ bothLead 0 2 c = true := by
  refine ⟨⟨[.startElection 0, .startElection 1, .finishElection 0 0 fun _ ↦ none,
      .finishElection 1 1 fun _ ↦ none], exists_run_of_any ?_⟩,
    [.startElection 0, .deliverVote 0 1, .startElection 0, .startElection 2,
      .finishElection 2 2 fun _ ↦ none, .startElection 2, .deliverVote 3 1,
      .finishElection 2 3 fun m ↦ if m = 1 then some (2, true) else none,
      .finishElection 0 0 fun m ↦ if m = 1 then some (1, true) else none],
    exists_run_of_any ?_⟩
  · decide +kernel
  · decide +kernel

/-- Three servers of which the first wins the first term. -/
theorem leader_unique_of_odd_three : ∃ as, ∃ c : Cluster (Fin 3),
    run (guarded OneElection step) initial as = some c ∧ (c.server 0).role = .leader ∧
      ∀ j, (c.server j).role = .leader → (c.server 0).p.currentTerm = (c.server j).p.currentTerm →
        0 = j := by
  have hany : (run (guarded OneElection step) (initial : Cluster (Fin 3)) [.startElection 0,
      .deliverVote 0 1, .finishElection 0 0 fun m ↦ if m = 1 then some (1, true) else none]).any
      (fun c ↦ (c.server 0).role = .leader) = true := by
    decide +kernel
  obtain ⟨c, hrun, hlead⟩ := exists_run_of_any hany
  have hlead : (c.server 0).role = .leader := of_decide_eq_true hlead
  exact ⟨_, c, hrun, hlead, fun j hj ht ↦ leader_unique_of_odd (by decide) hrun hlead hj ht⟩

end Cluster

end Vanadium.Raft
