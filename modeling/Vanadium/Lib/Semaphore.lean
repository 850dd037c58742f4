import Vanadium.Foundations.Table
import Vanadium.Foundations.Transition

/-!
# Semaphores

`DecN` takes what there is and waits for the rest, so that units are in the hands of calls that are
not finished. Each locked section and each operation on a channel is a step; calls of `DecN` are
kept with the place they have come to. `added`, `removed` and `failed` are not fields of the source:
they record the increments, the decrements that returned without an error, and the errors with the
units that the failed calls have kept.

A call that is cancelled gives back what it has taken. A call that fails because the semaphore is
closed does not.
-/

namespace Vanadium.Semaphore

open Foundations Transition Table Option

inductive Err where
  | closed
  | canceled
  | tryAgain
deriving DecidableEq

/-- A semaphore. Values are machine words with `w` bits. -/
structure Sem (w : ℕ) where
  value : ℕ
  notify : Bool
  isClosed : Bool
deriving DecidableEq

/-- Where a call of `DecN` is. -/
inductive Place where
  | start
  | select
  /-- it has received from `notify` -/
  | notified
  /-- it passes the notification on -/
  | passing
  /-- it has received from `closed` -/
  | closed
  /-- it has received from `cancel` -/
  | canceled
  /-- it has given its units back, and notifies -/
  | gaveBack
deriving DecidableEq

structure Dec where
  n : ℕ
  taken : ℕ
  place : Place
deriving DecidableEq

/-- What comes of a step of `DecN`. -/
inductive Outcome where
  | running (d : Dec)
  | done
  | failed (e : Err)
deriving DecidableEq

/-- The head of the loop. -/
def Dec.loop (d : Dec) : Outcome := if d.taken < d.n then
    .running { d with place := .select } else .done

variable {w : ℕ}

namespace Sem

def incN (s : Sem w) (n : ℕ) : Sem w := { s with value := (s.value + n) % 2 ^ w }

/-- A step of `DecN` that is not a `select`. -/
def decN (s : Sem w) (d : Dec) : Sem w × Outcome :=
  match d.place with
  | .start =>
    if d.n ≤ s.value then ({ s with value := s.value - d.n }, .done)
    else ({ s with value := 0 }, Dec.loop { d with taken := s.value })
  | .select => (s, .running d)
  | .notified =>
    let needed := d.n - d.taken
    if s.value ≤ needed then ({ s with value := 0 }, Dec.loop { d with taken := d.taken + s.value })
    else ({ s with value := s.value - needed },
      .running { d with taken := d.taken + needed, place := .passing })
  | .passing => ({ s with notify := true }, d.loop)
  | .closed =>
    let needed := d.n - d.taken
    if needed ≤ s.value then
      ({ s with value := s.value - needed }, Dec.loop { d with taken := d.taken + needed })
    else (s, .failed .closed)
  | .canceled =>
    if d.taken = 0 then (s, .failed .canceled)
    else (s.incN d.taken, .running { d with taken := 0, place := .gaveBack })
  | .gaveBack => ({ s with notify := true }, .failed .canceled)

end Sem

/-- The channels of the `select`. -/
inductive Channel where
  | notify
  | closed
  | cancel
deriving DecidableEq

/-- A receive operation, and where it leads. Any call may be cancelled at any time. -/
def Sem.receive (s : Sem w) : Channel → Option (Sem w × Place)
  | .notify => if s.notify then some ({ s with notify := false }, .notified) else none
  | .closed => if s.isClosed then some (s, .closed) else none
  | .cancel => some (s, .canceled)

structure State (w : ℕ) where
  sem : Sem w
  decs : Table ℕ Dec
  /-- calls of `IncN` that have still to notify -/
  notifying : ℕ
  added : ℕ
  removed : ℕ
  failed : List (Err × ℕ)

def State.new : State w := ⟨⟨0, false, false⟩, ∅, 0, 0, 0, []⟩

inductive Action where
  | decN (i n : ℕ)
  | select (i : ℕ) (c : Channel)
  | go (i : ℕ)
  | tryDecN (n : ℕ)
  | incN (n : ℕ)
  | notify
  | close
deriving DecidableEq

namespace State

/-- A call of `DecN` goes on, or returns. -/
def settle (s : State w) (i : ℕ) (d : Dec) : Sem w × Outcome → State w
  | (sem, .running d') => { s with sem := sem, decs := AList.insert i d' s.decs }
  | (sem, .done) => { s with sem := sem, decs := AList.erase i s.decs, removed := s.removed + d.n }
  | (sem, .failed e) =>
    { s with sem := sem, decs := AList.erase i s.decs, failed := s.failed ++ [(e, d.taken)] }

def step (s : State w) : Action → Option (State w)
  | .decN i n =>
    if AList.lookup i s.decs = none then
      some { s with decs := AList.insert i ⟨n, 0, .start⟩ s.decs }
    else none
  | .select i c =>
    (AList.lookup i s.decs).bind fun d ↦
      if d.place = .select then
        (s.sem.receive c).map fun r ↦ s.settle i d (r.1, .running { d with place := r.2 })
      else none
  | .go i =>
    (AList.lookup i s.decs).bind fun d ↦
      if d.place = .select then none else some (s.settle i d (s.sem.decN d))
  | .tryDecN n =>
    some <| if n ≤ s.sem.value then
      { s with sem := { s.sem with value := s.sem.value - n }, removed := s.removed + n }
    else { s with failed := s.failed ++ [(if s.sem.isClosed then .closed else .tryAgain, 0)] }
  | .incN n =>
    some <| if n = 0 then s
    else { s with sem := s.sem.incN n, notifying := s.notifying + 1, added := s.added + n }
  | .notify =>
    if s.notifying = 0 then none
    else some { s with sem := { s.sem with notify := true }, notifying := s.notifying - 1 }
  | .close => some { s with sem := { s.sem with isClosed := true } }

end State

/-- The value does not wrap around, and a call that finds the semaphore closed and too few units
there has taken none. -/
def Action.Keeps (s : State w) : Action → Prop
  | .incN n => s.sem.value + n < 2 ^ w
  | .go i => ∀ d ∈ AList.lookup i s.decs,
    (d.place = .canceled → s.sem.value + d.taken < 2 ^ w) ∧
      (d.place = .closed → s.sem.value < d.n - d.taken → d.taken = 0)
  | _ => True

instance (s : State w) (a : Action) : Decidable (a.Keeps s) :=
  match a with
  | .incN n => inferInstanceAs (Decidable (s.sem.value + n < 2 ^ w))
  | .go i => inferInstanceAs (Decidable (∀ d ∈ AList.lookup i s.decs,
      (d.place = .canceled → s.sem.value + d.taken < 2 ^ w) ∧
        (d.place = .closed → s.sem.value < d.n - d.taken → d.taken = 0)))
  | .decN _ _ | .select _ _ | .tryDecN _ | .notify | .close => inferInstanceAs (Decidable True)

/-! ## Conservation -/

/-- The units that a step leaves with a call: those of a finished one are gone. -/
def Outcome.units (d : Dec) : Outcome → ℕ
  | .running d' => d'.taken
  | .done => d.n
  | .failed _ => d.taken

/-- A call has taken no more than it asks for, and nothing before its first step or after it gave
back. -/
structure Dec.Ok (d : Dec) : Prop where
  le : d.taken ≤ d.n
  none : d.place = .start ∨ d.place = .gaveBack → d.taken = 0

structure Conserved (s : State w) : Prop where
  sum : s.sem.value + total Dec.taken s.decs + s.removed = s.added
  calls : ∀ {i d}, AList.lookup i s.decs = some d → d.Ok
  failed : ∀ f ∈ s.failed, f.2 = 0

variable {s s' : State w} {sem : Sem w} {d : Dec} {i : ℕ}

/-- A step of a call that leaves `u` units with the semaphore and the call. Only a call without
units fails. -/
structure Fair (d : Dec) (u : ℕ) (r : Sem w × Outcome) : Prop where
  sum : r.1.value + r.2.units d = u
  running : ∀ d', r.2 = .running d' → d'.Ok
  failed : ∀ e, r.2 = .failed e → d.taken = 0

theorem Fair.loop {d' : Dec} {u : ℕ} (hn : d'.n = d.n) (hle : d'.taken ≤ d.n)
    (hsum : sem.value + d'.taken = u) : Fair d u (sem, d'.loop) := by
  rw [Dec.loop, hn]
  split
  · refine ⟨hsum, ?_, nofun⟩
    rintro _ ⟨⟩
    exact ⟨hn ▸ hle, nofun⟩
  · next hlt => exact ⟨by rw [← hsum, le_antisymm hle (not_lt.mp hlt)]; rfl, nofun, nofun⟩

/-- **A step of `DecN`** that is not a `select`. -/
theorem Sem.fair_decN (hd : d.Ok) (hselect : d.place ≠ .select)
    (hwrap : d.place = .canceled → sem.value + d.taken < 2 ^ w)
    (hclosed : d.place = .closed → sem.value < d.n - d.taken → d.taken = 0) :
    Fair d (sem.value + d.taken) (sem.decN d) := by
  obtain ⟨n, taken, place⟩ := d
  obtain ⟨hle, hnone⟩ := hd
  dsimp only at hle hnone hselect hwrap hclosed ⊢
  rw [Sem.decN]
  match place with
  | .start =>
    obtain rfl := hnone (Or.inl rfl)
    dsimp only
    split
    · next hn => exact ⟨Nat.sub_add_cancel hn, nofun, nofun⟩
    · next hn => exact .loop rfl (not_le.mp hn).le (Nat.add_comm _ _)
  | .notified =>
    dsimp only
    split
    · exact .loop rfl (by dsimp only; omega) (by dsimp only; omega)
    · refine ⟨by dsimp only [Outcome.units]; omega, ?_, nofun⟩
      rintro _ ⟨⟩
      exact ⟨by dsimp only; omega, nofun⟩
  | .passing => exact .loop rfl hle rfl
  | .closed =>
    dsimp only
    split
    · exact .loop rfl (by dsimp only; omega) (by dsimp only; omega)
    · next hlt => exact ⟨rfl, nofun, fun _ _ ↦ hclosed rfl (not_le.mp hlt)⟩
  | .canceled =>
    dsimp only
    split
    · next hzero => exact ⟨rfl, nofun, fun _ _ ↦ hzero⟩
    · refine ⟨Nat.mod_eq_of_lt (hwrap rfl), ?_, nofun⟩
      rintro _ ⟨⟩
      exact ⟨Nat.zero_le _, fun _ ↦ rfl⟩
  | .gaveBack => exact ⟨rfl, nofun, fun _ _ ↦ hnone (Or.inr rfl)⟩

theorem Conserved.settle {r : Sem w × Outcome} (h : Conserved s) (hd : s.decs.lookup i = some d)
    (hr : Fair d (s.sem.value + d.taken) r) : Conserved (s.settle i d r) := by
  have hsum := h.sum
  obtain ⟨sem, outcome⟩ := r
  obtain ⟨hunits, hok, hfail⟩ := hr
  have herase := total_erase (f := Dec.taken) hd
  have hcalls : ∀ {j d'}, (s.decs.erase i).lookup j = some d' → d'.Ok := by
    intro j d' hj
    rw [lookup_erase_eq_ite] at hj
    split at hj
    · exact nomatch hj
    · exact h.calls hj
  match outcome with
  | .running d' =>
    have hupdate := total_update (f := Dec.taken) d' hd
    refine ⟨?_, fun {j e} hj ↦ ?_, h.failed⟩
    · change sem.value + d'.taken = _ at hunits
      change sem.value + total Dec.taken (AList.insert i d' s.decs) + s.removed = s.added
      omega
    · rw [State.settle, lookup_insert_eq_ite] at hj
      split at hj
      · cases hj
        exact hok d' rfl
      · exact h.calls hj
  | .done =>
    refine ⟨?_, hcalls, h.failed⟩
    change sem.value + d.n = _ at hunits
    change sem.value + total Dec.taken (s.decs.erase i) + (s.removed + d.n) = s.added
    omega
  | .failed e =>
    have hzero := hfail e rfl
    refine ⟨?_, hcalls, ?_⟩
    · change sem.value + d.taken = _ at hunits
      change sem.value + total Dec.taken (s.decs.erase i) + s.removed = s.added
      omega
    · rw [State.settle, List.forall_mem_append, List.forall_mem_singleton]
      exact ⟨h.failed, hzero⟩

theorem Sem.receive_spec {c : Channel} {r : Sem w × Place} (h : sem.receive c = some r) :
    r.1.value = sem.value ∧ ¬(r.2 = .start ∨ r.2 = .gaveBack) := by
  match c with
  | .notify =>
    obtain ⟨-, ⟨⟩⟩ := ite_none_right_eq_some.mp h
    exact ⟨rfl, nofun⟩
  | .closed =>
    obtain ⟨-, ⟨⟩⟩ := ite_none_right_eq_some.mp h
    exact ⟨rfl, nofun⟩
  | .cancel =>
    obtain ⟨⟩ := h
    exact ⟨rfl, nofun⟩

theorem Conserved.step {a : Action} (h : Conserved s) (ha : a.Keeps s)
    (hstep : s.step a = some s') : Conserved s' := by
  have hsum := h.sum
  match a with
  | .decN i n =>
    obtain ⟨hi, ⟨⟩⟩ := ite_none_right_eq_some.mp hstep
    refine ⟨?_, fun {j d} hj ↦ ?_, h.failed⟩
    · have hinsert := total_insert (f := Dec.taken) ⟨n, 0, .start⟩ hi
      rw [hinsert, Nat.zero_add]
      exact hsum
    · rw [lookup_insert_eq_ite] at hj
      split at hj
      · obtain ⟨⟩ := hj
        exact ⟨Nat.zero_le _, fun _ ↦ rfl⟩
      · exact h.calls hj
  | .select i c =>
    obtain ⟨d, hd, hif⟩ := bind_eq_some_iff.mp hstep
    obtain ⟨-, hmap⟩ := ite_none_right_eq_some.mp hif
    obtain ⟨r, hr, rfl⟩ := map_eq_some_iff.mp hmap
    obtain ⟨hvalue, hplace⟩ := Sem.receive_spec hr
    refine h.settle hd ⟨by rw [← hvalue]; rfl, ?_, nofun⟩
    rintro _ ⟨⟩
    exact ⟨(h.calls hd).le, fun hor ↦ absurd hor hplace⟩
  | .go i =>
    obtain ⟨d, hd, hif⟩ := bind_eq_some_iff.mp hstep
    obtain ⟨hselect, ⟨⟩⟩ := ite_none_left_eq_some.mp hif
    obtain ⟨hwrap, hclosed⟩ := ha d hd
    exact h.settle hd (Sem.fair_decN (h.calls hd) hselect hwrap hclosed)
  | .tryDecN n =>
    obtain ⟨⟩ := hstep
    split
    · exact { h with sum := by dsimp only; omega }
    · exact { h with
        failed := List.forall_mem_append.mpr ⟨h.failed, List.forall_mem_singleton.mpr rfl⟩ }
  | .incN n =>
    obtain ⟨⟩ := hstep
    split
    · exact h
    · refine { h with sum := ?_ }
      dsimp only [Sem.incN]
      rw [Nat.mod_eq_of_lt ha]
      omega
  | .notify =>
    obtain ⟨-, ⟨⟩⟩ := ite_none_left_eq_some.mp hstep
    exact { h with }
  | .close =>
    obtain ⟨⟩ := hstep
    exact { h with }

/-- **Units are conserved**, in every run in which the value does not wrap around and no call with
units in its hands fails because the semaphore is closed. -/
theorem units_conserved (as : List Action) (s : State w)
    (hrun : run (guarded (fun s a ↦ a.Keeps s) State.step) State.new as = some s) :
    (s.decs.entries = [] → s.sem.value + s.removed = s.added) ∧ ∀ f ∈ s.failed, f.2 = 0 := by
  have hnew : Conserved (State.new : State w) := ⟨rfl, nofun, nofun⟩
  obtain ⟨hsum, -, hfailed⟩ := guarded_invariant (fun _ _ _ h ↦ h.step) hnew hrun
  refine ⟨fun hdecs ↦ ?_, hfailed⟩
  rwa [total, hdecs] at hsum

/-- A call takes two units, is cancelled and gives them back. -/
def cancelled : List Action := [.incN 2, .decN 0 3, .go 0, .select 0 .cancel, .go 0, .go 0]

theorem units_conserved_cancelled : ∃ s : State 64, run
    (guarded (fun s a ↦ a.Keeps s) State.step) State.new cancelled = some s ∧
    s.sem.value + s.removed = s.added :=
  ⟨_, rfl, (units_conserved cancelled _ rfl).1 rfl⟩

/-- There is one unit, and a call that needs two has taken it when the semaphore is closed. -/
theorem closed_keeps_units : ∃ s : State 64, run State.step State.new
      [.incN 1, .decN 0 2, .go 0, .close, .select 0 .closed, .go 0] = some s ∧
    s.decs.entries = [] ∧ s.failed = [(.closed, 1)] ∧ s.sem.value + s.removed < s.added :=
  ⟨_, rfl, rfl, rfl, by decide⟩

end Vanadium.Semaphore
