import Mathlib

/-!
# A window with a loan

A sender may have `D` units sent and not read. The receiver grants `D` units when it learns of the
sender and grants again what was read. Until the first grant arrives the sender borrows, and a grant
repays the loan before it can be spent.

A `Ledger` counts the units of one sender. The invariant `Safe` bounds all units in circulation by
what was granted and what is borrowed. The first grant may be in circulation twice, in a grant that
is under way and in the loan; `Funded` says that this is the only way, so the units which were sent
and not read are at most `D` (`Safe.transit_le`).
-/

namespace Vanadium.Foundations.Credit

inductive Sender
  | absent
  | active (released borrowed : ℕ) (borrowing : Bool)
  /-- It no longer receives grants. -/
  | closed (released : ℕ)
deriving DecidableEq

structure Ledger where
  sender : Sender
  /-- The receiver knows of the sender. -/
  known : Bool
  /-- Units that were sent and not read. -/
  transit : ℕ
  /-- Units that were read and not granted. -/
  held : ℕ
  /-- Grants that are under way. -/
  grants : List ℕ

namespace Ledger

/-- The units at the receiver and under way. -/
def circulating (l : Ledger) : ℕ := l.transit + l.held + l.grants.sum

/-- Where the units for `credit` and for the loan can be. -/
def Funded (D : ℕ) (l : Ledger) (credit borrowed : ℕ) (borrowing : Bool) : Prop :=
  borrowed = 0 ∧ borrowing = false ∨ credit = 0 ∨ ∃ x ∈ l.grants, D ≤ x

/-- The invariant, for a window of `D` units. -/
def Safe (D : ℕ) (l : Ledger) : Prop :=
  match l.sender with
  | .absent => l.circulating = 0
  | .active released borrowed borrowing =>
    (l.known = false → released + l.circulating ≤ borrowed) ∧
      ∃ credit ≤ D, released + l.circulating ≤ credit + borrowed ∧
        l.Funded D credit borrowed borrowing
  | .closed released => released + l.transit ≤ D

variable {D : ℕ} {l l' : Ledger}

/-! ## The bound -/

variable {released borrowed n : ℕ} {borrowing : Bool}

variable (h : l.Safe D)
include h

theorem Safe.transit_add_released_le (hs : l.sender = .active released borrowed borrowing)
    (hb : borrowed ≤ D) : released + l.transit ≤ D := by
  rw [Safe, hs] at h
  obtain ⟨-, credit, hcredit, hle, hfunded⟩ := h
  rw [circulating] at hle
  rcases hfunded with ⟨hzero, -⟩ | hzero | ⟨x, hx, hD⟩
  · omega
  · omega
  · have := List.le_sum_of_mem hx
    omega

/-- **The window is never exceeded**, if no loan is larger than the window. -/
theorem Safe.transit_le
    (hb : ∀ released borrowed borrowing, l.sender = .active released borrowed borrowing →
      borrowed ≤ D) : l.transit ≤ D := by
  rcases hs : l.sender with _ | ⟨released, borrowed, borrowing⟩ | released
  · rw [Safe, hs] at h
    change l.transit + l.held + l.grants.sum = 0 at h
    omega
  · have := h.transit_add_released_le hs (hb _ _ _ hs)
    omega
  · rw [Safe, hs] at h
    omega

/-! ## The receiver and the wire -/

/-- Units are lost or move on. A grant of the size of the window stays one, or is lost. -/
theorem Safe.move (hs : l'.sender = l.sender) (hknown : l.known → l'.known)
    (htransit : l'.transit ≤ l.transit) (hle : l'.circulating ≤ l.circulating)
    (hgrants : ∀ x ∈ l.grants, D ≤ x →
      (∃ y ∈ l'.grants, D ≤ y) ∨ l'.circulating + D ≤ l.circulating) : l'.Safe D := by
  rw [Safe] at h ⊢
  rw [hs]
  rcases hsender : l.sender with _ | ⟨released, borrowed, borrowing⟩ | released
  · rw [hsender] at h
    omega
  · rw [hsender] at h
    obtain ⟨hunknown, credit, hcredit, hbound, hfunded⟩ := h
    refine ⟨fun hfalse ↦ ?_, ?_⟩
    · have hl : l.known = false := Bool.eq_false_iff.mpr fun ht ↦ by
        rw [hknown ht] at hfalse
        cases hfalse
      have := hunknown hl
      omega
    rcases hfunded with hnone | hzero | ⟨x, hx, hD⟩
    · exact ⟨credit, hcredit, by omega, .inl hnone⟩
    · exact ⟨credit, hcredit, by omega, .inr (.inl hzero)⟩
    · rcases hgrants x hx hD with hy | hlost
      · exact ⟨credit, hcredit, by omega, .inr (.inr hy)⟩
      · -- the grant is lost, and with it the credit
        exact ⟨0, Nat.zero_le _, by omega, .inr (.inl rfl)⟩
  · rw [hsender] at h
    omega

theorem Safe.move_of_grants_eq (hs : l'.sender = l.sender)
    (hknown : l.known → l'.known) (htransit : l'.transit ≤ l.transit)
    (hheld : l'.transit + l'.held ≤ l.transit + l.held) (hgrants : l'.grants = l.grants) :
    l'.Safe D := by
  refine h.move hs hknown htransit ?_ fun x hx hD ↦ .inl ⟨x, ?_, hD⟩
  · rw [circulating, circulating, hgrants]
    omega
  · rw [hgrants]
    exact hx

theorem Safe.learn (hs : l'.sender = l.sender) (hsender : l.sender ≠ .absent)
    (hunknown : l.known = false) (hknown : l'.known) (htransit : l'.transit ≤ l.transit)
    (hle : l'.circulating ≤ l.circulating + D) (hgrant : ∃ x ∈ l'.grants, D ≤ x) :
    l'.Safe D := by
  rw [Safe] at h ⊢
  rw [hs]
  rcases hcase : l.sender with _ | ⟨released, borrowed, borrowing⟩ | released
  · exact absurd hcase hsender
  · rw [hcase] at h
    have := h.1 hunknown
    refine ⟨fun hfalse ↦ ?_, D, le_rfl, by omega, .inr (.inr hgrant)⟩
    rw [hknown] at hfalse
    cases hfalse
  · rw [hcase] at h
    omega

/-! ## The sender -/

theorem Safe.dial (habsent : l.sender = .absent) (hs : l'.sender = .active 0 0 true)
    (hle : l'.circulating ≤ l.circulating) : l'.Safe D := by
  rw [Safe, habsent] at h
  rw [Safe, hs]
  exact ⟨fun _ ↦ by omega, 0, Nat.zero_le _, by omega, .inr (.inl rfl)⟩

theorem Safe.accept (habsent : l.sender = .absent) (hs : l'.sender = .active D 0 false)
    (hknown : l'.known) (hle : l'.circulating ≤ l.circulating) : l'.Safe D := by
  rw [Safe, habsent] at h
  rw [Safe, hs]
  refine ⟨fun hfalse ↦ ?_, D, le_rfl, by omega, .inl ⟨rfl, rfl⟩⟩
  rw [hknown] at hfalse
  cases hfalse

/-- Units of an active sender move, and none is made. -/
theorem Safe.transfer {released' borrowed' : ℕ} {borrowing' : Bool}
    (hl : l.sender = .active released borrowed borrowing)
    (hs : l'.sender = .active released' borrowed' borrowing') (hknown : l'.known = l.known)
    (hle : released' + l'.circulating + borrowed ≤ released + l.circulating + borrowed')
    (hfunded : ∀ credit, l.Funded D credit borrowed borrowing →
      l'.Funded D credit borrowed' borrowing') : l'.Safe D := by
  rw [Safe, hl] at h
  obtain ⟨hunknown, credit, hcredit, hbound, hcases⟩ := h
  rw [Safe, hs]
  refine ⟨fun hfalse ↦ ?_, credit, hcredit, by omega, hfunded credit hcases⟩
  have := hunknown (hknown ▸ hfalse)
  omega

theorem Safe.borrow (hl : l.sender = .active released borrowed true)
    (hs : l'.sender = .active released (borrowed + n) true) (hknown : l'.known = l.known)
    (hle : l'.circulating ≤ l.circulating + n) (hgrants : l'.grants = l.grants) : l'.Safe D := by
  refine h.transfer hl hs hknown (by omega) fun credit hcases ↦ .inr ?_
  rw [hgrants]
  exact hcases.resolve_left fun hnot ↦ nomatch hnot.2

theorem Safe.spend (hl : l.sender = .active released borrowed borrowing) (hn : n ≤ released)
    (hs : l'.sender = .active (released - n) borrowed borrowing) (hknown : l'.known = l.known)
    (hle : l'.circulating ≤ l.circulating + n) (hgrants : l'.grants = l.grants) : l'.Safe D := by
  refine h.transfer hl hs hknown (by omega) fun credit hcases ↦ ?_
  rwa [Funded, hgrants]

theorem Safe.spend_closed (hl : l.sender = .closed released) (hn : n ≤ released)
    (hs : l'.sender = .closed (released - n)) (hle : l'.transit ≤ l.transit + n) : l'.Safe D := by
  rw [Safe, hl] at h
  rw [Safe, hs]
  omega

/-- A grant of `n` units arrives. It repays the loan first. -/
theorem Safe.receive (hb : borrowed ≤ D) (hl : l.sender = .active released borrowed borrowing)
    (hs : l'.sender = .active (released + (n - min n borrowed)) (borrowed - min n borrowed) false)
    (hknown : l'.known = l.known) (hgrants : l.grants = n :: l'.grants)
    (hle : l'.circulating + n ≤ l.circulating) : l'.Safe D := by
  refine h.transfer hl hs hknown (by omega) fun credit hcases ↦ ?_
  rcases hcases with ⟨hzero, -⟩ | hzero | ⟨x, hx, hD⟩
  · exact .inl ⟨by omega, rfl⟩
  · exact .inr (.inl hzero)
  · rw [hgrants, List.mem_cons] at hx
    rcases hx with rfl | hx
    · -- the first grant repays the whole loan
      exact .inl ⟨by omega, rfl⟩
    · exact .inr (.inr ⟨x, hx, hD⟩)

theorem Safe.close (hb : borrowed ≤ D) (hl : l.sender = .active released borrowed borrowing)
    (hs : l'.sender = .closed released) (hle : l'.transit ≤ l.transit) : l'.Safe D := by
  have := h.transit_add_released_le hl hb
  rw [Safe, hs]
  omega

end Ledger

end Vanadium.Foundations.Credit
