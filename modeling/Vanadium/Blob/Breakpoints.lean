import Mathlib

/-!
# Breaking a stream at content-defined places

Where a chunk that starts at `p` ends in a stream of `n` positions, given which positions are
primary and which are secondary break points: at the first primary break point at or after `p + lo`,
or, if there is none up to `p + hi`, at the last secondary break point from `p + from` on, or else
at `p + hi`; the end of the stream ends the last chunk. The rule is stated as a relation (`IsBreak`)
and computed by `next`.

Secondary break points count from `lo` on or, if `a = 1`, from the start of the chunk on. The two
rules agree on a stream if and only if no chunk has its only secondary break points before `lo`
(`breaks_eq_iff`).
-/

namespace Vanadium.Breakpoints

open List

/-- The bounds of a chunk, the length of the stream and its break points. -/
structure Stream where
  lo : ℕ
  hi : ℕ
  n : ℕ
  primary : ℕ → Bool
  secondary : ℕ → Bool

namespace Stream

variable {s : Stream} {a p q : ℕ} {test : ℕ → Bool}

/-- Where a chunk that starts at `p` ends, if secondary break points count from `p + a` on. -/
inductive IsBreak (s : Stream) (a p : ℕ) : ℕ → Prop
  | primary {q : ℕ} (lo : p + s.lo ≤ q) (hi : q ≤ p + s.hi) (le : q ≤ s.n) (here : s.primary q)
      (first : ∀ i, p + s.lo ≤ i → i < q → s.primary i = false) : IsBreak s a p q
  | secondary {q : ℕ} (long : p + s.hi ≤ s.n)
      (none : ∀ i, p + s.lo ≤ i → i ≤ p + s.hi → s.primary i = false) (ge : p + a ≤ q)
      (hi : q ≤ p + s.hi) (here : s.secondary q)
      (last : ∀ i, q < i → i ≤ p + s.hi → s.secondary i = false) : IsBreak s a p q
  | maximum (long : p + s.hi ≤ s.n)
      (none : ∀ i, p + s.lo ≤ i → i ≤ p + s.hi → s.primary i = false)
      (none' : ∀ i, p + a ≤ i → i ≤ p + s.hi → s.secondary i = false) : IsBreak s a p (p + s.hi)
  | ended (short : s.n < p + s.hi)
      (none : ∀ i, p + s.lo ≤ i → i ≤ s.n → s.primary i = false) : IsBreak s a p s.n

/-- A stream from `p` on has the break points of another one from `p'` on that matter to a chunk
which starts there, except for secondary ones before `p + w`. -/
structure Agree (s s' : Stream) (p p' w : ℕ) : Prop where
  lo : s'.lo = s.lo
  hi : s'.hi = s.hi
  n : s'.n + p = s.n + p'
  primary : ∀ i, s.lo ≤ i → p + i ≤ s.n → s'.primary (p' + i) = s.primary (p + i)
  secondary : ∀ i, w ≤ i → p + i ≤ s.n → s'.secondary (p' + i) = s.secondary (p + i)

variable {s' : Stream} {p' w k r r' : ℕ}

theorem Agree.refl (s : Stream) (p w : ℕ) : Agree s s p p w :=
  ⟨rfl, rfl, rfl, fun _ _ _ ↦ rfl, fun _ _ _ ↦ rfl⟩

theorem IsBreak.le_of_agree (hagree : Agree s s' p p' w) (h : s.IsBreak a (p + k) (p + r))
    (h' : s'.IsBreak a (p' + k) (p' + r')) (hr : w ≤ r) (hr' : w ≤ r') : r ≤ r' := by
  obtain ⟨hlo, hhi, hn, hprim, hsec⟩ := hagree
  -- a break point cannot be where there is none
  have hno {test : ℕ → Bool} {i : ℕ} (hhere : test i = true) (hnone : test i = false) : False :=
    Bool.eq_false_iff.mp hnone hhere
  generalize hq : p + r = q at h
  generalize hq' : p' + r' = q' at h'
  cases h with
  | primary lo hi le here first =>
    rw [← hq, ← hprim r (by omega) (by omega)] at here
    cases h' with
    | primary lo' _ _ here' _ =>
      rw [← hq', hprim r' (by omega) (by omega)] at here'
      exact not_lt.mp fun hlt ↦ hno here' (first _ (by omega) (by omega))
    | secondary _ none _ _ _ _ => exact (hno here (none _ (by omega) (by omega))).elim
    | maximum _ _ _ => omega
    | ended _ _ => omega
  | secondary long none ge hi here last =>
    cases h' with
    | primary lo' hi' le' here' _ =>
      rw [← hq', hprim r' (by omega) (by omega)] at here'
      exact (hno here' (none _ (by omega) (by omega))).elim
    | secondary _ _ _ _ _ last' =>
      rw [← hq, ← hsec r hr (by omega)] at here
      exact not_lt.mp fun hlt ↦ hno here (last' _ (by omega) (by omega))
    | maximum _ _ _ => omega
    | ended short _ => omega
  | maximum long none none' =>
    cases h' with
    | primary lo' hi' le' here' _ =>
      rw [← hq', hprim r' (by omega) (by omega)] at here'
      exact (hno here' (none _ (by omega) (by omega))).elim
    | secondary _ _ ge' hi' here' _ =>
      rw [← hq', hsec r' hr' (by omega)] at here'
      exact (hno here' (none' _ (by omega) (by omega))).elim
    | maximum _ _ _ => omega
    | ended short _ => omega
  | ended short none =>
    cases h' with
    | primary lo' _ le' here' _ =>
      rw [← hq', hprim r' (by omega) (by omega)] at here'
      exact (hno here' (none _ (by omega) (by omega))).elim
    | secondary long _ _ _ _ _ => omega
    | maximum long _ _ => omega
    | ended _ _ => omega

theorem IsBreak.unique {q' : ℕ} (h : s.IsBreak a p q) (h' : s.IsBreak a p q') : q = q' := by
  rw [← Nat.zero_add p, ← Nat.zero_add q] at h
  rw [← Nat.zero_add p, ← Nat.zero_add q'] at h'
  exact le_antisymm (h.le_of_agree (.refl s 0 0) h' (Nat.zero_le q) (Nat.zero_le q'))
    (h'.le_of_agree (.refl s 0 0) h (Nat.zero_le q') (Nat.zero_le q))

/-! ## The break computed -/

/-- The first position of an interval that satisfies a test. -/
def first (test : ℕ → Bool) (i j : ℕ) : Option ℕ := (List.range' i (j + 1 - i)).find? test

/-- The last position of an interval that satisfies a test. -/
def last (test : ℕ → Bool) (i j : ℕ) : Option ℕ := (List.range' i (j + 1 - i)).reverse.find? test

/-- The end of the chunk that starts at `p`. -/
def next (s : Stream) (a p : ℕ) : ℕ :=
  match first s.primary (p + s.lo) (min (p + s.hi) s.n) with
  | some q => q
  | none =>
    if s.n < p + s.hi then s.n
    else (last s.secondary (p + a) (p + s.hi)).getD (p + s.hi)

theorem mem_interval {i j k : ℕ} : k ∈ range' i (j + 1 - i) ↔ i ≤ k ∧ k ≤ j := by
  rw [mem_range'_1]
  omega

theorem first_eq_none {i j : ℕ} : first test i j = none ↔ ∀ k, i ≤ k → k ≤ j → test k = false := by
  rw [first, find?_eq_none]
  constructor
  · intro h k hi hj
    exact Bool.eq_false_iff.mpr (h k (mem_interval.mpr ⟨hi, hj⟩))
  · intro h k hk
    exact Bool.eq_false_iff.mp (h k (mem_interval.mp hk).1 (mem_interval.mp hk).2)

/-- What is found in a sorted list is the first with the property. -/
theorem of_find?_eq_some {R : ℕ → ℕ → Prop} [Std.Asymm R] {l : List ℕ} {q : ℕ}
    (hl : l.Pairwise R) (h : l.find? test = some q) :
    q ∈ l ∧ test q ∧ ∀ k ∈ l, R k q → test k = false := by
  obtain ⟨htest, before, after, rfl, hbefore⟩ := find?_eq_some_iff_append.mp h
  refine ⟨by simp, htest, fun k hk hkq ↦ ?_⟩
  rcases mem_append.mp hk with hb | ha
  · exact Bool.eq_false_iff.mpr fun ht ↦ by simpa [ht] using hbefore k hb
  · rcases mem_cons.mp ha with rfl | ha
    · exact absurd hkq (irrefl _)
    · have hlt := (pairwise_cons.mp (pairwise_append.mp hl).2.1).1 k ha
      exact absurd hkq (asymm hlt)

theorem first_eq_some {i j q : ℕ} (h : first test i j = some q) :
    i ≤ q ∧ q ≤ j ∧ test q ∧ ∀ k, i ≤ k → k < q → test k = false := by
  obtain ⟨hq, htest, hbefore⟩ := of_find?_eq_some pairwise_lt_range' h
  obtain ⟨hi, hj⟩ := mem_interval.mp hq
  exact ⟨hi, hj, htest, fun k hk hkq ↦ hbefore k (mem_interval.mpr ⟨hk, hkq.le.trans hj⟩) hkq⟩

theorem last_eq_none {i j : ℕ} : last test i j = none ↔ ∀ k, i ≤ k → k ≤ j → test k = false := by
  rw [← first_eq_none, first, last, find?_eq_none, find?_eq_none]
  simp only [mem_reverse]

theorem last_eq_some {i j q : ℕ} (h : last test i j = some q) :
    i ≤ q ∧ q ≤ j ∧ test q ∧ ∀ k, q < k → k ≤ j → test k = false := by
  obtain ⟨hq, htest, hbefore⟩ := of_find?_eq_some (pairwise_reverse.mpr pairwise_lt_range') h
  obtain ⟨hi, hj⟩ := mem_interval.mp (mem_reverse.mp hq)
  refine ⟨hi, hj, htest, fun k hqk hk ↦ hbefore k (mem_reverse.mpr ?_) hqk⟩
  exact mem_interval.mpr ⟨hi.trans hqk.le, hk⟩

theorem isBreak_next (s : Stream) (a p : ℕ) : s.IsBreak a p (s.next a p) := by
  rw [next]
  rcases hfirst : first s.primary (p + s.lo) (min (p + s.hi) s.n) with _ | q
  · have hnone := first_eq_none.mp hfirst
    dsimp only
    split
    · next hshort => exact .ended hshort fun i hlo hi ↦ hnone i hlo (le_min (by omega) hi)
    · next hlong =>
      have hlong := not_lt.mp hlong
      have hnone' : ∀ i, p + s.lo ≤ i → i ≤ p + s.hi → s.primary i = false :=
        fun i hlo hi ↦ hnone i hlo (le_min hi (hi.trans hlong))
      rcases hlast : last s.secondary (p + a) (p + s.hi) with _ | q
      · exact .maximum hlong hnone' (last_eq_none.mp hlast)
      · obtain ⟨hge, hhi, hsec, hafter⟩ := last_eq_some hlast
        exact .secondary hlong hnone' hge hhi hsec hafter
  · obtain ⟨hlo, hmin, hprim, hbefore⟩ := first_eq_some hfirst
    exact .primary hlo (hmin.trans (min_le_left _ _)) (hmin.trans (min_le_right _ _)) hprim hbefore

theorem isBreak_iff : s.IsBreak a p q ↔ q = s.next a p :=
  ⟨fun h ↦ h.unique (s.isBreak_next a p), fun h ↦ h ▸ s.isBreak_next a p⟩

theorem IsBreak.bounds (h : s.IsBreak a p q) (hlo : 0 < s.lo) (ha : 0 < a) (hlohi : s.lo ≤ s.hi)
    (hp : p < s.n) : p < q ∧ q ≤ s.n ∧ q ≤ p + s.hi := by
  cases h with
  | primary lo hi le _ _ => exact ⟨by omega, le, hi⟩
  | secondary long _ ge hi _ _ => exact ⟨by omega, by omega, hi⟩
  | maximum long _ _ => exact ⟨by omega, long, le_rfl⟩
  | ended short _ => exact ⟨hp, le_rfl, short.le⟩

theorem IsBreak.le (h : s.IsBreak a p q) (hp : p ≤ s.n) : p ≤ q := by
  cases h with
  | primary lo _ _ _ _ => omega
  | secondary _ _ ge _ _ _ => omega
  | maximum _ _ _ => omega
  | ended _ _ => exact hp

theorem IsBreak.min_le (h : s.IsBreak s.lo p q) (hlohi : s.lo ≤ s.hi) (hq : q < s.n) :
    p + s.lo ≤ q := by
  cases h with
  | primary lo _ _ _ _ => exact lo
  | secondary _ _ ge _ _ _ => exact ge
  | maximum _ _ _ => omega
  | ended _ _ => exact absurd hq (lt_irrefl _)

/-! ## Where the two rules differ -/

/-- The only secondary break points of a chunk are before its minimum size. -/
structure Early (s : Stream) (p : ℕ) : Prop where
  long : p + s.hi ≤ s.n
  primary : ∀ i, p + s.lo ≤ i → i ≤ p + s.hi → s.primary i = false
  secondary : ∀ i, p + s.lo ≤ i → i ≤ p + s.hi → s.secondary i = false
  early : ∃ i, p < i ∧ i < p + s.lo ∧ s.secondary i

/-- A chunk goes on behind a buffer of this size that starts where the chunk does. -/
structure Starved (s : Stream) (size p : ℕ) : Prop where
  small : size < s.hi
  long : p + size ≤ s.n
  primary : ∀ i, p + s.lo ≤ i → i ≤ p + size → s.primary i = false

theorem next_one_eq_iff (hlo : 0 < s.lo) (hlohi : s.lo < s.hi) :
    s.next 1 p = s.next s.lo p ↔ ¬s.Early p := by
  have hrule := s.isBreak_next s.lo p
  have hcode := s.isBreak_next 1 p
  constructor
  · rintro heq ⟨long, primary, secondary, i, hpi, hilo, hsec⟩
    -- the documented rule goes to the maximum, but the other one does not
    have hmax : s.next s.lo p = p + s.hi :=
      (s.isBreak_next s.lo p).unique (.maximum long primary secondary)
    rw [heq, hmax] at hcode
    rcases hlast : last s.secondary (p + 1) (p + s.hi) with _ | q
    · rw [last_eq_none.mp hlast i (by omega) (by omega)] at hsec
      cases hsec
    · obtain ⟨hge, hhi, hq, hafter⟩ := last_eq_some hlast
      have hqhi := hcode.unique (.secondary long primary hge hhi hq hafter)
      rw [← hqhi, secondary (p + s.hi) (by omega) le_rfl] at hq
      cases hq
  · intro hearly
    apply hcode.unique
    generalize s.next s.lo p = q at hrule
    cases hrule with
    | primary lo hi le here first => exact .primary lo hi le here first
    | secondary long none ge hi here last => exact .secondary long none (by omega) hi here last
    | maximum long none none' =>
      refine .maximum long none fun i hpi hhi ↦ ?_
      by_contra hsec
      rw [Bool.not_eq_false] at hsec
      apply hearly
      refine ⟨long, none, none', i, by omega, ?_, hsec⟩
      by_contra hge
      rw [none' i (not_lt.mp hge) hhi] at hsec
      cases hsec
    | ended short none => exact .ended short none

/-! ## Scanning for a break

A scan moves a position `w` forward and remembers the last secondary break point that it saw. The
next scan goes on from there, even if the chunk ended before. -/

/-- The stream was scanned up to `w` before the chunk that starts at `p`. -/
structure Ahead (s : Stream) (p w : ℕ) : Prop where
  le : p ≤ w
  lt : w < p + s.hi
  inside : w ≤ s.n
  primary : ∀ i, p + s.lo ≤ i → i ≤ w → s.primary i = false
  secondary : ∀ i, p < i → i ≤ w → s.secondary i = false

/-- A scan for the end of the chunk that starts at `p` has come to `w`; `l` is the last secondary
break point, or `p + hi` if there was none. -/
structure Scan (s : Stream) (p w l : ℕ) : Prop where
  le : p ≤ w
  hi : w ≤ p + s.hi
  inside : w ≤ s.n
  primary : ∀ i, p + s.lo ≤ i → i < w → s.primary i = false
  last : (l = p + s.hi ∧ ∀ i, p < i → i ≤ w → s.secondary i = false) ∨
    (p < l ∧ l ≤ w ∧ s.secondary l ∧ ∀ i, l < i → i ≤ w → s.secondary i = false)

variable {l b : ℕ}

theorem Ahead.refl (hlo : 0 < s.lo) (hlohi : s.lo < s.hi) (hp : p ≤ s.n) : s.Ahead p p where
  le := le_rfl
  lt := by omega
  inside := hp
  primary := fun i _ _ ↦ by omega
  secondary := fun i _ _ ↦ by omega

theorem Ahead.scan (h : s.Ahead p w) : s.Scan p w (p + s.hi) where
  le := h.le
  hi := h.lt.le
  inside := h.inside
  primary := fun i hlo hi ↦ h.primary i hlo hi.le
  last := Or.inl ⟨rfl, h.secondary⟩

/-- One step of a scan. -/
theorem Scan.step (h : s.Scan p w l) (hhi : w ≠ p + s.hi) (hn : w < s.n)
    (hbreak : ¬(p + s.lo ≤ w ∧ s.primary w)) :
    s.Scan p (w + 1) (if s.secondary (w + 1) then w + 1 else l) where
  le := h.le.trans (Nat.le_succ w)
  hi := lt_of_le_of_ne h.hi hhi
  inside := hn
  primary := by
    intro i hlo hi
    rcases Nat.lt_succ_iff_lt_or_eq.mp hi with hlt | rfl
    · exact h.primary i hlo hlt
    · exact Bool.eq_false_iff.mpr fun hp ↦ hbreak ⟨hlo, hp⟩
  last := by
    have hle := h.le
    split
    · next hsec => exact Or.inr ⟨by omega, le_rfl, hsec, fun i _ _ ↦ by omega⟩
    · next hsec =>
      have hhere : ∀ i, i ≤ w + 1 → ¬i ≤ w → s.secondary i = false := by
        intro i hi hw
        obtain rfl : i = w + 1 := by omega
        exact Bool.eq_false_iff.mpr hsec
      rcases h.last with ⟨rfl, hnone⟩ | ⟨hpl, hlw, hl, hafter⟩
      · refine Or.inl ⟨rfl, fun i hp hi ↦ ?_⟩
        by_cases hw : i ≤ w
        · exact hnone i hp hw
        · exact hhere i hi hw
      · refine Or.inr ⟨hpl, hlw.trans (Nat.le_succ w), hl, fun i hli hi ↦ ?_⟩
        by_cases hw : i ≤ w
        · exact hafter i hli hw
        · exact hhere i hi hw

/-- **Where a scan stops, the chunk ends.** A scan stops at a primary break point, at the maximum
size or at the end of the stream. -/
theorem Scan.isBreak (h : s.Scan p w l) (hlohi : s.lo < s.hi)
    (hstop : w = p + s.hi ∨ (p + s.lo ≤ w ∧ s.primary w) ∨ w = s.n) :
    s.IsBreak 1 p (if w = p + s.hi ∧ s.primary w = false ∧ l ≠ p + s.hi then l else w) := by
  by_cases hprim : p + s.lo ≤ w ∧ s.primary w
  · rw [if_neg fun hc ↦ by rw [hprim.2] at hc; cases hc.2.1]
    exact .primary hprim.1 h.hi h.inside hprim.2 h.primary
  · have hnone : ∀ i, p + s.lo ≤ i → i ≤ w → s.primary i = false := by
      intro i hlo hi
      rcases hi.lt_or_eq with hlt | rfl
      · exact h.primary i hlo hlt
      · exact Bool.eq_false_iff.mpr fun hp ↦ hprim ⟨hlo, hp⟩
    by_cases hmax : w = p + s.hi
    · subst hmax
      rcases h.last with ⟨rfl, hsec⟩ | ⟨hpl, hlw, hl, hafter⟩
      · rw [if_neg fun hc ↦ hc.2.2 rfl]
        exact .maximum h.inside hnone fun i hp hi ↦ hsec i (by omega) hi
      · by_cases hlast : l = p + s.hi
        · rw [if_neg fun hc ↦ hc.2.2 hlast]
          exact .secondary h.inside hnone (by omega) le_rfl (hlast ▸ hl) fun i _ _ ↦ by omega
        · rw [if_pos ⟨rfl, hnone _ (by omega) le_rfl, hlast⟩]
          exact .secondary h.inside hnone (by omega) hlw hl hafter
    · rw [if_neg fun hc ↦ hmax hc.1]
      obtain rfl : w = s.n := (hstop.resolve_left hmax).resolve_left hprim
      have hhi := h.hi
      exact .ended (by omega) hnone

theorem Scan.ahead (h : s.Scan p w l) (hlo : 0 < s.lo) (hlohi : s.lo < s.hi) :
    s.Ahead (if w = p + s.hi ∧ s.primary w = false ∧ l ≠ p + s.hi then l else w) w := by
  split
  · next hc =>
    obtain ⟨rfl, hprim, hl⟩ := hc
    obtain ⟨hpl, hlw, -, hafter⟩ := h.last.resolve_left fun hc ↦ hl hc.1
    refine ⟨hlw, by omega, h.inside, fun i hi hw ↦ ?_, hafter⟩
    rcases hw.lt_or_eq with hlt | rfl
    · exact h.primary i (by omega) hlt
    · exact hprim
  · exact Ahead.refl hlo hlohi h.inside

/-! ## All chunks -/

/-- The ends of the chunks from `p` on. -/
def breaksFrom (s : Stream) (a : ℕ) : ℕ → ℕ → List ℕ
  | 0, _ => []
  | k + 1, p => if s.n ≤ p then [] else s.next a p :: s.breaksFrom a k (s.next a p)

/-- The ends of all chunks. -/
def breaks (s : Stream) (a : ℕ) : List ℕ := s.breaksFrom a s.n 0

theorem breaksFrom_of_le {k : ℕ} (h : s.n ≤ p) : s.breaksFrom a k p = [] := by
  obtain _ | k := k
  · rfl
  · exact if_pos h

/-- Two rules give the same chunks if they agree at each start of a chunk. -/
theorem breaksFrom_eq_iff (hlo : 0 < s.lo) (hb : 0 < b) (hlohi : s.lo ≤ s.hi) {k p : ℕ}
    (hp : s.n ≤ p + k) :
    (s.breaksFrom a k p = s.breaksFrom b k p ↔
      ∀ q ∈ p :: s.breaksFrom b k p, q < s.n → s.next a q = s.next b q) := by
  induction k generalizing p with
  | zero =>
    simp only [breaksFrom, mem_singleton, true_iff]
    rintro q rfl hlt
    omega
  | succ k ih =>
    rw [breaksFrom, breaksFrom]
    split
    · next hend =>
      simp only [mem_singleton, true_iff]
      rintro q rfl hlt
      exact absurd hend (not_le.mpr hlt)
    · next hend =>
      have hgt := ((s.isBreak_next b p).bounds hlo hb hlohi (not_le.mp hend)).1
      have ih := ih (p := s.next b p) (by omega)
      rw [forall_mem_cons, ← ih, cons_eq_cons]
      constructor
      · rintro ⟨heq, hrest⟩
        rw [heq] at hrest
        exact ⟨fun _ ↦ heq, hrest⟩
      · rintro ⟨heq, hrest⟩
        have heq := heq (not_le.mp hend)
        rw [heq]
        exact ⟨rfl, hrest⟩

/-- **The two rules differ exactly at chunks whose secondary break points come too early.** -/
theorem breaks_eq_iff (hlo : 0 < s.lo) (hlohi : s.lo < s.hi) :
    s.breaks 1 = s.breaks s.lo ↔ ∀ p ∈ 0 :: s.breaks s.lo, ¬s.Early p := by
  rw [breaks, breaks, breaksFrom_eq_iff hlo hlo hlohi.le (by omega)]
  refine forall₂_congr fun p _ ↦ ?_
  rw [next_one_eq_iff hlo hlohi]
  constructor
  · intro h hearly
    exact h (by have := hearly.long; omega) hearly
  · exact fun h _ ↦ h

theorem isChain_breaksFrom {k p : ℕ} : (p :: s.breaksFrom a k p).IsChain (s.IsBreak a) := by
  induction k generalizing p with
  | zero => exact isChain_singleton p
  | succ k ih =>
    rw [breaksFrom]
    split
    · exact isChain_singleton p
    · exact isChain_cons_cons.mpr ⟨s.isBreak_next a p, ih⟩

theorem breaksFrom_eq_of_isChain {k p : ℕ}
    (h : (p :: s.breaksFrom a k p).IsChain (s.IsBreak b)) :
    s.breaksFrom a k p = s.breaksFrom b k p := by
  induction k generalizing p with
  | zero => exact rfl
  | succ k ih =>
    rw [breaksFrom, breaksFrom] at *
    split at h
    · next hend => rw [if_pos hend, if_pos hend]
    · next hend =>
      obtain ⟨hbreak, hrest⟩ := isChain_cons_cons.mp h
      rw [if_neg hend, if_neg hend, ih hrest, isBreak_iff.mp hbreak]

end Stream

end Vanadium.Breakpoints
