import Mathlib

/-!
# Flushing the namespace cache

`FlushCacheEntry` follows the cached mount entries of a name as a resolution would, from every root
and through every server, to forget the last entry of each way. Nothing bounds the length of a way,
and `flushed || ...` follows no other way once an entry is forgotten: the first way decides what the
call does.
-/

namespace Vanadium.NameCache

open Relation

abbrev Str : Type := List Char

structure MountedServer where
  server : Str
  deadline : ℤ

structure MountEntry where
  name : Str
  servers : List MountedServer
  servesMountTable : Bool

/-- The `entries` of a `ttlCache`. -/
abbrev Cache : Type := Str → Option MountEntry

/-- A namespace during a call, with what is used of package `naming`; `rooted` tells whether
`SplitAddressName` finds an address. -/
structure Namespace where
  clean : Str → Str
  join : Str → Str → Str
  trimSuffix : Str → Str → Str
  rooted : Str → Bool
  roots : List Str
  now : ℤ

namespace Namespace

variable (ns : Namespace) (c : Cache)

def isStale (e : MountEntry) : Bool := e.servers.any (·.deadline < ns.now)

/-- The last element of the prefix moves to the suffix. -/
def backup (pre suffix : Str) : Str × Str :=
  match pre.reverse.dropWhile (· != '/') with
  | _ :: x :: rest =>
    ((x :: rest).reverse, ns.join (pre.reverse.takeWhile (· != '/')).reverse suffix)
  | _ => ([], ns.join pre suffix)

/-- The loop of `lookup`. The prefix gets shorter in each round. -/
def search : ℕ → Str → Str → Option (Str × MountEntry)
  | 0, _, _ => none
  | k + 1, pre, suffix =>
    if pre = [] then none
    else
      match c pre with
      | some e => some (pre, { e with name := suffix })
      | none => search k (ns.backup pre suffix).1 (ns.backup pre suffix).2

/-- `lookup`, with the key of the entry. -/
def lookup (name : Str) : Option (Str × MountEntry) :=
  (ns.search c (ns.clean name).length (ns.clean name) []).filter (!ns.isStale ·.2)

def forget (names : List Str) : Cache := fun key ↦
  if names.any fun n ↦ (ns.clean n).isPrefixOf key then none else c key

def rootName (name : Str) : List Str :=
  if ns.rooted (ns.clean name) then [ns.clean name] else ns.roots.map (ns.join · (ns.clean name))

/-- `FlushCacheEntry`: `flushed` and the cache. -/
def flushCacheEntry : ℕ → Cache → Str → Option (Bool × Cache)
  | 0, _, _ => none
  | k + 1, c, name =>
    (ns.rootName name).foldlM (fun (r : Bool × Cache) n ↦
      match ns.lookup r.2 n with
      | none => some r
      | some (_, e) => do
        let r ← e.servers.foldlM (fun (r : Bool × Cache) s ↦
          if r.1 then some r else flushCacheEntry k r.2 (ns.join s.server e.name)) r
        return if r.1 then r else (true, ns.forget r.2 [ns.trimSuffix n e.name])) (false, c)

/-- A cached entry of the name leads to another name. -/
def Leads (name m : Str) : Prop :=
  ∃ n ∈ ns.rootName name, ∃ key e, ns.lookup c n = some (key, e) ∧
    ∃ s ∈ e.servers, m = ns.join s.server e.name

/-- A resolution of the name could end at the entry with the key. -/
def Ends (name key : Str) : Prop :=
  ∃ m, ReflTransGen (ns.Leads c) name m ∧ ∃ n ∈ ns.rootName m, ∃ e, ns.lookup c n = some (key, e) ∧
    ∀ s ∈ e.servers, ∀ n ∈ ns.rootName (ns.join s.server e.name), ns.lookup c n = none

/-- The cached entries reachable from the name form a finite tree. -/
def Finite (name : Str) : Prop := Acc (fun m name ↦ ns.Leads c name m) name

/-- The first call that forgets a name or does not end. -/
def firstOf {α : Type} (g : α → Option (Option Str)) : List α → Option (Option Str)
  | [] => some none
  | x :: l =>
    match g x with
    | some none => firstOf g l
    | p => p

/-- The first way from the name, through the first root and the first server behind which there is a
cached entry, and the name that is forgotten at its end. -/
def firstWay : ℕ → Str → Option (Option Str)
  | 0, _ => none
  | k + 1, name =>
    firstOf (fun n ↦
      match ns.lookup c n with
      | none => some none
      | some (_, e) =>
        (firstOf (fun s ↦ firstWay k (ns.join s.server e.name)) e.servers).map fun p ↦
          some (p.getD (ns.trimSuffix n e.name))) (ns.rootName name)

/-- `flushed` and the cache at the end. -/
def flushed (p : Option Str) : Bool × Cache := (p.isSome, ns.forget c p.toList)

variable {ns c} {k : ℕ} {name key : Str}

section Loop

variable {α : Type} {f : Bool × Cache → α → Option (Bool × Cache)}
  (hset : ∀ c x, f (true, c) x = some (true, c))
include hset

theorem foldlM_of_set (c : Cache) (l : List α) : l.foldlM f (true, c) = some (true, c) := by
  induction l with
  | nil => rfl
  | cons x l ih =>
    rw [List.foldlM_cons, hset]
    exact ih

/-- A loop that does nothing once `flushed` is set stops where it is set first. -/
theorem foldlM_eq_firstOf {g : α → Option (Option Str)}
    (hfirst : ∀ x, f (false, c) x = (g x).map (ns.flushed c)) (l : List α) :
    l.foldlM f (false, c) = (firstOf g l).map (ns.flushed c) := by
  induction l with
  | nil => rfl
  | cons x l ih =>
    rw [List.foldlM_cons, hfirst, firstOf]
    rcases g x with _ | _ | q
    · rfl
    · exact ih
    · exact foldlM_of_set hset _ l

end Loop

/-- **Only the first way is followed.** -/
theorem flushCacheEntry_eq (k : ℕ) (name : Str) :
    ns.flushCacheEntry k c name = (ns.firstWay c k name).map (ns.flushed c) := by
  induction k generalizing name with
  | zero => rfl
  | succ k ih =>
    refine foldlM_eq_firstOf (fun c n ↦ ?_) (fun n ↦ ?_) _
    · rcases ns.lookup c n with _ | ⟨key, e⟩
      · rfl
      · dsimp only
        rw [foldlM_of_set fun _ _ ↦ rfl]
        rfl
    · rcases ns.lookup c n with _ | ⟨key, e⟩
      · rfl
      · dsimp only
        rw [foldlM_eq_firstOf (fun _ _ ↦ rfl) fun s ↦ ih _]
        generalize firstOf _ e.servers = p
        obtain _ | _ | _ := p <;> rfl

theorem ne_none_of_search {pre suffix : Str} {e : MountEntry}
    (h : ns.search c k pre suffix = some (key, e)) : c key ≠ none := by
  induction k generalizing pre suffix with
  | zero => cases h
  | succ k ih =>
    rw [search] at h
    split at h
    · cases h
    split at h
    · cases h
      simp_all
    · exact ih h

/-- Names without redundant slashes. -/
def plain : Namespace where
  clean n := n
  join a b := if b = [] then a else a ++ '/' :: b
  trimSuffix n s := if ('/' :: s).isSuffixOf n then n.take (n.length - s.length - 1) else n
  rooted n := n.head? = some '/'
  roots := []
  now := 0

/-- A name whose entry leads back to it. -/
def self : Str := ['/', 'a']

def selfCache : Cache := fun key ↦ if key = self then some ⟨[], [⟨self, 1⟩], true⟩ else none

end Namespace

end Vanadium.NameCache
