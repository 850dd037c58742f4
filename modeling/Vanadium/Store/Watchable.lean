import Vanadium.Foundations.OrderedMap
import Vanadium.Foundations.Transition
import Vanadium.Store.Keys

/-!
# The watchable store

A store that wraps another one. Keys under a managed prefix are versioned: a version entry holds the
current version of the key, and the value is stored at the key and that version. A transaction
remembers the operations on managed keys, and when it commits they are written to the watch log,
one entry each, under consecutive sequence numbers.

The wrapped store is an ordered map. Its transactions are taken as they are specified: a
transaction reads a snapshot under its own writes, and a commit either applies all writes or none.
The writes of a transaction are a list here, applied in order; the order of distinct keys in the
batch that the wrapped store writes makes no difference to the map.
-/

namespace Vanadium.Watchable

open Foundations Vanadium.Store List

/-- What a reader of the wrapped store sees: the store itself, a snapshot or a transaction. -/
abbrev View : Type := Table Bytes Bytes

/-- Why an operation fails. `fatal` ends the process. -/
inductive StoreErr where
  | unknownKey (key : Bytes)
  | committedTxn
  | abortedTxn
  | concurrentTransaction
  | internal (msg : String)
  | fatal (msg : String)
  | other
  deriving DecidableEq

/-- `Get` of the wrapped store. -/
def View.get (view : View) (key : Bytes) : Except StoreErr Bytes :=
  match AList.lookup key view with
  | some value => .ok value
  | none => .error (.unknownKey key)

/-- All that `Scan` of the wrapped store yields. -/
def View.scan (view : View) (start limit : Bytes) : List (Bytes × Bytes) :=
  Table.scan (InRange start limit) view

/-! ## Managed keys -/

structure Options where
  managedPrefixes : List Bytes

namespace Options

def managesKey (opts : Options) (key : Bytes) : Bool :=
  opts.managedPrefixes.any fun p ↦ p <+: key

/-- `limitForCompare`: no limit is compared as `"\xff"`. -/
def limitForCompare (limit : Bytes) : Bytes := if limit = [] then [255] else limit

variable [PrefixRange]

/-- The loop of `managesRange` over the prefixes; `none` is the panic on a partial overlap. -/
def managesRangeLoop (start limit : Bytes) : List Bytes → Option Bool
  | [] => some false
  | p :: ps =>
    let ilimit := limitForCompare limit
    let plimit := limitForCompare (prefixRangeLimit p)
    if p ≤ start ∧ ilimit ≤ plimit then some true
    else if ¬(plimit ≤ start ∨ ilimit ≤ p) then none
    else managesRangeLoop start limit ps

def managesRange (opts : Options) (start limit : Bytes) : Option Bool :=
  managesRangeLoop start limit opts.managedPrefixes

end Options

variable {opts : Options}

theorem Options.managesKey_iff {key : Bytes} :
    opts.managesKey key = true ↔ ∃ p ∈ opts.managedPrefixes, p <+: key := by
  simp [Options.managesKey]

/-! ## Versioned entries -/

def makeVersionKey (key : Bytes) : Bytes := joinKeyParts [versionPrefix, key]

def makeAtVersionKey (key version : Bytes) : Bytes := joinKeyParts [key, version]

def getVersion (view : View) (key : Bytes) : Except StoreErr Bytes := view.get (makeVersionKey key)

def getAtVersion (view : View) (key version : Bytes) : Except StoreErr Bytes :=
  view.get (makeAtVersionKey key version)

def getVersioned (view : View) (key : Bytes) : Except StoreErr Bytes :=
  match getVersion view key with
  | .error e => .error e
  | .ok version => getAtVersion view key version

/-- `Get` of the store, of a snapshot and of a transaction that is still open: the three differ in
the view they read. -/
def getKey (opts : Options) (view : View) (key : Bytes) : Except StoreErr Bytes :=
  if opts.managesKey key then getVersioned view key else view.get key

/-! ### Streams -/

/-- `stream`: `iit` is what the stream of the wrapped store has still to yield. -/
structure Stream where
  iit : List (Bytes × Bytes)
  err : Option StoreErr

def newStreamVersioned (view : View) (start limit : Bytes) : Stream where
  iit := view.scan (makeVersionKey start) (makeVersionKey limit)
  err := none

/-- `Advance`, with the pair that is staged. The value is read when the stream advances, so that a
transaction may have written since the stream was made. -/
def Stream.advance (view : View) (s : Stream) : Stream × Option (Bytes × Bytes) :=
  match s.err, s.iit with
  | some _, _ => (s, none)
  | none, [] => (s, none)
  | none, (versionKey, version) :: rest =>
    match stripFirstKeyPartOrDie versionKey with
    | none => (⟨rest, some (.fatal "StripFirstKeyPartOrDie: invalid key")⟩, none)
    | some key =>
      match view.get (makeAtVersionKey key version) with
      | .error e => (⟨rest, some e⟩, none)
      | .ok value => (⟨rest, none⟩, some (key, value))

/-! ## Transactions -/

/-- The operations that are logged. `other` stands for the operations that `AddOp` is given. -/
inductive Op where
  | get (key : Bytes)
  | scan (start limit : Bytes)
  | put (key version : Bytes)
  | delete (key : Bytes)
  | other (payload : Bytes)
  deriving DecidableEq

/-- `Transaction`: `view` is what the wrapped transaction reads, `writes` what it has written. -/
structure Transaction where
  view : View
  writes : List (Bytes × Option Bytes)
  ops : List Op
  fromSync : Bool
  err : Option StoreErr

def newTransaction (ist : View) : Transaction := ⟨ist, [], [], false, none⟩

/-- `Put` or `Delete` of the wrapped transaction. -/
def Transaction.itxWrite (tx : Transaction) (w : Bytes × Option Bytes) : Transaction :=
  { tx with view := tx.view.write w, writes := tx.writes ++ [w] }

def Transaction.log (tx : Transaction) (op : Op) : Transaction := { tx with ops := tx.ops ++ [op] }

/-- What a client asks of a transaction. The version of a put is the one `NewVersion` draws. -/
inductive Request where
  | get (key : Bytes)
  | scan (start limit : Bytes)
  | put (key value version : Bytes)
  | delete (key : Bytes)
  | addOp (op : Op)
  | setFromSync
  deriving DecidableEq

/-- Carry out a request; a transaction that has ended refuses it and stays as it is. `none` is the
panic of `managesRange`. -/
def Transaction.perform [PrefixRange] (opts : Options) (tx : Transaction) (r : Request) :
    Option Transaction :=
  match r with
  | .setFromSync => some { tx with fromSync := true }
  | .get key =>
    if tx.err.isSome then some tx
    else if opts.managesKey key then some (tx.log (.get key)) else some tx
  | .scan start limit =>
    if tx.err.isSome then some tx
    else
      match opts.managesRange start limit with
      | none => none
      | some false => some tx
      | some true => some (tx.log (.scan start limit))
  | .put key value version =>
    if tx.err.isSome then some tx
    else if opts.managesKey key then
      some (((tx.itxWrite (makeVersionKey key, some version)).itxWrite
        (makeAtVersionKey key version, some value)).log (.put key version))
    else some (tx.itxWrite (key, some value))
  | .delete key =>
    if tx.err.isSome then some tx
    else if opts.managesKey key then
      some ((tx.itxWrite (makeVersionKey key, none)).log (.delete key))
    else some (tx.itxWrite (key, none))
  | .addOp op => if tx.err.isSome then some tx else some (tx.log op)

/-- Carry out the requests one after the other. -/
def Transaction.performAll [PrefixRange] (opts : Options) (tx : Transaction) (rs : List Request) :
    Option Transaction :=
  Transition.run (Transaction.perform opts) tx rs

/-- What a request writes to the wrapped transaction. -/
def Request.writes (opts : Options) : Request → List (Bytes × Option Bytes)
  | .put key value version =>
    if opts.managesKey key then
      [(makeVersionKey key, some version), (makeAtVersionKey key version, some value)]
    else [(key, some value)]
  | .delete key => if opts.managesKey key then [(makeVersionKey key, none)] else [(key, none)]
  | _ => []

variable {r : Request}

/-- **What a request does to an open transaction**: it stays open, and the writes of the request
are added to what it has written and to what it reads. -/
theorem Transaction.perform_spec [PrefixRange] {tx tx' : Transaction}
    (herr : tx.err = none) (h : tx.perform opts r = some tx') :
    tx'.err = none ∧ tx'.view = tx.view.writeAll (r.writes opts) ∧
      tx'.writes = tx.writes ++ r.writes opts := by
  have hopen : ¬(tx.err.isSome = true) := by rw [herr]; exact Bool.false_ne_true
  rcases r with key | ⟨start, limit⟩ | ⟨key, value, version⟩ | key | op | _
  · simp only [perform, if_neg hopen] at h
    split at h <;> cases h <;> exact ⟨herr, rfl, (append_nil _).symm⟩
  · simp only [perform, if_neg hopen] at h
    split at h <;> cases h <;> exact ⟨herr, rfl, (append_nil _).symm⟩
  · simp only [perform, if_neg hopen] at h
    split at h
    · next hk =>
      cases h
      simp only [Request.writes, if_pos hk]
      exact ⟨herr, rfl, append_assoc _ _ _⟩
    · next hk =>
      cases h
      simp only [Request.writes, if_neg hk]
      exact ⟨herr, rfl, rfl⟩
  · simp only [perform, if_neg hopen] at h
    split at h
    · next hk =>
      cases h
      simp only [Request.writes, if_pos hk]
      exact ⟨herr, rfl, rfl⟩
    · next hk =>
      cases h
      simp only [Request.writes, if_neg hk]
      exact ⟨herr, rfl, rfl⟩
  · simp only [perform, if_neg hopen] at h
    cases h
    exact ⟨herr, rfl, (append_nil _).symm⟩
  · cases h
    exact ⟨herr, rfl, (append_nil _).symm⟩

theorem Transaction.mem_writes_of_perform [PrefixRange] {tx tx' : Transaction}
    (h : tx.perform opts r = some tx') {w : Bytes × Option Bytes} (hw : w ∈ tx'.writes) :
    w ∈ tx.writes ∨ w ∈ r.writes opts := by
  rcases herr : tx.err with _ | e
  · rw [(perform_spec herr h).2.2] at hw
    exact mem_append.mp hw
  · -- a transaction that has ended only remembers where it came from
    have hended : tx.err.isSome = true := by rw [herr]; rfl
    have hsame : tx'.writes = tx.writes := by
      rcases r with key | ⟨start, limit⟩ | ⟨key, value, version⟩ | key | op | _ <;>
        simp only [perform, if_pos hended] at h <;> cases h <;> rfl
    rw [hsame] at hw
    exact Or.inl hw

theorem Transaction.performAll_spec [PrefixRange] {rs : List Request} :
    ∀ {tx tx' : Transaction}, tx.err = none → tx.performAll opts rs = some tx' →
      tx'.err = none ∧ tx'.view = tx.view.writeAll (rs.flatMap (Request.writes opts)) ∧
        tx'.writes = tx.writes ++ rs.flatMap (Request.writes opts) := by
  induction rs with
  | nil =>
    intro tx tx' herr h
    cases h
    exact ⟨herr, rfl, (append_nil _).symm⟩
  | cons r rs ih =>
    intro tx tx'' herr h
    obtain ⟨tx', hr, hrs⟩ := Transition.run_cons_eq_some_iff.mp h
    obtain ⟨herr', hview', hwrites'⟩ := perform_spec herr hr
    obtain ⟨herr'', hview'', hwrites''⟩ := ih herr' hrs
    refine ⟨herr'', ?_, ?_⟩
    · rw [hview'', hview', flatMap_cons, Table.writeAll_append]
    · rw [hwrites'', hwrites', flatMap_cons, append_assoc]

/-! ## The watch log -/

structure LogEntry where
  op : Op
  commitTimestamp : ℤ
  fromSync : Bool
  continued : Bool
  deriving DecidableEq

/-- The encoding of log entries. It is not part of this repository; all that is used of it is that
an encoded entry can be decoded. -/
structure Codec where
  encode : LogEntry → Bytes
  decode : Bytes → Except StoreErr LogEntry
  decode_encode : ∀ e, decode (encode e) = .ok e

/-! ### An encoding of log entries -/

/-- A byte string behind its length in unary. -/
def putBytes (b : Bytes) : Bytes := List.replicate b.length 1 ++ 0 :: b

/-- The byte string at the front and what follows it. -/
def takeBytes (s : Bytes) : Bytes × Bytes :=
  let n := (s.takeWhile (· = 1)).length
  ((s.drop (n + 1)).take n, (s.drop (n + 1)).drop n)

theorem takeBytes_putBytes (b rest : Bytes) : takeBytes (putBytes b ++ rest) = (b, rest) := by
  have hlen : ((putBytes b ++ rest).takeWhile (· = 1)).length = b.length := by
    rw [putBytes, append_assoc, takeWhile_append_of_pos]
    · simp
    · intro c hc
      simpa using eq_of_mem_replicate hc
  have hdrop : (putBytes b ++ rest).drop (b.length + 1) = b ++ rest := by
    rw [putBytes, append_assoc, drop_append, length_replicate]
    simp
  rw [takeBytes, hlen, hdrop, take_left, drop_left]

/-- The number of the operation and its two arguments. -/
def Op.code : Op → Fin 256 × Bytes × Bytes
  | .get key => (0, key, [])
  | .scan start limit => (1, start, limit)
  | .put key version => (2, key, version)
  | .delete key => (3, key, [])
  | .other payload => (4, payload, [])

def Op.ofCode (tag : Fin 256) (a b : Bytes) : Op :=
  if tag = 0 then .get a
  else if tag = 1 then .scan a b
  else if tag = 2 then .put a b
  else if tag = 3 then .delete a
  else .other a

theorem Op.ofCode_code (op : Op) : Op.ofCode op.code.1 op.code.2.1 op.code.2.2 = op := by
  rcases op with _ | _ | _ | _ | _ <;> rfl

/-- The sign of a time and its distance from zero. -/
def signed : ℤ → Fin 256 × ℕ
  | .ofNat n => (0, n)
  | .negSucc n => (1, n)

def ofSigned (sign : Fin 256) (n : ℕ) : ℤ := if sign = 0 then .ofNat n else .negSucc n

theorem ofSigned_signed (z : ℤ) : ofSigned (signed z).1 (signed z).2 = z := by
  rcases z with n | n <;> rfl

def byteOfBool (b : Bool) : Fin 256 := if b then 1 else 0

/-- An entry as its fields one after the other. -/
def fieldCodec : Codec where
  encode e :=
    e.op.code.1 :: (signed e.commitTimestamp).1 :: byteOfBool e.fromSync ::
      byteOfBool e.continued :: (putBytes e.op.code.2.1 ++ (putBytes e.op.code.2.2 ++
        (List.replicate (signed e.commitTimestamp).2 0)))
  decode
    | tag :: sign :: fromSync :: continued :: rest =>
      let (a, rest) := takeBytes rest
      let (b, rest) := takeBytes rest
      .ok ⟨Op.ofCode tag a b, ofSigned sign rest.length, fromSync = 1, continued = 1⟩
    | _ => .error .other
  decode_encode e := by
    obtain ⟨op, z, fromSync, continued⟩ := e
    have hbool : ∀ b : Bool, decide (byteOfBool b = 1) = b := by decide
    simp only [takeBytes_putBytes, List.length_replicate, Op.ofCode_code, ofSigned_signed, hbool]

/-- The store: the wrapped store and the next sequence number. -/
structure Store where
  ist : View
  seq : ℕ

def maxUint64 : ℕ := 2 ^ 64 - 1

/-- What a commit logs: the operations, the time and whether they came from sync. -/
structure Committed where
  ops : List Op
  now : ℤ
  fromSync : Bool
  deriving DecidableEq

/-- The entries that are logged for a commit. -/
def Committed.entries (c : Committed) : List LogEntry :=
  c.ops.mapIdx fun i op ↦ ⟨op, c.now, c.fromSync, decide (i < c.ops.length - 1)⟩

/-- What the transaction logs if it commits at the given time. -/
def Transaction.committed (tx : Transaction) (now : ℤ) : Committed := ⟨tx.ops, now, tx.fromSync⟩

/-- The writes that put the entries into the log. -/
def logWrites (codec : Codec) (seq : ℕ) (entries : List LogEntry) : List (Bytes × Option Bytes) :=
  entries.mapIdx fun i e ↦ (logEntryKey (seq + i), some (codec.encode e))

/-- `Commit`. The results of the clock and of the wrapped transaction's commit are given. -/
def Transaction.commit (codec : Codec) (st : Store) (tx : Transaction) (now : Except StoreErr ℤ)
    (verdict : Except StoreErr Unit) : Store × Transaction × Except StoreErr Unit :=
  match tx.err with
  | some e => (st, tx, .error e)
  | none =>
    let done : Transaction := { tx with err := some .committedTxn }
    match now with
    | .error e => (st, done, .error e)
    | .ok t =>
      if maxUint64 - st.seq < tx.ops.length then (st, done, .error (.internal "seq maxed out"))
      else
        match verdict with
        | .error e => (st, done, .error e)
        | .ok () =>
          let writes := tx.writes ++ logWrites codec st.seq (tx.committed t).entries
          (⟨st.ist.writeAll writes, st.seq + tx.ops.length⟩, done, .ok ())

def Transaction.abort (tx : Transaction) : Transaction :=
  match tx.err with
  | some _ => tx
  | none => { tx with err := some .abortedTxn }

/-- **All that a commit can do.** Either it fails and the store stays as it was, or all writes and
all log entries are applied at once. -/
theorem Transaction.commit_cases (codec : Codec) (st : Store) (tx : Transaction)
    (now : Except StoreErr ℤ) (verdict : Except StoreErr Unit) :
    (∃ tx' e, tx.commit codec st now verdict = (st, tx', .error e) ∧ tx'.writes = tx.writes) ∨
      ∃ t, tx.err = none ∧ now = .ok t ∧ tx.ops.length ≤ maxUint64 - st.seq ∧
        tx.commit codec st now verdict =
          (⟨st.ist.writeAll (tx.writes ++ logWrites codec st.seq (tx.committed t).entries),
            st.seq + tx.ops.length⟩, { tx with err := some .committedTxn }, .ok ()) := by
  unfold Transaction.commit
  rcases herr : tx.err with _ | e
  · rcases now with e | t
    · exact Or.inl ⟨_, e, rfl, rfl⟩
    · dsimp only
      split
      · exact Or.inl ⟨_, _, rfl, rfl⟩
      · next hfull =>
        rcases verdict with e | ⟨⟩
        · exact Or.inl ⟨_, e, rfl, rfl⟩
        · exact Or.inr ⟨t, rfl, rfl, not_lt.mp hfull, rfl⟩
  · exact Or.inl ⟨tx, e, rfl, rfl⟩

end Vanadium.Watchable
