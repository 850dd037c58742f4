import Mathlib

/-!
# The system clock and the virtual clock

A reading of the system clock is its time and the time elapsed since boot. Users can change the
first and not the second, so that `hasSysClockChanged` compares the changes of both between two
readings.

The virtual clock is the system clock with a skew, which is kept in the store.
-/

namespace Vanadium.VClock

/-! ## Times -/

/-- A `time.Duration`: nanoseconds in 64 bits. -/
abbrev Duration := Int64

/-- A `time.Time`: nanoseconds since the zero time. -/
abbrev Time := ℤ

def second : Duration := 1000000000

namespace Time

def isZero (t : Time) : Bool := t == 0

def before (t u : Time) : Bool := decide (t < u)

def add (t : Time) (d : Duration) : Time := t + d.toInt

/-- The time from `u` to `t`, or the largest or smallest duration if it is not one. -/
def sub (t u : Time) : Duration :=
  if Int64.minValue.toInt ≤ t - u ∧ t - u ≤ Int64.maxValue.toInt then Int64.ofInt (t - u)
  else if t < u then Int64.minValue
  else Int64.maxValue

end Time

def abs (d : Duration) : Duration := if d < 0 then -d else d

/-! ## Readings of the system clock -/

inductive Err where
  /-- the elapsed time could not be read -/
  | elapsedTime
  /-- a step of the connection to an NTP server -/
  | network
  /-- a call to a peer -/
  | rpc
  | noExist
  | store
  | noUpdate (msg : String)
  | getTimeFailed (err : Err)
deriving DecidableEq

/-- What `Now` and `ElapsedTime` give when they are called one after the other. -/
structure Reading where
  now : Time
  elapsedTime : Option Duration
deriving DecidableEq

def errorThreshold : Duration := 2 * second

def hasSysClockChanged (t₁ t₂ : Time) (e₁ e₂ : Duration) : Bool :=
  if Time.before t₂ t₁ then true else abs (e₂ - e₁ - Time.sub t₂ t₁) > errorThreshold

/-- `SysClockVals` -/
def sysClockVals (clock : Reading) : Except Err (Time × Duration) :=
  match clock.elapsedTime with
  | none => .error .elapsedTime
  | some elapsedTime => .ok (clock.now, elapsedTime)

/-- `SysClockValsIfNotChanged`. After a change it returns an error variable that is nil. -/
def sysClockValsIfNotChanged (origNow : Time) (origElapsedTime : Duration) (clock : Reading) :
    Time × Duration × Option Err :=
  match clock.elapsedTime with
  | none => (0, 0, some .elapsedTime)
  | some elapsedTime =>
    if hasSysClockChanged origNow clock.now origElapsedTime elapsedTime then (0, 0, none)
    else (clock.now, elapsedTime, none)

/-- The system clock has changed between two readings. -/
def Reading.changed (r r' : Reading) : Bool :=
  match r.elapsedTime, r'.elapsedTime with
  | some e, some e' => hasSysClockChanged r.now r'.now e e'
  | _, _ => false

/-- The time that `SysClockValsIfNotChanged` returns for the second reading. -/
def Reading.nowSince (r' r : Reading) : Time := if r.changed r' then 0 else r'.now

variable {clock : Reading} {e : Duration}

theorem sysClockVals_eq (h : clock.elapsedTime = some e) :
    sysClockVals clock = .ok (clock.now, e) := by
  rw [sysClockVals, h]

theorem sysClockVals_eq_error (h : clock.elapsedTime = none) :
    sysClockVals clock = .error .elapsedTime := by
  rw [sysClockVals, h]

theorem sysClockValsIfNotChanged_eq_error {now : Time}
    (h : clock.elapsedTime = none) :
    sysClockValsIfNotChanged now e clock = (0, 0, some .elapsedTime) := by
  rw [sysClockValsIfNotChanged, h]

/-- There is no error if the reading has none, whatever the clock has done. -/
theorem sysClockValsIfNotChanged_eq {r : Reading} {e' : Duration} (h : r.elapsedTime = some e)
    (h' : clock.elapsedTime = some e') :
    ∃ d, sysClockValsIfNotChanged r.now e clock = (clock.nowSince r, d, none) := by
  unfold sysClockValsIfNotChanged Reading.nowSince Reading.changed
  rw [h, h']
  dsimp only
  split
  · exact ⟨0, rfl⟩
  · exact ⟨e', rfl⟩

/-! ## The virtual clock -/

structure VClockData where
  systemTimeAtBoot : Time
  skew : Duration
  elapsedTimeSinceBoot : Duration
  lastNtpTs : Time
  numReboots : UInt16
  numHops : UInt16
deriving DecidableEq

def applySkew (sysTime : Time) (data : VClockData) : Time := Time.add sysTime data.skew

/-- Operations of the store that fail. -/
structure StoreFaults where
  get : Bool
  put : Bool
  commit : Bool

def getVClockData (faults : StoreFaults) (stored : Option VClockData) : Except Err VClockData :=
  if faults.get then .error .store
  else
    match stored with
    | none => .error .noExist
    | some data => .ok data

/-- `UpdateVClockData`, with what is stored afterwards. -/
def updateVClockData (faults : StoreFaults) (stored : Option VClockData)
    (fn : VClockData → Except Err VClockData) : Except Err Unit × Option VClockData :=
  match getVClockData faults stored with
  | .error err => (.error err, stored)
  | .ok data =>
    match fn data with
    | .error err => (.error err, stored)
    | .ok newVClockData =>
      if faults.put || faults.commit then (.error .store, stored) else (.ok (), some newVClockData)

end Vanadium.VClock
