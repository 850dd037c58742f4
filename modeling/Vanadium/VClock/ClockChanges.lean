import Vanadium.VClock.Exchange

/-!
# Changes of the system clock during an exchange

The times of an exchange are not comparable if the system clock was changed in between. The code
checks for that with `SysClockValsIfNotChanged`, which is documented to return an error then. It
returns the error of the reading instead, which is nil, and the zero time. So an exchange ends
without a sample or an update in those cases only in which it does so without the check, and
otherwise the skew is computed from the zero time.
-/

namespace Vanadium.VClock

/-- An exchange of a device with an NTP server, with a peer that asks for its time, or with a peer
that it asks. -/
inductive Exchange where
  | sample (r : NtpRound)
  | getTime (c : TimeCall)
  | syncVClock (p : PeerSync)

inductive Outcome where
  | sampled (data : NtpData)
  | replied (resp : TimeResp)
  | updated

namespace Exchange

/-- How an exchange ends, and what is stored afterwards. -/
def exec (stored : Option VClockData) : Exchange → Except Err Outcome × Option VClockData
  | sample r => ((VClock.sample r).map .sampled, stored)
  | getTime c => ((VClock.getTime c stored).map .replied, stored)
  | syncVClock p =>
    ((VClock.syncVClock p stored).1.map fun _ ↦ .updated, (VClock.syncVClock p stored).2)

/-- The exchange ends with an error, and what is stored is unchanged. -/
def NoUpdate (stored : Option VClockData) (e : Exchange) : Prop :=
  (∃ err, (e.exec stored).1 = .error err) ∧ (e.exec stored).2 = stored

/-- The system clock has changed between the first reading and a later one. -/
def clockChanged : Exchange → Bool
  | sample r => r.orig.changed r.recv
  | getTime c => c.recv.changed c.send
  | syncVClock p => p.orig.changed p.recv || p.orig.changed p.update || p.orig.changed p.last

end Exchange

/-! ## What hinders an exchange -/

/-- The network fails, or a reading does. -/
def NtpRound.Hindered (r : NtpRound) : Prop :=
  r.resolves = false ∨ r.dials = false ∨ r.orig.elapsedTime = none ∨ r.writes = false ∨
    r.reply = none ∨ r.recv.elapsedTime = none

/-- A reading fails, or there is no data in the store. -/
def TimeCall.Hindered (stored : Option VClockData) (c : TimeCall) : Prop :=
  c.recv.elapsedTime = none ∨ c.faults.get = true ∨ stored = none ∨ c.send.elapsedTime = none

/-- The peer or a reading fails, the store does, or the peer's time is not taken over. -/
def PeerSync.Hindered (stored : Option VClockData) (p : PeerSync) : Prop :=
  p.orig.elapsedTime = none ∨ (∃ err, p.reply = .error err) ∨ p.recv.elapsedTime = none ∨
    p.faults.get = true ∨ stored = none ∨
    (∃ data timeResp, stored = some data ∧ p.reply = .ok timeResp ∧
      noUpdate data (peerSyncData data p.orig.now timeResp (p.recv.nowSince p.orig)) ≠ none) ∨
    p.update.elapsedTime = none ∨ p.last.elapsedTime = none ∨ p.faults.put = true ∨
    p.faults.commit = true

def Exchange.Hindered (stored : Option VClockData) : Exchange → Prop
  | sample r => r.Hindered
  | getTime c => c.Hindered stored
  | syncVClock p => p.Hindered stored

theorem error_sample_iff {r : NtpRound} : (∃ err, sample r = .error err) ↔ r.Hindered := by
  unfold sample NtpRound.Hindered
  rcases r.resolves with _ | _
  · simp
  rcases r.dials with _ | _
  · simp
  rcases horig : r.orig.elapsedTime with _ | e
  · simp [sysClockVals_eq_error horig]
  rw [sysClockVals_eq horig]
  rcases r.writes with _ | _
  · simp
  rcases r.reply with _ | reply
  · simp
  rcases hrecv : r.recv.elapsedTime with _ | e'
  · simp [sysClockValsIfNotChanged_eq_error hrecv]
  obtain ⟨d, hd⟩ := sysClockValsIfNotChanged_eq horig hrecv
  simp [hd]

variable {stored : Option VClockData} {p : PeerSync}

theorem error_getTime_iff {c : TimeCall} :
    (∃ err, getTime c stored = .error err) ↔ c.Hindered stored := by
  unfold getTime getVClockData TimeCall.Hindered
  rcases hrecv : c.recv.elapsedTime with _ | e
  · simp [sysClockVals_eq_error hrecv]
  rw [sysClockVals_eq hrecv]
  rcases c.faults.get with _ | _
  · rcases stored with _ | data
    · simp
    rcases hsend : c.send.elapsedTime with _ | e'
    · simp [sysClockValsIfNotChanged_eq_error hsend]
    obtain ⟨d, hd⟩ := sysClockValsIfNotChanged_eq hrecv hsend
    simp [hd]
  · simp

theorem updateVClockData_cases (faults : StoreFaults) (stored : Option VClockData)
    (fn : VClockData → Except Err VClockData) :
    (∃ err, updateVClockData faults stored fn = (.error err, stored)) ∨
      ∃ data, updateVClockData faults stored fn = (.ok (), some data) := by
  unfold updateVClockData
  split
  · exact Or.inl ⟨_, rfl⟩
  · split
    · exact Or.inl ⟨_, rfl⟩
    · split
      · exact Or.inl ⟨_, rfl⟩
      · exact Or.inr ⟨_, rfl⟩

theorem error_updateVClockData_iff {faults : StoreFaults}
    {fn : VClockData → Except Err VClockData} :
    (∃ err, (updateVClockData faults stored fn).1 = .error err) ↔
      faults.get = true ∨ stored = none ∨ (∃ data err, stored = some data ∧ fn data = .error err) ∨
        faults.put = true ∨ faults.commit = true := by
  unfold updateVClockData getVClockData
  rcases faults.get with _ | _
  · rcases stored with _ | data
    · simp
    · rcases hfn : fn data with err | newData
      · simp [hfn]
      · rcases faults.put with _ | _ <;> rcases faults.commit with _ | _ <;> simp [hfn]
  · simp

theorem error_updateFromPeer_iff {e : Duration} {timeResp : TimeResp} {recvNow : Time}
    {data : VClockData} (h : p.orig.elapsedTime = some e) :
    (∃ err, updateFromPeer p p.orig.now e timeResp recvNow data = .error err) ↔
      noUpdate data (peerSyncData data p.orig.now timeResp recvNow) ≠ none ∨
        p.update.elapsedTime = none ∨ p.last.elapsedTime = none := by
  unfold updateFromPeer maybeUpdateFromPeerData
  rcases noUpdate data (peerSyncData data p.orig.now timeResp recvNow) with _ | msg
  · rcases hupdate : p.update.elapsedTime with _ | e'
    · simp [sysClockVals_eq_error hupdate]
    rw [sysClockVals_eq hupdate]
    rcases hlast : p.last.elapsedTime with _ | e''
    · simp [sysClockValsIfNotChanged_eq_error hlast]
    obtain ⟨d, hd⟩ := sysClockValsIfNotChanged_eq h hlast
    simp [hd]
  · simp

theorem error_syncVClock_iff :
    (∃ err, (syncVClock p stored).1 = .error err) ↔ p.Hindered stored := by
  unfold syncVClock PeerSync.Hindered
  rcases horig : p.orig.elapsedTime with _ | e
  · simp [sysClockVals_eq_error horig]
  rw [sysClockVals_eq horig]
  rcases p.reply with err | timeResp
  · simp
  rcases hrecv : p.recv.elapsedTime with _ | e'
  · simp [sysClockValsIfNotChanged_eq_error hrecv]
  obtain ⟨d, hd⟩ := sysClockValsIfNotChanged_eq horig hrecv
  dsimp only
  rw [hd]
  rw [error_updateVClockData_iff]
  rcases stored with _ | data
  · simp
  · have hpeer : (∃ err, updateFromPeer p p.orig.now e timeResp (p.recv.nowSince p.orig) data =
        .error err) ↔ _ := error_updateFromPeer_iff horig
    simp [hpeer, or_assoc]

theorem syncVClock_cases (p : PeerSync) (stored : Option VClockData) :
    (∃ err, syncVClock p stored = (.error err, stored)) ∨
      ∃ data, syncVClock p stored = (.ok (), some data) := by
  unfold syncVClock
  rcases sysClockVals p.orig with err | ⟨origNow, origElapsedTime⟩
  · exact Or.inl ⟨err, rfl⟩
  rcases p.reply with err | timeResp
  · exact Or.inl ⟨err, rfl⟩
  dsimp only
  rcases sysClockValsIfNotChanged origNow origElapsedTime p.recv with ⟨recvNow, e, _ | err⟩
  · exact updateVClockData_cases p.faults stored _
  · exact Or.inl ⟨err, rfl⟩

/-! ## Exchanges during which the clock changes -/

theorem error_map_iff {α β : Type} {x : Except Err α} {f : α → β} :
    (∃ err, x.map f = .error err) ↔ ∃ err, x = .error err := by
  rcases x with err | a
  · simp [Except.map]
  · simp [Except.map]

theorem noUpdate_iff_hindered (e : Exchange) (stored : Option VClockData) :
    e.NoUpdate stored ↔ e.Hindered stored := by
  match e with
  | .sample r => exact (and_iff_left rfl).trans (error_map_iff.trans error_sample_iff)
  | .getTime c => exact (and_iff_left rfl).trans (error_map_iff.trans error_getTime_iff)
  | .syncVClock p =>
    refine Iff.trans ⟨fun h ↦ error_map_iff.mp h.1, fun h ↦ ⟨error_map_iff.mpr h, ?_⟩⟩
      error_syncVClock_iff
    obtain ⟨err, herr⟩ := h
    rcases syncVClock_cases p stored with ⟨err', heq⟩ | ⟨data, heq⟩
    · exact congrArg Prod.snd heq
    · rw [heq] at herr
      exact nomatch herr

/-- **A change of the clock yields no update** if and only if something else hinders the
exchange. -/
theorem change_yields_no_update_iff (e : Exchange) (stored : Option VClockData) :
    (e.clockChanged = true → e.NoUpdate stored) ↔ (e.clockChanged = true → e.Hindered stored) := by
  rw [noUpdate_iff_hindered]

/-! ## A skew of 146 years -/

/-- 1 January 2016 -/
def sampleTime : Time := 63587203200 * 1000000000

/-- A reading of the clock some seconds after another. -/
def sampleReading (now elapsed : ℕ) : Reading :=
  ⟨sampleTime + now * 1000000000, some (Int64.ofNat elapsed * second)⟩

def sampleFaults : StoreFaults := ⟨false, false, false⟩

def sampleData : VClockData := ⟨sampleTime, 0, 0, 0, 0, 0⟩

/-- In a second the clock is set forward by an hour. The peer has synced with an NTP server. -/
def samplePeerSync : PeerSync where
  orig := sampleReading 0 0
  reply := .ok ⟨sampleTime, sampleTime, sampleTime, sampleTime, 0, 0⟩
  recv := sampleReading 3601 1
  faults := sampleFaults
  update := sampleReading 3601 1
  last := sampleReading 3601 1

def sampleRound : NtpRound where
  resolves := true
  dials := true
  orig := sampleReading 0 0
  writes := true
  reply := some (createRequest sampleTime)
  recv := sampleReading 3601 1

def sampleCall : TimeCall where
  sendTs := sampleTime
  recv := sampleReading 0 0
  faults := sampleFaults
  send := sampleReading 3601 1

/-- **The clock changes and nothing notices it.** There are a sample and a reply, and the virtual
clock moves by 146 years. -/
theorem change_yields_updates :
    (∀ e ∈ [Exchange.sample sampleRound, .getTime sampleCall, .syncVClock samplePeerSync],
      e.clockChanged = true ∧ ¬e.NoUpdate (some sampleData)) ∧
    ((Exchange.syncVClock samplePeerSync).exec (some sampleData)).2.map VClockData.skew =
      some 4611686018427387903 := by
  have hchanged : ∀ e ∈ [Exchange.sample sampleRound, .getTime sampleCall,
      .syncVClock samplePeerSync], e.clockChanged = true := by
    decide +kernel
  refine ⟨fun e he ↦ ⟨hchanged e he, fun hno ↦ ?_⟩, by decide +kernel⟩
  have hends : ∀ e ∈ [Exchange.sample sampleRound, .getTime sampleCall,
      .syncVClock samplePeerSync], (e.exec (some sampleData)).1.isOk = true := by
    decide +kernel
  obtain ⟨err, herr⟩ := hno.1
  have hok := hends e he
  rw [herr] at hok
  exact nomatch hok

end Vanadium.VClock
