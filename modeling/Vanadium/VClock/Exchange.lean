import Vanadium.Foundations.FixedWidth
import Vanadium.VClock.SystemClock

/-!
# Exchanges with an NTP server and with peers

A device asks an NTP server or a peer for its time, and computes the skew from four times: when the
request was sent and received, and when the reply was sent and received. The first and the last one
come from its own system clock.

Each exchange is a function of all that happens to it: the readings of the clock, what the network
returns, and what the store does.
-/

namespace Vanadium.VClock

open Foundations FixedWidth

/-! ## NTP -/

/-- The prime epoch of NTP, 0 h 1 January 1900. -/
def primeEpoch : Time := 59926608000 * 1000000000

/-- The `i`-th byte of a word, from the lowest. -/
def byteOf (x : Int64) (i : ℕ) : Byte := (x >>> (8 * Int64.ofNat i)).toBitVec.setWidth 8

def createRequest (now : Time) : List Byte :=
  let nsec : Int64 := Time.sub now primeEpoch
  let sec := nsec / 1000000000
  let frac := ((nsec % 1000000000) <<< 32) / 1000000000
  0x23 :: List.replicate 39 0 ++ [byteOf sec 3, byteOf sec 2, byteOf sec 1, byteOf sec 0,
    byteOf frac 3, byteOf frac 2, byteOf frac 1, byteOf frac 0]

/-- Four bytes, the highest one first. -/
def bigEndian (data : List Byte) : ℕ := data.foldl (fun n b ↦ 256 * n + b.toNat) 0

/-- The time in eight bytes of a message. -/
def extractTime (data : List Byte) : Time :=
  let sec := bigEndian (data.take 4)
  let frac := bigEndian ((data.drop 4).take 4)
  Time.add primeEpoch (Int64.ofNat (sec * 1000000000 + (frac * 1000000000) >>> 32))

structure NtpData where
  skew : Duration
  delay : Duration
  ntpTs : Time

/-- What happens to a request to an NTP server. -/
structure NtpRound where
  resolves : Bool
  dials : Bool
  orig : Reading
  writes : Bool
  /-- the datagram that is read -/
  reply : Option (List Byte)
  recv : Reading

/-- The buffer of the request when a reply was read into it. -/
def overwrite (msg reply : List Byte) : List Byte := reply.take msg.length ++ msg.drop reply.length

def ntpData (msg : List Byte) (recvNow : Time) : NtpData :=
  let clientTransmitTs := extractTime ((msg.drop 24).take 8)
  let serverReceiveTs := extractTime ((msg.drop 32).take 8)
  let serverTransmitTs := extractTime ((msg.drop 40).take 8)
  let clientReceiveTs := recvNow
  { skew :=
      (Time.sub serverReceiveTs clientTransmitTs + Time.sub serverTransmitTs clientReceiveTs) / 2
    delay := Time.sub clientReceiveTs clientTransmitTs - Time.sub serverTransmitTs serverReceiveTs
    ntpTs := serverTransmitTs }

def sample (r : NtpRound) : Except Err NtpData :=
  if r.resolves = false then .error .network
  else if r.dials = false then .error .network
  else
    match sysClockVals r.orig with
    | .error err => .error err
    | .ok (origNow, origElapsedTime) =>
      if r.writes = false then .error .network
      else
        match r.reply with
        | none => .error .network
        | some reply =>
          match sysClockValsIfNotChanged origNow origElapsedTime r.recv with
          | (_, _, some err) => .error err
          | (recvNow, _, none) => .ok (ntpData (overwrite (createRequest origNow) reply) recvNow)

/-! ## The peer's side -/

structure TimeResp where
  origTs : Time
  recvTs : Time
  sendTs : Time
  lastNtpTs : Time
  numReboots : UInt16
  numHops : UInt16

/-- What happens to a call of `GetTime`. -/
structure TimeCall where
  sendTs : Time
  recv : Reading
  faults : StoreFaults
  send : Reading

def getTime (c : TimeCall) (stored : Option VClockData) : Except Err TimeResp :=
  match sysClockVals c.recv with
  | .error err => .error (.getTimeFailed err)
  | .ok (recvNow, recvElapsedTime) =>
    match getVClockData c.faults stored with
    | .error err => .error (.getTimeFailed err)
    | .ok data =>
      match sysClockValsIfNotChanged recvNow recvElapsedTime c.send with
      | (_, _, some err) => .error (.getTimeFailed err)
      | (sendNow, _, none) =>
        .ok { origTs := c.sendTs
              recvTs := applySkew recvNow data
              sendTs := applySkew sendNow data
              lastNtpTs := data.lastNtpTs
              numReboots := data.numReboots
              numHops := data.numHops }

/-! ## Our side -/

structure PeerSyncData where
  mySendTs : Time
  recvTs : Time
  sendTs : Time
  myRecvTs : Time
  lastNtpTs : Time
  numReboots : UInt16
  numHops : UInt16

def ntpSkewDeltaThreshold : Duration := 2 * second
def peerSyncSkewThreshold : Duration := ntpSkewDeltaThreshold
def rebootSkewThreshold : Duration := 60 * second
def maxNumHops : UInt16 := 2

def PeerSyncData.skew (psd : PeerSyncData) : Duration :=
  (Time.sub psd.recvTs psd.mySendTs + Time.sub psd.sendTs psd.myRecvTs) / 2

/-- The checks of `MaybeUpdateFromPeerData`: why there is no update. -/
def noUpdate (data : VClockData) (psd : PeerSyncData) : Option String :=
  if abs psd.skew < peerSyncSkewThreshold then some "abs(skew) is less than PeerSyncSkewThreshold"
  else if Time.isZero psd.lastNtpTs then some "peer's clock has not synced to NTP"
  else if Time.before psd.lastNtpTs data.lastNtpTs then some "peer's NTP is less recent than local"
  else if psd.numReboots > 0 ∧ abs psd.skew > rebootSkewThreshold then
    some "peer's vclock exceeds reboot tolerance"
  else if psd.numHops + 1 > maxNumHops then some "peer's NTP is from too many hops away"
  else none

def maybeUpdateFromPeerData (clock : Reading) (data : VClockData) (psd : PeerSyncData) :
    Except Err VClockData :=
  match noUpdate data psd with
  | some msg => .error (.noUpdate msg)
  | none =>
    match sysClockVals clock with
    | .error err => .error err
    | .ok (now, elapsedTime) =>
      .ok { systemTimeAtBoot := Time.add now (-elapsedTime)
            skew := data.skew + psd.skew
            elapsedTimeSinceBoot := elapsedTime
            lastNtpTs := psd.lastNtpTs
            numReboots := psd.numReboots
            numHops := psd.numHops + 1 }

/-- What happens to an exchange with a peer. -/
structure PeerSync where
  orig : Reading
  /-- what the peer's `GetTime` returns -/
  reply : Except Err TimeResp
  recv : Reading
  faults : StoreFaults
  /-- the reading of `MaybeUpdateFromPeerData` -/
  update : Reading
  last : Reading

def peerSyncData (data : VClockData) (origNow : Time) (timeResp : TimeResp) (recvNow : Time) :
    PeerSyncData :=
  { mySendTs := applySkew origNow data
    recvTs := timeResp.recvTs
    sendTs := timeResp.sendTs
    myRecvTs := applySkew recvNow data
    lastNtpTs := timeResp.lastNtpTs
    numReboots := timeResp.numReboots
    numHops := timeResp.numHops }

/-- The update of `syncVClock`. -/
def updateFromPeer (p : PeerSync) (origNow : Time) (origElapsedTime : Duration)
    (timeResp : TimeResp) (recvNow : Time) (data : VClockData) : Except Err VClockData :=
  match maybeUpdateFromPeerData p.update data (peerSyncData data origNow timeResp recvNow) with
  | .error err => .error err
  | .ok newData =>
    match sysClockValsIfNotChanged origNow origElapsedTime p.last with
    | (_, _, some err) => .error err
    | (_, _, none) => .ok newData

/-- `syncVClock`, with what is stored afterwards. The reply has the type that is asserted, since it
comes from `GetTime`. -/
def syncVClock (p : PeerSync) (stored : Option VClockData) : Except Err Unit × Option VClockData :=
  match sysClockVals p.orig with
  | .error err => (.error err, stored)
  | .ok (origNow, origElapsedTime) =>
    match p.reply with
    | .error err => (.error err, stored)
    | .ok timeResp =>
      match sysClockValsIfNotChanged origNow origElapsedTime p.recv with
      | (_, _, some err) => (.error err, stored)
      | (recvNow, _, none) =>
        updateVClockData p.faults stored (updateFromPeer p origNow origElapsedTime timeResp recvNow)

end Vanadium.VClock
