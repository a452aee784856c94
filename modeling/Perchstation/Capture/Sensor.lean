import Perchstation.Perchpub.Types

/-!
# Sensor — liveness tracker, cooldown and published state (`capture/`)

The tracker turns level probes and trigger errors into transitions; the capture runner publishes a
transition in `CaptureState`.  What panics on a configured number of seconds returns an `Option`.
-/

namespace Perchstation

inductive SensorLevel
  | quiescent
  | asserted
  deriving DecidableEq, Repr

inductive MotionSensorError
  | unavailable (message : String)
  | io (source : IoError)
  deriving DecidableEq, Repr

def MotionSensorError.display : MotionSensorError → String
  | .unavailable message => "sensor unavailable: " ++ message
  | .io source => "sensor I/O error: " ++ source.display

/-- `i64::try_from(secs).unwrap_or(i64::MAX)`. -/
def clampedSecs (secs : UInt64) : ℤ := min (secs.toNat : ℤ) (2 ^ 63 - 1)

/-! ## Cooldown (`capture/cooldown.rs`) -/

structure CooldownState where
  until_ : Option DateTime

namespace CooldownState

def new : CooldownState := ⟨none⟩

/-- `start_after`; it panics where the deadline cannot be represented. -/
def startAfter (_self : CooldownState) (now : DateTime) (cooldownSecs : UInt64) :
    Option CooldownState := do
  let delta ← TimeDelta.seconds (clampedSecs cooldownSecs)
  let deadline ← now.add delta
  return ⟨some deadline⟩

def isActive (self : CooldownState) (now : DateTime) : Bool := self.until_.any fun t => now < t

end CooldownState

/-! ## Liveness (`capture/liveness.rs`) -/

inductive SensorLiveness
  | healthy
  | stuckAsserted (since : DateTime)
  | unavailable (since : DateTime) (reason : String)
  deriving DecidableEq

inductive DegradedKind
  | stuckAsserted
  | unavailable
  deriving DecidableEq, Repr

/-- What a single observation changed. -/
inductive SensorLivenessTransition
  | degraded (kind : DegradedKind) (since : DateTime) (reason : Option String)
  | recovered (kind : DegradedKind)
  | noChange
  deriving DecidableEq

structure SensorLivenessTracker where
  state : SensorLiveness
  stuckThreshold : TimeDelta
  /-- Where the current run of Asserted probes began, while Healthy. -/
  assertedSince : Option DateTime

namespace SensorLivenessTracker

/-- `new`; it panics on a threshold that is no duration. -/
def new (stuckSecs : UInt64) : Option SensorLivenessTracker := do
  let threshold ← TimeDelta.seconds (clampedSecs stuckSecs)
  return ⟨.healthy, threshold, none⟩

def isDegraded (self : SensorLivenessTracker) : Bool :=
  match self.state with
  | .healthy => false
  | _ => true

def handleError (self : SensorLivenessTracker) (now : DateTime) (err : MotionSensorError) :
    SensorLivenessTracker × SensorLivenessTransition :=
  match self.state with
  | .unavailable _ _ => (self, .noChange)
  | _ =>
    ({ self with state := .unavailable now err.display, assertedSince := none },
      .degraded .unavailable now (some err.display))

def handleAsserted (self : SensorLivenessTracker) (now : DateTime) :
    SensorLivenessTracker × SensorLivenessTransition :=
  match self.state with
  | .unavailable _ _ =>
    ({ self with state := .healthy, assertedSince := some now }, .recovered .unavailable)
  | .stuckAsserted _ => (self, .noChange)
  | .healthy =>
    let startedAt := self.assertedSince.getD now
    if self.stuckThreshold ≤ now.since startedAt then
      ({ self with state := .stuckAsserted startedAt, assertedSince := some startedAt },
        .degraded .stuckAsserted startedAt none)
    else
      ({ self with assertedSince := some startedAt }, .noChange)

def handleQuiescent (self : SensorLivenessTracker) :
    SensorLivenessTracker × SensorLivenessTransition :=
  match self.state with
  | .stuckAsserted _ =>
    ({ self with state := .healthy, assertedSince := none }, .recovered .stuckAsserted)
  | .unavailable _ _ =>
    ({ self with state := .healthy, assertedSince := none }, .recovered .unavailable)
  | .healthy => ({ self with assertedSince := none }, .noChange)

def observeLevel (self : SensorLivenessTracker) (now : DateTime)
    (result : Except MotionSensorError SensorLevel) :
    SensorLivenessTracker × SensorLivenessTransition :=
  match result with
  | .error err => self.handleError now err
  | .ok .asserted => self.handleAsserted now
  | .ok .quiescent => self.handleQuiescent

def observeTriggerError (self : SensorLivenessTracker) (now : DateTime) (err : MotionSensorError) :
    SensorLivenessTracker × SensorLivenessTransition :=
  self.handleError now err

end SensorLivenessTracker

/-! ## Published state (`capture/state.rs`) -/

inductive CaptureLivenessSnapshot
  | neverObserved
  | healthy
  | stuckAsserted
  | unavailable
  deriving DecidableEq, Repr

structure CaptureFailureSnapshot where
  at_ : DateTime
  kind : String
  message : String

structure CaptureState where
  lastRecordingAt : Option DateTime
  lastClipId : Option String
  lastFailure : Option CaptureFailureSnapshot
  sensorLiveness : CaptureLivenessSnapshot
  sensorDegradedSince : Option DateTime

namespace CaptureState

def new : CaptureState := ⟨none, none, none, .neverObserved, none⟩

def recordSuccess (self : CaptureState) (clipId : String) (at_ : DateTime) : CaptureState :=
  { self with lastRecordingAt := some at_, lastClipId := some clipId, lastFailure := none }

def recordFailure (self : CaptureState) (at_ : DateTime) (kind message : String) : CaptureState :=
  { self with lastFailure := some ⟨at_, kind, message⟩ }

def setLiveness (self : CaptureState) (snapshot : CaptureLivenessSnapshot)
    (since : Option DateTime) : CaptureState :=
  { self with sensorLiveness := snapshot, sensorDegradedSince := since }

end CaptureState

/-! ## The runner's part (`capture/runner.rs`) -/

/-- The liveness tracker of a capture runner and the state it publishes. -/
structure Capture where
  liveness : SensorLivenessTracker
  state : CaptureState

namespace Capture

def new (livenessStuckSecs : UInt64) : Option Capture := do
  let tracker ← SensorLivenessTracker.new livenessStuckSecs
  return ⟨tracker, .new⟩

/-- `apply_transition`. -/
def applyTransition (state : CaptureState) : SensorLivenessTransition → CaptureState
  | .noChange => state
  | .degraded .stuckAsserted since _ => state.setLiveness .stuckAsserted (some since)
  | .degraded .unavailable since _ => state.setLiveness .unavailable (some since)
  | .recovered _ => state.setLiveness .healthy none

/-- `update_liveness`, with what the clock and the sensor answer. -/
def updateLiveness (self : Capture) (now : DateTime)
    (result : Except MotionSensorError SensorLevel) : Capture :=
  let (tracker, transition) := self.liveness.observeLevel now result
  ⟨tracker, applyTransition self.state transition⟩

/-- `handle_trigger` on an error of the trigger stream. -/
def handleTriggerError (self : Capture) (now : DateTime) (err : MotionSensorError) : Capture :=
  let (tracker, transition) := self.liveness.observeTriggerError now err
  ⟨tracker, applyTransition self.state transition⟩

end Capture

end Perchstation
