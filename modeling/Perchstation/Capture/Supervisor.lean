import Perchstation.Config
import Perchstation.Lib.Spec

/-!
# Supervisor — the capture runner (`capture/runner.rs`, `capture/recording.rs`, `capture/staging.rs`)

The functions of the capture supervisor as programs: requests to the camera, the sensor and the
staging directory, log lines, and the requests of the queue.  The staging directory's files are the
paths outside the queue.
-/

namespace Perchstation

open Resumption QueueStore

inductive CameraError
  | openFailed (message : String)
  | io (source : IoError)
  | aborted (message : String)
  | emptyOutput
  deriving DecidableEq, Repr

def CameraError.display : CameraError → String
  | .openFailed message => "camera open failed: " ++ message
  | .io source => "camera I/O error during recording: " ++ source.display
  | .aborted message => "recording aborted: " ++ message
  | .emptyOutput => "no media bytes were produced (camera busy or off)"

/-- `camera_error_kind`. -/
def CameraError.kind : CameraError → String
  | .openFailed _ => "open_failed"
  | .io _ => "io"
  | .aborted _ => "aborted"
  | .emptyOutput => "empty_output"

structure RecordedClip where
  clipPath : Path
  byteSize : UInt64

inductive CaptureRecordError
  | failed (source : CameraError)
  | timeout
  | emptyClip (path : Path)
  | durationOverflow

/-- The text of a queue error; the JSON parser's own text is left out. -/
def QueueError.display : QueueError → String
  | .io path source => "queue I/O error at `" ++ path.display ++ "`: " ++ source.display
  | .deserialise path => "could not deserialise sidecar JSON at `" ++ path.display ++ "`"
  | .missingMedia clipId => "queue entry `" ++ clipId ++ "` is missing its `.mp4` media file"
  | .diskFull path => "disk full while writing queue entry at `" ++ path.display ++ "`"

/-- `sensor_liveness_label`. -/
def SensorLiveness.label : SensorLiveness → String
  | .healthy => "healthy"
  | .stuckAsserted _ => "stuck_asserted"
  | .unavailable _ _ => "unavailable"

/-- The supervisor's log lines, with their fields. -/
inductive CaptureLine
  | sensorDegraded (kind : DegradedKind) (since : DateTime) (reason : Option String)
  | sensorRecovered (kind : DegradedKind)
  | triggerObserved (triggeredAt : DateTime)
  | cooldownSkip (cooldownUntil : DateTime)
  | degradedSkip (sensorLiveness : String)
  | diskPressureSkip (stagingBytes maxStagingBytes : UInt64)
  | stagingProbeFailed (error : String)
  | recordingStarted (recordingId : String) (triggeredAt : DateTime)
  | recordingFailed (recordingId kind : String) (field : Option (String × String))
  | recordingHung (recordingId : String) (maxDurationMs : ℤ)
  | recordingCompleted (recordingId : String) (clipId : ClipId) (byteSize : UInt64) (durationMs : ℤ)
  | queueRefused (recordingId kind : String) (error : InboxError)

/-! ## Requests -/

/-- What a scan of the staging directory finds at one entry: the entry or its metadata cannot be read,
or it is a file of some length, or no file. -/
abbrev StagingEntry : Type := Except IoError (Except IoError (Option UInt64))

inductive CaptureReq
  /-- A request of the queue, a file removal or a clock reading. -/
  | io (r : Req)
  /-- `next_clip_id` takes the process's counter. -/
  | nextSeq
  /-- `Camera::record_clip` inside a `tokio::time::timeout`. -/
  | recordClip (recordingId : String) (maxDuration outer : StdDuration)
  | level
  /-- The scan of `staging_bytes`. -/
  | scanStaging
  /-- The listing of `sweep_staging`. -/
  | listStaging
  | emit (line : CaptureLine)

@[reducible] def CaptureRep : CaptureReq → Type
  | .io r => Rep r
  | .nextSeq => UInt32
  | .recordClip _ _ _ => Option (Except CameraError RecordedClip)
  | .level => Except MotionSensorError SensorLevel
  | .scanStaging => Except IoError (List StagingEntry)
  | .listStaging => Except IoError (List (Except IoError Path))
  | .emit _ => Unit

abbrev CaptureAct (α : Type) : Type := Prog CaptureReq CaptureRep α

/-- A program on the queue as one of the supervisor. -/
def onStore {α : Type} (p : Act α) : CaptureAct α := embed CaptureReq.io (fun _ v => v) p

def clockNow : CaptureAct DateTime := Prog.request (CaptureReq.io .now)

def unlink (p : Path) : CaptureAct (Except IoError Unit) :=
  Prog.request (CaptureReq.io (.removeFile p))

/-- A panic ends the supervisor's task. -/
def taskPanic (α : Type) : CaptureAct α := .ask (.io .abort) fun v => nomatch v

def emit (line : CaptureLine) : CaptureAct Unit := Prog.request (CaptureReq.emit line)

/-- `Inbox::submit`. -/
abbrev Submit : Type := Path → ClipMeta → CaptureAct (Except InboxError ClipQueueEntry)

/-- `PolicyInbox::submit` over `StoreInbox`, with the id that `next_clip_id` makes. -/
def policySubmit (profile : Profile) (policy : QueuePolicy) : Submit := fun clipPath clipMeta => do
  let seq ← Prog.request CaptureReq.nextSeq
  let outcome ← onStore
    (submit profile policy (nextClipId clipMeta.capturedAt seq) clipPath clipMeta)
  return outcome.2

/-! ## The staging directory (`capture/staging.rs`, `capture/recording.rs`) -/

/-- The loop of `staging_bytes` over the entries of a scan. -/
def sumStaging : UInt64 → List StagingEntry → Except IoError UInt64
  | total, [] => .ok total
  | _, .error err :: _ => .error err
  | total, .ok (.ok (some len)) :: rest => sumStaging (saturatingAdd64 total len) rest
  | total, .ok (.ok none) :: rest => sumStaging total rest
  | total, .ok (.error .notFound) :: rest => sumStaging total rest
  | _, .ok (.error err) :: _ => .error err

/-- `staging_bytes`: the size of every regular file; a missing directory yields 0. -/
def stagingBytes : CaptureAct (Except IoError UInt64) := do
  match ← Prog.request CaptureReq.scanStaging with
  | .error .notFound => return .ok 0
  | .error err => return .error err
  | .ok entries => return sumStaging 0 entries

/-- The loop of `sweep_staging` over a listing, without the entries that cannot be read. -/
def removeAll : List (Except IoError Path) → CaptureAct Unit
  | [] => return ()
  | .error _ :: rest => removeAll rest
  | .ok path :: rest => do
    let _ ← unlink path
    removeAll rest

/-- `sweep_staging`. -/
def sweepStaging : CaptureAct Unit := do
  match ← Prog.request CaptureReq.listStaging with
  | .error _ => return ()
  | .ok entries => removeAll entries

/-- `Duration::MAX`. -/
def StdDuration.max : StdDuration := 18446744073709551615 * nanosPerSec + 999999999

/-- `Duration::checked_add`. -/
def StdDuration.checkedAdd (a b : StdDuration) : Option StdDuration :=
  if a + b ≤ StdDuration.max then some (a + b) else none

def recordIntoStaging (recordingId : String) (maxDuration hangMargin : StdDuration) :
    CaptureAct (Except CaptureRecordError RecordedClip) := do
  match maxDuration.checkedAdd hangMargin with
  | none => return .error .durationOverflow
  | some outer =>
    match ← Prog.request (CaptureReq.recordClip recordingId maxDuration outer) with
    | some (.ok clip) =>
      if clip.byteSize = 0 then
        let _ ← unlink clip.clipPath
        return .error (.emptyClip clip.clipPath)
      else
        return .ok clip
    | some (.error err) =>
      sweepStaging
      return .error (.failed err)
    | none =>
      sweepStaging
      return .error .timeout

/-- `recording_id`. -/
def recordingId (at_ : DateTime) : String :=
  String.ofList (BasicIso.basicIso at_.timestamp) ++ "-cap"

/-! ## The supervisor (`capture/runner.rs`) -/

structure Supervisor where
  config : CaptureConfig
  maxStagingBytes : UInt64
  /-- The liveness tracker and the published state. -/
  capture : Capture
  cooldown : CooldownState

namespace Supervisor

def new (config : CaptureConfig) (maxStagingBytes : UInt64) : Option Supervisor := do
  let capture ← Capture.new config.livenessStuckSecs
  return ⟨config, maxStagingBytes, capture, .new⟩

/-- The log line of a transition. -/
def transitionLine : SensorLivenessTransition → Option CaptureLine
  | .noChange => none
  | .degraded kind since reason => some (.sensorDegraded kind since reason)
  | .recovered kind => some (.sensorRecovered kind)

/-- A step of the tracker: `apply_transition` after an observation. -/
def applyTransition (self : Supervisor)
    (observed : SensorLivenessTracker × SensorLivenessTransition) : CaptureAct Supervisor := do
  let self' := { self with
    capture := ⟨observed.1, Capture.applyTransition self.capture.state observed.2⟩ }
  match transitionLine observed.2 with
  | none => return self'
  | some line =>
    emit line
    return self'

def updateLiveness (self : Supervisor) : CaptureAct Supervisor := do
  let now ← clockNow
  let result ← Prog.request CaptureReq.level
  self.applyTransition (self.capture.liveness.observeLevel now result)

def startCooldown (self : Supervisor) : CaptureAct Supervisor := do
  let now ← clockNow
  match self.cooldown.startAfter now self.config.cooldownSecs with
  | none => taskPanic Supervisor
  | some cooldown => return { self with cooldown := cooldown }

/-- The supervisor after a call on the published state. -/
def publish (self : Supervisor) (state : CaptureState) : Supervisor :=
  { self with capture := { self.capture with state := state } }

/-- `self.state.record_failure(self.clock.now(), …)`, and the cooldown. -/
def failAndCoolDown (self : Supervisor) (kind message : String) : CaptureAct Supervisor := do
  let now ← clockNow
  (self.publish (self.capture.state.recordFailure now kind message)).startCooldown

def handleRecordingOverflow (self : Supervisor) (recordingId : String) :
    CaptureAct Supervisor := do
  emit (.recordingFailed recordingId "config_overflow" none)
  self.failAndCoolDown "config_overflow" "clip_duration + hang_margin overflow"

def handleRecordingFailed (self : Supervisor) (recordingId : String) (err : CameraError) :
    CaptureAct Supervisor := do
  emit (.recordingFailed recordingId err.kind (some ("message", err.display)))
  self.failAndCoolDown "recording_failed" err.display

def handleRecordingEmpty (self : Supervisor) (recordingId : String) (path : Path) :
    CaptureAct Supervisor := do
  emit (.recordingFailed recordingId "empty_output" (some ("path", path.display)))
  self.failAndCoolDown "recording_failed" "empty clip"

/-- `i64::try_from(max_duration.as_millis()).unwrap_or(i64::MAX)`. -/
def maxDurationMs (maxDuration : StdDuration) : ℤ := min (maxDuration / 1000000 : ℕ) (2 ^ 63 - 1)

def handleRecordingHung (self : Supervisor) (recordingId : String) (maxDuration : StdDuration) :
    CaptureAct Supervisor := do
  emit (.recordingHung recordingId (maxDurationMs maxDuration))
  self.failAndCoolDown "camera_hang" (toString (maxDurationMs maxDuration) ++ " ms")

/-- `(now - record_start).num_milliseconds().max(0)`. -/
def elapsedMs (now recordStart : DateTime) : ℤ := max 0 (now.since recordStart / 1000000)

def submitClip (submit : Submit) (self : Supervisor) (recordingId : String)
    (triggeredAt recordStart : DateTime) (clip : RecordedClip) : CaptureAct Supervisor := do
  match ← submit clip.clipPath ⟨triggeredAt⟩ with
  | .ok entry =>
    let now ← clockNow
    emit (.recordingCompleted recordingId entry.clipId clip.byteSize (elapsedMs now recordStart))
    (self.publish (self.capture.state.recordSuccess entry.clipId triggeredAt)).startCooldown
  | .error (.queueFull currentClips maxClips currentBytes maxBytes) =>
    let _ ← unlink clip.clipPath
    emit (.queueRefused recordingId "queue_full"
      (.queueFull currentClips maxClips currentBytes maxBytes))
    self.failAndCoolDown "queue_full" (toString currentClips ++ "/" ++ toString maxClips ++
      " clips, " ++ toString currentBytes ++ "/" ++ toString maxBytes ++ " bytes")
  | .error (.queue err) =>
    let _ ← unlink clip.clipPath
    emit (.queueRefused recordingId "queue_io" (.queue err))
    self.failAndCoolDown "queue_io" err.display

def recordAndHandle (submit : Submit) (self : Supervisor) (triggeredAt : DateTime) :
    CaptureAct Supervisor := do
  let recordingId := recordingId triggeredAt
  let maxDuration := StdDuration.fromSecs self.config.clipDurationSecs.toNat
  let hangMargin := StdDuration.fromSecs self.config.hangMarginSecs.toNat
  emit (.recordingStarted recordingId triggeredAt)
  let recordStart ← clockNow
  match ← recordIntoStaging recordingId maxDuration hangMargin with
  | .ok clip => self.submitClip submit recordingId triggeredAt recordStart clip
  | .error (.failed err) => self.handleRecordingFailed recordingId err
  | .error (.emptyClip path) => self.handleRecordingEmpty recordingId path
  | .error .timeout => self.handleRecordingHung recordingId maxDuration
  | .error .durationOverflow => self.handleRecordingOverflow recordingId

/-- The disk-pressure gate of `handle_trigger`, and the recording behind it. -/
def recordUnlessFull (submit : Submit) (self : Supervisor) (triggeredAt : DateTime) :
    CaptureAct Supervisor := do
  match ← stagingBytes with
  | .ok bytes =>
    if self.maxStagingBytes ≤ bytes then
      emit (.diskPressureSkip bytes self.maxStagingBytes)
      self.failAndCoolDown "disk_pressure"
        (toString bytes ++ "/" ++ toString self.maxStagingBytes ++ " bytes")
    else
      self.recordAndHandle submit triggeredAt
  | .error err =>
    emit (.stagingProbeFailed err.display)
    self.recordAndHandle submit triggeredAt

/-- `handle_trigger`: the cooldown gate, the liveness gate, the disk-pressure gate. -/
def handleTrigger (submit : Submit) (self : Supervisor)
    (trigger : Except MotionSensorError DateTime) : CaptureAct Supervisor := do
  match trigger with
  | .error err =>
    let now ← clockNow
    self.applyTransition (self.capture.liveness.observeTriggerError now err)
  | .ok triggeredAt =>
    emit (.triggerObserved triggeredAt)
    let now ← clockNow
    if self.cooldown.isActive now then
      match self.cooldown.until_ with
      | none => taskPanic Supervisor
      | some cooldownUntil =>
        emit (.cooldownSkip cooldownUntil)
        return self
    else if self.capture.liveness.isDegraded then
      emit (.degradedSkip self.capture.liveness.state.label)
      self.startCooldown
    else
      self.recordUnlessFull submit triggeredAt

end Supervisor

end Perchstation
