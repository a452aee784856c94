import Perchstation.Capture.Sensor
import Perchstation.Identity.Store
import Perchstation.Queue.Policy

/-!
# Status — the snapshot of delivery health (`observability/status.rs`, `fsutil.rs`)

A snapshot goes through its directories entry by entry, as `fs::read_dir` yields them, with the
`metadata` call or the read of an entry in between.  It has no hold on the directory meanwhile.
-/

namespace Perchstation

open Resumption QueueStore

/-! ## Scans -/

/-- What a scan asks for: a call on a file of the queue, or a directory listing entry by entry. -/
inductive ScanReq
  | queue (r : Req)
  | openDir (d : Dir)
  | nextEntry (d : Dir)

@[reducible] def ScanRep : ScanReq → Type
  | .queue r => Rep r
  | .openDir _ => Except IoError ℕ
  | .nextEntry _ => Except IoError (Option Path)

abbrev ScanAct (α : Type) : Type := Prog ScanReq ScanRep α

/-- A program on the queue as one that could scan, too. -/
def onQueue {α : Type} : Act α → ScanAct α
  | .pure a => .pure a
  | .ask r k => .ask (.queue r) fun v => onQueue (k v)

/-- `fs::read_dir`.  Every listing comes to an end; the answer bounds the entries it will yield, and
bounds the loop over them. -/
def openDir (d : Dir) : ScanAct (Except IoError ℕ) :=
  Prog.request (ScanReq.openDir d)

/-- The next entry of the listing, if there is one. -/
def nextEntry (d : Dir) : ScanAct (Except IoError (Option Path)) :=
  Prog.request (ScanReq.nextEntry d)

/-- The loop of `sum_dir` over what the listing yields. -/
def sumLoop (d : Dir) (value : Path → ScanAct (Except IoError UInt64)) :
    ℕ → UInt64 → ScanAct (Except IoError UInt64)
  | 0, total => return .ok total
  | n + 1, total => do
    match ← nextEntry d with
    | .error err => return .error err
    | .ok none => return .ok total
    | .ok (some entry) =>
      match ← value entry with
      | .error err => return .error err
      | .ok v => sumLoop d value n (saturatingAdd64 total v)

/-- `sum_dir`: the sum of `value` over the entries of `d`; a missing directory yields 0. -/
def sumDir (d : Dir) (value : Path → ScanAct (Except IoError UInt64)) :
    ScanAct (Except IoError UInt64) := do
  match ← openDir d with
  | .error .notFound => return .ok 0
  | .error err => return .error err
  | .ok n => sumLoop d value n 0

/-! ## Snapshots -/

inductive StatusError
  | io (path : Path) (source : IoError)
  | parse (path : Path)
  | identity (error : IdentityError)

inductive EnrollmentState
  | ok
  | missing
  | expired
  deriving DecidableEq, Repr

structure EnrollmentSnapshot where
  state : EnrollmentState
  stationId : Option Uuid
  certNotAfter : Option DateTime
  perchpubUrl : Option String

structure QueueSnapshot where
  pending : UInt32
  inflight : UInt32
  bytesOnDisk : UInt64

structure SuccessSnapshot where
  at_ : DateTime
  clipId : ClipId
  classifyTaskId : Option Uuid
  classifyStatus : Option ClassifyTaskStatus

structure FailureSnapshot where
  at_ : DateTime
  clipId : ClipId
  kind : String
  status : Option UInt16
  message : String

structure RecentEntry where
  clipId : ClipId
  classifyStatus : Option ClassifyTaskStatus
  deliveredAt : DateTime

structure CaptureSnapshot where
  lastRecordingAt : Option DateTime
  lastClipId : Option String
  lastFailure : Option CaptureFailureSnapshot
  sensorLiveness : CaptureLivenessSnapshot
  sensorDegradedSince : Option DateTime

structure StatusSnapshot where
  enrollment : EnrollmentSnapshot
  queue : QueueSnapshot
  lastSuccess : Option SuccessSnapshot
  lastFailure : Option FailureSnapshot
  recent : List RecentEntry
  capture : CaptureSnapshot

/-- `CaptureSnapshot::default`. -/
def CaptureSnapshot.default : CaptureSnapshot := ⟨none, none, none, .neverObserved, none⟩

def CaptureState.snapshot (self : CaptureState) : CaptureSnapshot where
  lastRecordingAt := self.lastRecordingAt
  lastClipId := self.lastClipId
  lastFailure := self.lastFailure
  sensorLiveness := self.sensorLiveness
  sensorDegradedSince := self.sensorDegradedSince

/-- `enrollment_snapshot`, with what `StationIdentity::load` returned if there is an identity
file. -/
def enrollmentSnapshot (identity : Option (Except IdentityError StationIdentity)) (now : DateTime) :
    Except StatusError EnrollmentSnapshot :=
  match identity with
  | none => .ok ⟨.missing, none, none, none⟩
  | some (.error err) => .error (.identity err)
  | some (.ok identity) =>
    let state := if identity.certIsExpired now then EnrollmentState.expired else .ok
    .ok ⟨state, some identity.stationId, some identity.certNotAfter, some identity.perchpubUrl⟩

/-- `u32::try_from(count).unwrap_or(u32::MAX)`. -/
def clampU32 (count : UInt64) : UInt32 :=
  if count.toNat < 2 ^ 32 then UInt32.ofNat count.toNat else 4294967295

def countSidecars (d : Dir) : ScanAct (Except StatusError UInt32) := do
  match ← sumDir d fun entry => return .ok (if entry.hasExt .json then 1 else 0) with
  | .error source => return .error (.io (.directory d) source)
  | .ok count => return .ok (clampU32 count)

/-- What an entry contributes to `sum_mp4_bytes`. -/
def mp4Bytes (entry : Path) : ScanAct (Except IoError UInt64) :=
  if entry.hasExt .mp4 then onQueue (metadata entry) else return .ok 0

def sumMp4Bytes (d : Dir) : ScanAct (Except StatusError UInt64) := do
  match ← sumDir d mp4Bytes with
  | .error source => return .error (.io (.directory d) source)
  | .ok bytes => return .ok bytes

/-- `a + b`: it traps on overflow in a debug build and wraps in a release build. -/
def addU64 (profile : Profile) (a b : UInt64) : Option UInt64 :=
  if a.toNat + b.toNat < 2 ^ 64 ∨ profile = .release then some (a + b) else none

/-- `queue_snapshot`; `none` is a panic. -/
def queueSnapshot (profile : Profile) : ScanAct (Option (Except StatusError QueueSnapshot)) := do
  match ← countSidecars .pending with
  | .error err => return some (.error err)
  | .ok pending =>
    match ← countSidecars .inflight with
    | .error err => return some (.error err)
    | .ok inflight =>
      match ← sumMp4Bytes .pending with
      | .error err => return some (.error err)
      | .ok pendingBytes =>
        match ← sumMp4Bytes .inflight with
        | .error err => return some (.error err)
        | .ok inflightBytes =>
          match addU64 profile pendingBytes inflightBytes with
          | none => return none
          | some bytesOnDisk => return some (.ok ⟨pending, inflight, bytesOnDisk⟩)

/-- The error of `read_sidecar` on `path`, as a `StatusError`. -/
def StatusError.ofQueue (path : Path) : QueueError → StatusError
  | .deserialise path => .parse path
  | .io path source => .io path source
  | .missingMedia clipId =>
    .io path (.other 0 ("queue entry `" ++ clipId ++ "` is missing its `.mp4` media file"))
  | .diskFull full =>
    .io path (.other 0 ("disk full while writing queue entry at `" ++ full.display ++ "`"))

/-- The loop of `load_delivered` over what the listing yields. -/
def deliveredLoop : ℕ → List ClipQueueEntry → ScanAct (Except StatusError (List ClipQueueEntry))
  | 0, entries => return .ok entries
  | n + 1, entries => do
    match ← nextEntry .delivered with
    | .error source => return .error (.io (.directory .delivered) source)
    | .ok none => return .ok entries
    | .ok (some path) =>
      if path.hasExt .json then
        match ← onQueue (readSidecar path) with
        | .error err => return .error (.ofQueue path err)
        | .ok parsed => deliveredLoop n (entries ++ [parsed])
      else
        deliveredLoop n entries

def loadDelivered : ScanAct (Except StatusError (List ClipQueueEntry)) := do
  match ← openDir .delivered with
  | .error .notFound => return .ok []
  | .error source => return .error (.io (.directory .delivered) source)
  | .ok n => deliveredLoop n []

/-- `Iterator::max_by_key`: the last of the entries with the greatest key. -/
def maxByKey : List (DateTime × ClipQueueEntry) → Option (DateTime × ClipQueueEntry)
  | [] => none
  | x :: xs =>
    match maxByKey xs with
    | none => some x
    | some y => if x.1 ≤ y.1 then some y else some x

def pickLastSuccess (delivered : List ClipQueueEntry) : Option SuccessSnapshot :=
  let keyed := delivered.filterMap fun e =>
    if e.outcome = some .delivered then e.deliveredAt.map (·, e) else none
  (maxByKey keyed).map fun (at_, e) => ⟨at_, e.clipId, e.classifyTaskId, e.lastClassifyStatus⟩

def pickLastFailure (delivered : List ClipQueueEntry) : Option FailureSnapshot :=
  let keyed := delivered.filterMap fun e =>
    if e.outcome = some .undeliverable then (e.deliveredAt.or e.lastAttemptAt).map (·, e) else none
  (maxByKey keyed).map fun (at_, e) =>
    match e.lastError with
    | none => ⟨at_, e.clipId, "undeliverable", none, ""⟩
    | some le => ⟨at_, e.clipId, le.kind, le.status, le.message⟩

/-- The latest three deliveries; the sort is stable. -/
def buildRecent (delivered : List ClipQueueEntry) : List RecentEntry :=
  let keyed := delivered.filterMap fun e => e.deliveredAt.map (·, e)
  let sorted := keyed.insertionSort fun x y => y.1 ≤ x.1
  (sorted.take 3).map fun (at_, e) => ⟨e.clipId, e.lastClassifyStatus, at_⟩

/-- `snapshot`, with what the identity store and the capture state hold; `none` is a panic. -/
def snapshot (profile : Profile) (identity : Option (Except IdentityError StationIdentity))
    (now : DateTime) (capture : Option CaptureState) :
    ScanAct (Option (Except StatusError StatusSnapshot)) := do
  match enrollmentSnapshot identity now with
  | .error err => return some (.error err)
  | .ok enrollment =>
    match ← queueSnapshot profile with
    | none => return none
    | some (.error err) => return some (.error err)
    | some (.ok queue) =>
      match ← loadDelivered with
      | .error err => return some (.error err)
      | .ok delivered =>
        return some (.ok {
          enrollment := enrollment
          queue := queue
          lastSuccess := pickLastSuccess delivered
          lastFailure := pickLastFailure delivered
          recent := buildRecent delivered
          capture := (capture.map CaptureState.snapshot).getD .default })

end Perchstation
