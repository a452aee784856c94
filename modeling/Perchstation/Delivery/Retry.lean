import Perchstation.Perchpub.Types

/-!
# Retry — backoff schedule and failure classification (`delivery/retry.rs`)

The schedule is a function of the clock reading.  It panics where Rust's duration and instant
arithmetic does; `none` stands for that.
-/

namespace Perchstation

/-- The schedule of the delivery runner. -/
structure BackoffSchedule where
  initialDelay : StdDuration
  maxAttemptDelay : StdDuration
  multiplier : ℚ
  jitterFraction : ℚ
  perClipMaxAttempts : UInt32
  perClipMaxWallclock : StdDuration

/-- What the runner should do after a transient failure. -/
inductive NextAction
  | retry (nextAttemptAfter : DateTime)
  | exhausted
  deriving DecidableEq

inductive FailureKind
  | transient
  | terminal
  deriving DecidableEq, Repr

/-- Short stable identifier of the failure cause. -/
def errorKind : ClientError → String
  | .http _ _ _ _ => "http_status"
  | .network _ _ => "network"
  | .decode _ _ => "decode"
  | .undecodableSuccess _ _ => "undecodable_success"
  | .outboundDisallowed _ _ => "outbound_disallowed"
  | .clipOpen _ _ => "clip_open"
  | .credentialIo _ _ | .tlsConfig _ | .invalidUrl _ _ => "config"

def classifyStatus (status : UInt16) : FailureKind :=
  if 200 ≤ status ∧ status ≤ 299 then .transient
  else if status = 408 ∨ status = 425 ∨ status = 429 ∨ status = 500 ∨ status = 502 ∨
      status = 503 ∨ status = 504 then .transient
  else .terminal

def classifyUploadError : ClientError → FailureKind
  | .http _ status _ _ => classifyStatus status
  | .network _ _ | .decode _ _ => .transient
  | .undecodableSuccess _ _ | .outboundDisallowed _ _ | .clipOpen _ _ | .credentialIo _ _
  | .tlsConfig _ | .invalidUrl _ _ => .terminal

/-- As for an upload, but an undecodable success is polled again. -/
def classifyPollError : ClientError → FailureKind
  | .undecodableSuccess _ _ => .transient
  | other => classifyUploadError other

/-- `MAX_BACKOFF_SECS`. -/
def maxBackoffSecs : ℚ := 1000000000000000

/-- `apply_jitter`. -/
def applyJitter (base : StdDuration) (jitterFraction : ℚ) (now : DateTime) : Option StdDuration :=
  if jitterFraction ≤ 0 then some base
  else
    let normalized : ℚ := (now.subsecNanos : ℚ) / 500000000 - 1
    let factor := 1 + max (-1) (min 1 normalized) * jitterFraction
    StdDuration.fromSecsF64 (base.asSecsF64 * max 0 factor)

/-- `u64::cast_signed`. -/
def castSigned (n : ℕ) : ℤ := if n < 2 ^ 63 then n else (n : ℤ) - 2 ^ 64

namespace BackoffSchedule

/-- `base_delay`. -/
def baseDelay (self : BackoffSchedule) (attempt : UInt32) : Option StdDuration :=
  let exp := min (saturatingSub32 attempt 1).toNat 2147483647
  let baseSecs := self.initialDelay.asSecsF64 * self.multiplier ^ exp
  let capped := min baseSecs self.maxAttemptDelay.asSecsF64
  StdDuration.fromSecsF64 (max 0 (min maxBackoffSecs capped))

/-- The attempt count or the wall-clock budget of the clip is used up at `now`. -/
def budgetExhausted (self : BackoffSchedule) (now : DateTime) (attempt : UInt32)
    (firstAttemptAt : Option DateTime) : Bool :=
  self.perClipMaxAttempts ≤ attempt ∨
    firstAttemptAt.any fun first => self.perClipMaxWallclock ≤ (now.since first).toStdOrZero

/-- The delay before the next attempt, with the `Retry-After` floor. -/
def retryDelay (self : BackoffSchedule) (now : DateTime) (attempt : UInt32)
    (retryAfterFloor : Option StdDuration) : Option TimeDelta := do
  let base ← self.baseDelay attempt
  let jittered ← applyJitter base self.jitterFraction now
  let delay : StdDuration := match retryAfterFloor with
    | some floor => if floor > jittered then floor else jittered
    | none => jittered
  match TimeDelta.fromStd delay with
  | some d => some d
  | none => TimeDelta.seconds (castSigned (self.maxAttemptDelay / nanosPerSec))

/-- `schedule`, with its clock reading. -/
def schedule (self : BackoffSchedule) (now : DateTime) (attempt : UInt32)
    (firstAttemptAt : Option DateTime) (retryAfterFloor : Option StdDuration) :
    Option NextAction :=
  if self.budgetExhausted now attempt firstAttemptAt then some .exhausted
  else do
    let delay ← self.retryDelay now attempt retryAfterFloor
    let next ← now.add delay
    return .retry next

/-- The instant of the next attempt can be computed and represented. -/
def Representable (self : BackoffSchedule) (now : DateTime) (attempt : UInt32)
    (retryAfterFloor : Option StdDuration) : Prop :=
  ∃ delay next, self.retryDelay now attempt retryAfterFloor = some delay ∧ now.add delay = some next

theorem exists_schedule_eq_retry {self : BackoffSchedule} {now : DateTime} {attempt : UInt32}
    {firstAttemptAt : Option DateTime} {retryAfterFloor : Option StdDuration}
    (hb : self.budgetExhausted now attempt firstAttemptAt = false)
    (h : self.Representable now attempt retryAfterFloor) :
    ∃ next, self.schedule now attempt firstAttemptAt retryAfterFloor = some (.retry next) := by
  obtain ⟨delay, next, hdelay, hnext⟩ := h
  exact ⟨next, by simp [schedule, hb, hdelay, hnext]⟩

/-- The schedule gives up exactly if a budget is used up. -/
theorem schedule_eq_exhausted_iff (self : BackoffSchedule) (now : DateTime) (attempt : UInt32)
    (firstAttemptAt : Option DateTime) (retryAfterFloor : Option StdDuration) :
    self.schedule now attempt firstAttemptAt retryAfterFloor = some .exhausted ↔
      self.budgetExhausted now attempt firstAttemptAt = true := by
  unfold schedule
  split_ifs with h
  · simp [h]
  · refine iff_of_false (fun h' => ?_) h
    simp only [Option.pure_def, Option.bind_eq_bind, Option.bind_eq_some_iff] at h'
    obtain ⟨d, -, next, -, heq⟩ := h'
    exact absurd (Option.some.inj heq) (by simp)

end BackoffSchedule

/-! ## The classification tables -/

/-- The statuses a client error is retried for, as a list. -/
theorem classifyStatus_eq_transient_iff (status : UInt16) :
    classifyStatus status = .transient ↔
      (200 ≤ status ∧ status ≤ 299) ∨ status = 408 ∨ status = 425 ∨ status = 429 ∨
        status = 500 ∨ status = 502 ∨ status = 503 ∨ status = 504 := by
  unfold classifyStatus
  split_ifs with h1 h2
  · simp [h1]
  · simp [h2]
  · exact iff_of_false (by simp) (not_or.mpr ⟨h1, h2⟩)

end Perchstation
