import Perchstation.Capture.Sensor
import Perchstation.Delivery.Classify
import Perchstation.Queue.Policy

/-!
# Config — the operator's configuration and its validation (`config.rs`)

The numeric fields `validate` looks at, the values shipped as defaults, and what the delivery side
builds from them.
-/

namespace Perchstation

inductive ConfigError
  | missingRequired (field : String)
  | outOfRange (field reason : String)
  deriving DecidableEq, Repr

/-- The `Display` form. -/
def ConfigError.display : ConfigError → String
  | .missingRequired field => "config field `" ++ field ++ "` is required but missing"
  | .outOfRange field reason => "config field `" ++ field ++ "` is out of range: " ++ reason

structure QueueConfig where
  maxClips : UInt32
  maxBytes : UInt64
  eviction : EvictionPolicy
  deliveredRetentionHours : UInt64

structure RetryConfig where
  initialDelaySecs : UInt64
  maxAttemptDelaySecs : UInt64
  perClipMaxAttempts : UInt32
  perClipMaxWallclockHours : UInt64

structure CaptureConfig where
  clipDurationSecs : UInt64
  hangMarginSecs : UInt64
  cooldownSecs : UInt64
  livenessStuckSecs : UInt64
  livenessPollSecs : UInt64

/-- `Config` of `config.rs`. -/
structure OperatorConfig where
  perchpubUrl : Option String
  queue : QueueConfig
  retry : RetryConfig
  capture : CaptureConfig

def QueueConfig.default : QueueConfig where
  maxClips := 500
  maxBytes := 2147483648
  eviction := .dropOldestUndelivered
  deliveredRetentionHours := 168

def RetryConfig.default : RetryConfig where
  initialDelaySecs := 10
  maxAttemptDelaySecs := 3600
  perClipMaxAttempts := 12
  perClipMaxWallclockHours := 24

def CaptureConfig.default : CaptureConfig where
  clipDurationSecs := 8
  hangMarginSecs := 2
  cooldownSecs := 30
  livenessStuckSecs := 300
  livenessPollSecs := 5

def OperatorConfig.default : OperatorConfig := ⟨none, .default, .default, .default⟩

/-- `MAX_CLIP_DURATION_SECS`. -/
def maxClipDurationSecs : UInt64 := 3600

/-- `MAX_HANG_MARGIN_SECS`. -/
def maxHangMarginSecs : UInt64 := 600

/-- `MAX_WALLCLOCK_HOURS`. -/
def maxWallclockHours : UInt64 := 8760

/-- `MAX_RETRY_DELAY_SECS`. -/
def maxRetryDelaySecs : UInt64 := 604800

/-- One check of `validate`. -/
def inRange (ok : Bool) (field reason : String) : Except ConfigError Unit :=
  if ok then .ok () else .error (.outOfRange field reason)

namespace OperatorConfig

def validate (self : OperatorConfig) : Except ConfigError Unit := do
  inRange (self.queue.maxClips ≠ 0) "queue.max_clips" "must be >= 1"
  inRange (self.queue.maxBytes ≠ 0) "queue.max_bytes" "must be >= 1"
  inRange (1 ≤ self.queue.deliveredRetentionHours ∧
    self.queue.deliveredRetentionHours ≤ maxWallclockHours)
    "queue.delivered_retention_hours" "must be in 1..=8760"
  inRange (1 ≤ self.capture.clipDurationSecs ∧ self.capture.clipDurationSecs ≤ maxClipDurationSecs)
    "capture.clip_duration_secs" "must be in 1..=3600"
  inRange (self.capture.hangMarginSecs ≤ maxHangMarginSecs)
    "capture.hang_margin_secs" "must be <= 600"
  inRange (self.capture.cooldownSecs ≠ 0) "capture.cooldown_secs" "must be >= 1"
  inRange (self.capture.livenessStuckSecs ≠ 0) "capture.liveness_stuck_secs" "must be >= 1"
  inRange (self.capture.livenessPollSecs ≠ 0) "capture.liveness_poll_secs" "must be >= 1"
  inRange (self.retry.perClipMaxAttempts ≠ 0) "retry.per_clip_max_attempts" "must be >= 1"
  inRange (1 ≤ self.retry.perClipMaxWallclockHours ∧
    self.retry.perClipMaxWallclockHours ≤ maxWallclockHours)
    "retry.per_clip_max_wallclock_hours" "must be in 1..=8760"
  inRange (self.retry.maxAttemptDelaySecs ≤ maxRetryDelaySecs)
    "retry.max_attempt_delay_secs" "must be <= 604800 (7 days)"
  inRange (self.retry.initialDelaySecs ≤ self.retry.maxAttemptDelaySecs)
    "retry.initial_delay_secs" "must be <= retry.max_attempt_delay_secs"

def ensureRuntimeReady (self : OperatorConfig) : Except ConfigError Unit :=
  if self.perchpubUrl.all fun url => url.isEmpty then .error (.missingRequired "perchpub_url")
  else self.validate

/-- What `validate` bounds. -/
structure Valid (cfg : OperatorConfig) : Prop where
  maxClips : 1 ≤ cfg.queue.maxClips.toNat
  maxBytes : 1 ≤ cfg.queue.maxBytes.toNat
  retention_pos : 1 ≤ cfg.queue.deliveredRetentionHours.toNat
  retention_le : cfg.queue.deliveredRetentionHours.toNat ≤ 8760
  clipDuration_pos : 1 ≤ cfg.capture.clipDurationSecs.toNat
  clipDuration_le : cfg.capture.clipDurationSecs.toNat ≤ 3600
  hangMargin_le : cfg.capture.hangMarginSecs.toNat ≤ 600
  cooldown_pos : 1 ≤ cfg.capture.cooldownSecs.toNat
  livenessStuck_pos : 1 ≤ cfg.capture.livenessStuckSecs.toNat
  livenessPoll_pos : 1 ≤ cfg.capture.livenessPollSecs.toNat
  attempts_pos : 1 ≤ cfg.retry.perClipMaxAttempts.toNat
  wallclock_pos : 1 ≤ cfg.retry.perClipMaxWallclockHours.toNat
  wallclock_le : cfg.retry.perClipMaxWallclockHours.toNat ≤ 8760
  attemptDelay_le : cfg.retry.maxAttemptDelaySecs.toNat ≤ 604800
  initialDelay_le : cfg.retry.initialDelaySecs.toNat ≤ cfg.retry.maxAttemptDelaySecs.toNat

end OperatorConfig

theorem inRange_eq_ok_iff {ok : Bool} {field reason : String} :
    inRange ok field reason = .ok () ↔ ok = true := by
  cases ok <;> simp [inRange]

theorem inRange_bind_eq_ok_iff {ok : Bool} {field reason : String}
    {rest : Unit → Except ConfigError Unit} :
    (inRange ok field reason >>= rest) = .ok () ↔ ok = true ∧ rest () = .ok () := by
  cases ok <;> simp [inRange, bind, Except.bind]

theorem UInt32.ne_zero_iff {n : UInt32} : n ≠ 0 ↔ 1 ≤ n.toNat := by
  rw [ne_eq, ← UInt32.toNat_inj]
  show ¬ n.toNat = 0 ↔ _
  omega

theorem UInt64.ne_zero_iff {n : UInt64} : n ≠ 0 ↔ 1 ≤ n.toNat := by
  rw [ne_eq, ← UInt64.toNat_inj]
  show ¬ n.toNat = 0 ↔ _
  omega

/-- `validate` accepts exactly what is in bounds. -/
theorem OperatorConfig.validate_eq_ok_iff {cfg : OperatorConfig} :
    cfg.validate = .ok () ↔ cfg.Valid := by
  unfold validate
  simp only [inRange_bind_eq_ok_iff, inRange_eq_ok_iff, decide_eq_true_eq, UInt32.ne_zero_iff,
    UInt64.ne_zero_iff, UInt64.le_iff_toNat_le]
  constructor
  · rintro ⟨h1, h2, ⟨h3, h4⟩, ⟨h5, h6⟩, h7, h8, h9, h10, h11, ⟨h12, h13⟩, h14, h15⟩
    exact ⟨h1, h2, h3, h4, h5, h6, h7, h8, h9, h10, h11, h12, h13, h14, h15⟩
  · intro h
    exact ⟨h.maxClips, h.maxBytes, ⟨h.retention_pos, h.retention_le⟩,
      ⟨h.clipDuration_pos, h.clipDuration_le⟩, h.hangMargin_le, h.cooldown_pos, h.livenessStuck_pos,
      h.livenessPoll_pos, h.attempts_pos, ⟨h.wallclock_pos, h.wallclock_le⟩, h.attemptDelay_le,
      h.initialDelay_le⟩

/-- The defaults pass their own checks. -/
theorem OperatorConfig.validate_default : OperatorConfig.default.validate = .ok () := by decide

/-! ## What is built from a configuration -/

/-- `u64::saturating_mul`. -/
def saturatingMul64 (a b : UInt64) : UInt64 :=
  if a.toNat * b.toNat < 2 ^ 64 then a * b else 18446744073709551615

/-- `from_config`. -/
def BackoffSchedule.fromConfig (cfg : RetryConfig) : BackoffSchedule where
  initialDelay := .fromSecs cfg.initialDelaySecs.toNat
  maxAttemptDelay := .fromSecs cfg.maxAttemptDelaySecs.toNat
  multiplier := 2
  jitterFraction := 1 / 5
  perClipMaxAttempts := cfg.perClipMaxAttempts
  perClipMaxWallclock := .fromSecs (saturatingMul64 cfg.perClipMaxWallclockHours 3600).toNat

/-- `with_delivered_retention_hours`: `i64::try_from(hours).unwrap_or(i64::MAX)`. -/
def ClassifyPoller.withDeliveredRetentionHours (hours : UInt64) : ℤ :=
  min (hours.toNat : ℤ) (2 ^ 63 - 1)

theorem saturatingMul64_toNat (a b : UInt64) :
    (saturatingMul64 a b).toNat = min (a.toNat * b.toNat) (2 ^ 64 - 1) := by
  unfold saturatingMul64
  split_ifs with h
  · rw [UInt64.toNat_mul, Nat.mod_eq_of_lt h]
    omega
  · show 18446744073709551615 = _
    omega

end Perchstation
