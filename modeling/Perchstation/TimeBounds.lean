import Mathlib.Tactic.FieldSimp
import Mathlib.Tactic.Positivity
import Mathlib.Tactic.NormNum
import Perchstation.Config

/-!
# Time bounds — the time arithmetic an accepted configuration feeds

The backoff schedule and the liveness clock stay in range for every configuration `validate` accepts.
The cooldown and the stuck threshold are bounded from below only, so a large one leaves the range of
chrono's instants or durations.
-/

namespace Perchstation

/-- The last instant of year 9999. -/
def endOfYear9999 : ℤ := 253402300799 * nanosPerSec + 999999999

/-! ## Durations -/

/-- Up to a bound below `2^64` the conversion succeeds and rounds to a nanosecond. -/
theorem StdDuration.exists_fromSecsF64 {q : ℚ} {n : ℕ} (hpos : 0 ≤ q) (hle : q ≤ n)
    (hn : n < 2 ^ 64) : ∃ d : ℕ, fromSecsF64 q = some d ∧ d ≤ n * nanosPerSec := by
  have hlt : q < 2 ^ 64 := lt_of_le_of_lt hle (by exact_mod_cast hn)
  refine ⟨_, if_pos ⟨hpos, hlt⟩, ?_⟩
  have hfloor : (q * nanosPerSec + 1 / 2).floor < (n * nanosPerSec : ℕ) + (1 : ℤ) := by
    refine Rat.floor_lt_iff.mpr ?_
    have hscaled : q * nanosPerSec ≤ n * nanosPerSec :=
      mul_le_mul_of_nonneg_right hle (Nat.cast_nonneg _)
    push_cast
    linarith
  have hnat : (q * nanosPerSec + 1 / 2).floor ≤ ((n * nanosPerSec : ℕ) : ℤ) := by omega
  exact Int.toNat_le.mpr hnat

theorem StdDuration.asSecsF64_nonneg (d : StdDuration) : 0 ≤ asSecsF64 d := by
  unfold asSecsF64
  positivity

theorem StdDuration.asSecsF64_le {d : StdDuration} {n : ℕ} (h : d ≤ n * nanosPerSec) :
    asSecsF64 d ≤ n := by
  unfold asSecsF64
  have hpos : (0 : ℚ) < nanosPerSec := by norm_num [nanosPerSec]
  rw [div_le_iff₀ hpos]
  exact_mod_cast h

/-- Two instants are never a chrono duration apart. -/
theorem DateTime.since_bounds (t s : DateTime) : -maxDelta ≤ t.since s ∧ t.since s ≤ maxDelta := by
  have ht := t.2
  have hs := s.2
  show -maxDelta ≤ t.1 - s.1 ∧ t.1 - s.1 ≤ maxDelta
  unfold minUtc maxUtc nanosPerSec at ht hs
  unfold maxDelta
  push_cast at ht hs
  constructor <;> omega

/-! ## The backoff schedule -/

namespace BackoffSchedule

/-- The base delay never panics, and is at most the delay ceiling where that is whole seconds. -/
theorem exists_baseDelay {self : BackoffSchedule} {n : ℕ} (hmax : self.maxAttemptDelay = .fromSecs n)
    (hn : n < 2 ^ 64) (attempt : UInt32) :
    ∃ d : ℕ, self.baseDelay attempt = some d ∧ d ≤ n * nanosPerSec := by
  have hcap : self.maxAttemptDelay.asSecsF64 ≤ n :=
    StdDuration.asSecsF64_le (by rw [hmax, StdDuration.fromSecs])
  refine StdDuration.exists_fromSecsF64 (le_max_left _ _) ?_ hn
  refine max_le (Nat.cast_nonneg n) ?_
  exact (min_le_right _ _).trans ((min_le_right _ _).trans hcap)

theorem exists_applyJitter {base : StdDuration} {j : ℚ} {n : ℕ} (hbase : base ≤ n * nanosPerSec)
    (hj : j ≤ 1) (hn : 2 * n < 2 ^ 64) (now : DateTime) :
    ∃ d : ℕ, applyJitter base j now = some d ∧ d ≤ 2 * n * nanosPerSec := by
  unfold applyJitter
  split_ifs with h0
  · exact ⟨base, rfl, hbase.trans (Nat.mul_le_mul_right _ (by omega))⟩
  · dsimp only
    have hbase' := StdDuration.asSecsF64_le hbase
    have hnonneg := StdDuration.asSecsF64_nonneg base
    generalize hx : max (-1) (min 1 ((now.subsecNanos : ℚ) / 500000000 - 1)) = x
    have hx1 : x ≤ 1 := by
      rw [← hx]
      exact max_le (by norm_num) (min_le_left _ _)
    have hfactor : max 0 (1 + x * j) ≤ 2 := by
      refine max_le (by norm_num) ?_
      have hxj : x * j ≤ 1 * j := mul_le_mul_of_nonneg_right hx1 (by linarith)
      linarith
    refine StdDuration.exists_fromSecsF64 (mul_nonneg hnonneg (le_max_left _ _)) ?_ hn
    have hprod := mul_le_mul hbase' hfactor (le_max_left _ _) (Nat.cast_nonneg n)
    push_cast
    linarith

/-- Without a `Retry-After` a schedule with a delay ceiling of `n` seconds answers at `now` if `2n`
seconds later is an instant. -/
theorem exists_schedule {self : BackoffSchedule} {n : ℕ} {now : DateTime}
    (hmax : self.maxAttemptDelay = .fromSecs n) (hj : self.jitterFraction ≤ 1)
    (hn : 2 * n < 2 ^ 33) (hnow : now.1 + 2 * n * nanosPerSec ≤ maxUtc) (attempt : UInt32)
    (firstAttemptAt : Option DateTime) :
    ∃ action, self.schedule now attempt firstAttemptAt none = some action := by
  unfold schedule
  split_ifs
  · exact ⟨_, rfl⟩
  · obtain ⟨base, hbase, hbase'⟩ := exists_baseDelay hmax (by omega) attempt
    obtain ⟨d, hd, hd'⟩ := exists_applyJitter hbase' hj (by omega) now
    have hstd : TimeDelta.fromStd d = some (d : ℤ) := by
      refine if_pos ?_
      unfold nanosPerSec at hd'
      unfold maxDelta
      omega
    have hdelay : self.retryDelay now attempt none = some (d : ℤ) := by
      simp [retryDelay, hbase, hd, hstd]
    have hadd : ∃ next, now.add (d : ℤ) = some next := by
      refine ⟨_, dif_pos ⟨?_, ?_⟩⟩
      · have hlow := now.2.1
        omega
      · have hd'' : (d : ℤ) ≤ 2 * n * nanosPerSec := by exact_mod_cast hd'
        omega
    obtain ⟨next, hnext⟩ := hadd
    exact ⟨.retry next, by simp [hdelay, hnext]⟩

end BackoffSchedule

/-! ## Cooldown, liveness and retention -/

theorem TimeDelta.seconds_isSome_iff {secs : ℤ} :
    (TimeDelta.seconds secs).isSome ↔ -9223372036854775 ≤ secs ∧ secs ≤ 9223372036854775 := by
  unfold seconds
  split_ifs with h <;> simp [h]

theorem DateTime.add_isSome_iff {t : DateTime} {d : TimeDelta} :
    (t.add d).isSome ↔ minUtc ≤ t.1 + d ∧ t.1 + d ≤ maxUtc := by
  unfold add
  split_ifs with h
  · exact iff_of_true rfl h
  · exact iff_of_false (by simp) h

/-- A delay of `secs` seconds from `now` is an instant exactly if it does not leave chrono's range. -/
theorem DateTime.add_seconds_isSome_iff {now : DateTime} {secs : ℤ} :
    ((TimeDelta.seconds secs).bind now.add).isSome ↔
      minUtc ≤ now.1 + secs * nanosPerSec ∧ now.1 + secs * nanosPerSec ≤ maxUtc := by
  have hnow := now.2
  constructor
  · intro h
    obtain ⟨t, ht⟩ := Option.isSome_iff_exists.mp h
    obtain ⟨d, hd, hadd⟩ := Option.bind_eq_some_iff.mp ht
    have hsecs := TimeDelta.seconds_isSome_iff.mp (Option.isSome_of_eq_some hd)
    obtain rfl : secs * nanosPerSec = d := by
      unfold TimeDelta.seconds at hd
      rw [if_pos hsecs] at hd
      exact Option.some.inj hd
    exact add_isSome_iff.mp (Option.isSome_of_eq_some hadd)
  · intro h
    have hsecs : -9223372036854775 ≤ secs ∧ secs ≤ 9223372036854775 := by
      unfold minUtc maxUtc nanosPerSec at *
      push_cast at *
      omega
    have hd : TimeDelta.seconds secs = some (secs * nanosPerSec) := if_pos hsecs
    rw [hd]
    exact add_isSome_iff.mpr h

/-- The time arithmetic at the clock reading `now` stays in range: the durations of the schedule are
the configured ones, and the schedule, the cooldown, the tracker, its observations and the retention
cutoff do not panic. -/
structure TimeArithmetic (cfg : OperatorConfig) (now : DateTime) : Prop where
  wallclock : (BackoffSchedule.fromConfig cfg.retry).perClipMaxWallclock =
    .fromSecs (cfg.retry.perClipMaxWallclockHours.toNat * 3600)
  schedule : ∀ attempt firstAttemptAt, ∃ action,
    (BackoffSchedule.fromConfig cfg.retry).schedule now attempt firstAttemptAt none = some action
  cooldown : ∀ c : CooldownState, ∃ c', c.startAfter now cfg.capture.cooldownSecs = some c'
  tracker : ∃ tracker, SensorLivenessTracker.new cfg.capture.livenessStuckSecs = some tracker
  observations : ∀ startedAt, -maxDelta ≤ now.since startedAt ∧ now.since startedAt ≤ maxDelta
  cutoff : ∃ cutoff, ClassifyPoller.pruneCutoff
    (ClassifyPoller.withDeliveredRetentionHours cfg.queue.deliveredRetentionHours) now = some cutoff

theorem CooldownState.exists_startAfter_iff {c : CooldownState} {now : DateTime} {secs : UInt64} :
    (∃ c', c.startAfter now secs = some c') ↔ now.1 + secs.toNat * nanosPerSec ≤ maxUtc := by
  have hiff : (∃ c', c.startAfter now secs = some c') ↔
      ((TimeDelta.seconds (clampedSecs secs)).bind now.add).isSome := by
    unfold startAfter
    cases TimeDelta.seconds (clampedSecs secs) with
    | none => simp
    | some delta => cases h : now.add delta <;> simp [h]
  rw [hiff, DateTime.add_seconds_isSome_iff]
  have hnow := now.2
  -- a clamped number of seconds is out of chrono's range already
  unfold clampedSecs
  unfold minUtc maxUtc nanosPerSec at *
  push_cast at *
  omega

theorem SensorLivenessTracker.exists_new_iff {secs : UInt64} :
    (∃ tracker, SensorLivenessTracker.new secs = some tracker) ↔
      secs.toNat ≤ 9223372036854775 := by
  have hiff : (∃ tracker, SensorLivenessTracker.new secs = some tracker) ↔
      (TimeDelta.seconds (clampedSecs secs)).isSome := by
    unfold new
    cases TimeDelta.seconds (clampedSecs secs) <;> simp
  rw [hiff, TimeDelta.seconds_isSome_iff]
  unfold clampedSecs
  omega

theorem ClassifyPoller.exists_pruneCutoff_iff {hours : UInt64} (now : DateTime)
    (hhours : hours.toNat ≤ 8760) :
    (∃ cutoff, pruneCutoff (withDeliveredRetentionHours hours) now = some cutoff) ↔
      minUtc + hours.toNat * 3600 * nanosPerSec ≤ now.1 := by
  have hsecs : saturatingMulI64 (withDeliveredRetentionHours hours) 3600 = hours.toNat * 3600 := by
    unfold saturatingMulI64 withDeliveredRetentionHours
    omega
  have hdelta : TimeDelta.seconds (hours.toNat * 3600) =
      some ((hours.toNat * 3600 : ℤ) * nanosPerSec) := if_pos (by omega)
  have hiff : (∃ cutoff, pruneCutoff (withDeliveredRetentionHours hours) now = some cutoff) ↔
      (now.sub ((hours.toNat * 3600 : ℤ) * nanosPerSec)).isSome := by
    unfold pruneCutoff
    rw [hsecs, hdelta]
    exact Option.isSome_iff_exists.symm
  rw [hiff]
  unfold DateTime.sub
  rw [DateTime.add_isSome_iff]
  have hnow := now.2
  constructor
  · rintro ⟨hlow, -⟩
    omega
  · intro h
    have hpos : (0 : ℤ) ≤ hours.toNat * 3600 * nanosPerSec :=
      mul_nonneg (by omega) (Int.natCast_nonneg _)
    omega

/-- For every configuration `validate` accepts and every reading up to year 9999, the time arithmetic
stays in range exactly if the cooldown ends at an instant, the stuck threshold is a duration, and the
reading is a retention after the first instant. -/
theorem time_arithmetic_iff {cfg : OperatorConfig} {now : DateTime} (hvalid : cfg.validate = .ok ())
    (hnow : now.1 ≤ endOfYear9999) :
    TimeArithmetic cfg now ↔
      now.1 + cfg.capture.cooldownSecs.toNat * nanosPerSec ≤ maxUtc ∧
      cfg.capture.livenessStuckSecs.toNat ≤ 9223372036854775 ∧
      minUtc + cfg.queue.deliveredRetentionHours.toNat * 3600 * nanosPerSec ≤ now.1 := by
  have hbounds := OperatorConfig.validate_eq_ok_iff.mp hvalid
  have hcutoff := ClassifyPoller.exists_pruneCutoff_iff now hbounds.retention_le
  constructor
  · intro h
    exact ⟨CooldownState.exists_startAfter_iff.mp (h.cooldown .new),
      SensorLivenessTracker.exists_new_iff.mp h.tracker, hcutoff.mp h.cutoff⟩
  · rintro ⟨hcool, hstuck, hret⟩
    refine ⟨?_, ?_, fun c => CooldownState.exists_startAfter_iff.mpr hcool,
      SensorLivenessTracker.exists_new_iff.mpr hstuck, now.since_bounds, hcutoff.mpr hret⟩
    · have hmul := saturatingMul64_toNat cfg.retry.perClipMaxWallclockHours 3600
      have hle := hbounds.wallclock_le
      show StdDuration.fromSecs _ = _
      rw [hmul]
      congr 1
      show min (_ * 3600) _ = _
      omega
    · have hdelay := hbounds.attemptDelay_le
      refine BackoffSchedule.exists_schedule rfl ?_ (by omega) ?_
      · show (1 / 5 : ℚ) ≤ 1
        norm_num
      · unfold endOfYear9999 nanosPerSec at hnow
        unfold maxUtc nanosPerSec
        push_cast at *
        omega

/-- The defaults at the epoch. -/
theorem time_arithmetic_default :
    TimeArithmetic .default (.ofSecs 0 (by decide)) :=
  (time_arithmetic_iff (by decide) (by decide)).mpr
    ⟨by decide +kernel, by decide +kernel, by decide +kernel⟩

/-- An accepted cooldown with which the first `start_after` panics, at the epoch. -/
theorem accepted_cooldown_panics :
    ∃ cfg : OperatorConfig, cfg.validate = .ok () ∧
      CooldownState.new.startAfter (.ofSecs 0 (by decide)) cfg.capture.cooldownSecs = none :=
  ⟨{ OperatorConfig.default with
      capture := { CaptureConfig.default with cooldownSecs := 18446744073709551615 } },
    by decide, rfl⟩

end Perchstation
