import Mathlib.Tactic.FieldSimp
import Mathlib.Tactic.NormNum
import Mathlib.Tactic.Positivity
import Perchstation.Perchpub.Client
import Perchstation.TimeBounds

/-!
# Backoff — the retry times a validated schedule computes

A validated configuration is in whole seconds, doubles, and jitters by a fifth, so the delay is a
whole number of nanoseconds in closed form.  From it: how far a retry time is from the clock reading
under any `Retry-After`, and when two retry times keep the order of the readings they were computed
at.
-/

namespace Perchstation

/-! ## Instants and durations -/

theorem DateTime.subsecNanos_lt (now : DateTime) : now.subsecNanos < 1000000000 := by
  have hpos : (0 : ℤ) < nanosPerSec := by decide
  have h0 := Int.emod_nonneg now.1 hpos.ne'
  have h1 := Int.emod_lt_of_pos now.1 hpos
  unfold DateTime.subsecNanos
  unfold nanosPerSec at *
  push_cast at *
  omega

theorem DateTime.add_eq_some_iff {now t : DateTime} {d : TimeDelta} :
    now.add d = some t ↔ t.1 = now.1 + d := by
  have ht := t.2
  unfold DateTime.add
  constructor
  · intro h
    split_ifs at h with hrange
    exact congrArg Subtype.val (Option.some.inj h).symm
  · intro h
    rw [h] at ht
    rw [dif_pos ht]
    exact congrArg some (Subtype.ext h.symm)

theorem StdDuration.asSecsF64_fromSecs (secs : ℕ) : (fromSecs secs).asSecsF64 = secs := by
  have hne : (nanosPerSec : ℚ) ≠ 0 := by norm_num [nanosPerSec]
  unfold asSecsF64 fromSecs
  push_cast
  field_simp

/-- A multiple of a tenth of a nanosecond is rounded half up. -/
theorem StdDuration.fromSecsF64_tenths {m : ℕ} (hm : m < 2 ^ 64) :
    fromSecsF64 ((m : ℚ) / 10000000000) = some ((m + 5) / 10) := by
  have hlt : (m : ℚ) / 10000000000 < 2 ^ 64 := by
    have hcast : (m : ℚ) < 2 ^ 64 := by exact_mod_cast hm
    have hle : (m : ℚ) / 10000000000 ≤ m := div_le_self (Nat.cast_nonneg m) (by norm_num)
    linarith
  unfold fromSecsF64
  rw [if_pos ⟨by positivity, hlt⟩]
  have hscaled : (m : ℚ) / 10000000000 * nanosPerSec + 1 / 2 = ((m + 5 : ℕ) : ℚ) / (10 : ℕ) := by
    push_cast [nanosPerSec]
    ring
  have hfloor : (((m + 5 : ℕ) : ℚ) / (10 : ℕ)).floor = ((m + 5) / 10 : ℕ) := by
    rw [Int.natCast_ediv]
    exact Rat.floor_natCast_div_natCast (m + 5) 10
  rw [hscaled, hfloor, Int.toNat_natCast]

namespace BackoffSchedule

/-! ## The delay in closed form -/

/-- `min(initial * 2^(k-1), cap)` for attempt `k`, in seconds. -/
def baseSecs (cfg : RetryConfig) (attempt : UInt32) : ℕ :=
  min (cfg.initialDelaySecs.toNat * 2 ^ (attempt.toNat - 1)) cfg.maxAttemptDelaySecs.toNat

/-- What the jitter adds to four fifths of a base delay of `secs` seconds, `nanos` into the
second. -/
def jitterNanos (secs nanos : ℕ) : ℕ := (4 * secs * nanos + 5) / 10

/-- The jittered delay before attempt `k + 1`, in nanoseconds. -/
def delayNanos (cfg : RetryConfig) (attempt : UInt32) (now : DateTime) : ℕ :=
  800000000 * baseSecs cfg attempt + jitterNanos (baseSecs cfg attempt) now.subsecNanos

/-- The jittered delay, or the floor where that is longer. -/
def flooredDelay (cfg : RetryConfig) (attempt : UInt32) (now : DateTime)
    (floor : Option StdDuration) : ℕ :=
  max (floor.getD 0) (delayNanos cfg attempt now)

theorem baseSecs_le (cfg : RetryConfig) (attempt : UInt32) :
    baseSecs cfg attempt ≤ cfg.maxAttemptDelaySecs.toNat :=
  min_le_right _ _

/-- The exponent is cut off at `i32::MAX`, where the cap has long been reached. -/
theorem baseSecs_eq_min_exp {cfg : RetryConfig} (hmax : cfg.maxAttemptDelaySecs.toNat ≤ 604800)
    (attempt : UInt32) :
    baseSecs cfg attempt =
      min (cfg.initialDelaySecs.toNat * 2 ^ min (saturatingSub32 attempt 1).toNat 2147483647)
        cfg.maxAttemptDelaySecs.toNat := by
  have hsub : (saturatingSub32 attempt 1).toNat = attempt.toNat - 1 :=
    saturatingSub32_toNat attempt 1
  rw [hsub, baseSecs]
  generalize attempt.toNat - 1 = k
  by_cases hk : k ≤ 2147483647
  · have hexp : min k 2147483647 = k := min_eq_left hk
    rw [hexp]
  · have hexp : min k 2147483647 = 2147483647 := min_eq_right (by omega)
    rw [hexp]
    rcases Nat.eq_zero_or_pos cfg.initialDelaySecs.toNat with hzero | hpos
    · simp only [hzero, Nat.zero_mul]
    · -- both powers exceed the cap
      have hover : ∀ e, 2147483647 ≤ e →
          cfg.maxAttemptDelaySecs.toNat ≤ cfg.initialDelaySecs.toNat * 2 ^ e := by
        intro e he
        have hlt : e < 2 ^ e := Nat.lt_two_pow_self
        have hmul : 1 * 2 ^ e ≤ cfg.initialDelaySecs.toNat * 2 ^ e := Nat.mul_le_mul_right _ hpos
        omega
      rw [min_eq_right (hover k (by omega)), min_eq_right (hover _ le_rfl)]

theorem baseDelay_fromConfig {cfg : RetryConfig} (hmax : cfg.maxAttemptDelaySecs.toNat ≤ 604800)
    (attempt : UInt32) :
    (fromConfig cfg).baseDelay attempt = some (baseSecs cfg attempt * nanosPerSec) := by
  have hle := (baseSecs_le cfg attempt).trans hmax
  have hcapped : min ((fromConfig cfg).initialDelay.asSecsF64 * (fromConfig cfg).multiplier ^
      min (saturatingSub32 attempt 1).toNat 2147483647) (fromConfig cfg).maxAttemptDelay.asSecsF64 =
      (baseSecs cfg attempt : ℚ) := by
    rw [baseSecs_eq_min_exp hmax]
    show min ((StdDuration.fromSecs _).asSecsF64 * 2 ^ _) (StdDuration.fromSecs _).asSecsF64 = _
    rw [StdDuration.asSecsF64_fromSecs, StdDuration.asSecsF64_fromSecs]
    generalize min (saturatingSub32 attempt 1).toNat 2147483647 = e
    push_cast
    rfl
  unfold baseDelay
  dsimp only
  rw [hcapped]
  have hbound : (baseSecs cfg attempt : ℚ) ≤ maxBackoffSecs := by
    have hcast : (baseSecs cfg attempt : ℚ) ≤ 604800 := by exact_mod_cast hle
    unfold maxBackoffSecs
    linarith
  rw [min_eq_right hbound, max_eq_right (Nat.cast_nonneg _)]
  have htenths : (baseSecs cfg attempt : ℚ) =
      ((baseSecs cfg attempt * 10000000000 : ℕ) : ℚ) / 10000000000 := by
    push_cast
    field_simp
  rw [htenths, StdDuration.fromSecsF64_tenths (by omega)]
  unfold nanosPerSec
  congr 1
  omega

theorem applyJitter_fromConfig {secs : ℕ} (hsecs : secs ≤ 604800) (now : DateTime) :
    applyJitter (secs * nanosPerSec) (1 / 5) now =
      some (800000000 * secs + jitterNanos secs now.subsecNanos) := by
  have hsub := DateTime.subsecNanos_lt now
  unfold applyJitter
  rw [if_neg (by norm_num)]
  dsimp only
  generalize now.subsecNanos = n at *
  have hn : (n : ℚ) ≤ 1000000000 := by exact_mod_cast hsub.le
  have hn0 : (0 : ℚ) ≤ n := Nat.cast_nonneg n
  have hnorm : max (-1) (min 1 ((n : ℚ) / 500000000 - 1)) = (n : ℚ) / 500000000 - 1 := by
    rw [min_eq_right (by linarith), max_eq_right (by linarith)]
  have hbase : StdDuration.asSecsF64 (secs * nanosPerSec) = secs :=
    StdDuration.asSecsF64_fromSecs secs
  rw [hnorm, hbase, max_eq_right (by linarith)]
  have htenths : (secs : ℚ) * (1 + ((n : ℚ) / 500000000 - 1) * (1 / 5)) =
      ((8000000000 * secs + 4 * secs * n : ℕ) : ℚ) / 10000000000 := by
    push_cast
    ring
  have hprod : 4 * secs * n ≤ 4 * 604800 * 1000000000 :=
    Nat.mul_le_mul (by omega) hsub.le
  rw [htenths, StdDuration.fromSecsF64_tenths (by omega)]
  unfold jitterNanos
  congr 1
  omega

/-- Four fifths of the base delay at least, six fifths at most. -/
theorem delayNanos_bounds (cfg : RetryConfig) (attempt : UInt32) (now : DateTime) :
    800000000 * baseSecs cfg attempt ≤ delayNanos cfg attempt now ∧
      delayNanos cfg attempt now ≤ 1200000000 * baseSecs cfg attempt := by
  have hsub := DateTime.subsecNanos_lt now
  unfold delayNanos jitterNanos
  generalize baseSecs cfg attempt = secs
  have hprod : 4 * secs * now.subsecNanos ≤ 4 * secs * 1000000000 :=
    Nat.mul_le_mul_left _ hsub.le
  constructor <;> omega

/-- The delay of a validated schedule: the larger of the jittered delay and the floor where that is a
chrono duration, the cap otherwise. -/
theorem retryDelay_fromConfig {cfg : RetryConfig} (hmax : cfg.maxAttemptDelaySecs.toNat ≤ 604800)
    (now : DateTime) (attempt : UInt32) (floor : Option StdDuration) :
    (fromConfig cfg).retryDelay now attempt floor =
      if (flooredDelay cfg attempt now floor : ℤ) ≤ maxDelta then
        some (flooredDelay cfg attempt now floor : ℤ)
      else some (cfg.maxAttemptDelaySecs.toNat * nanosPerSec : ℤ) := by
  have hbase := baseDelay_fromConfig hmax attempt
  have hjitter : applyJitter (baseSecs cfg attempt * nanosPerSec) (1 / 5) now =
      some (delayNanos cfg attempt now) :=
    applyJitter_fromConfig ((baseSecs_le cfg attempt).trans hmax) now
  have hcap : TimeDelta.seconds (castSigned ((fromConfig cfg).maxAttemptDelay / nanosPerSec)) =
      some (cfg.maxAttemptDelaySecs.toNat * nanosPerSec : ℤ) := by
    have hdiv : (fromConfig cfg).maxAttemptDelay / nanosPerSec = cfg.maxAttemptDelaySecs.toNat :=
      Nat.mul_div_cancel _ (by decide)
    have hsigned : castSigned cfg.maxAttemptDelaySecs.toNat = cfg.maxAttemptDelaySecs.toNat :=
      if_pos (by omega)
    rw [hdiv, hsigned]
    exact if_pos ⟨by omega, by omega⟩
  unfold retryDelay
  rw [hbase, hcap]
  show (applyJitter _ (1 / 5) now).bind _ = _
  rw [hjitter]
  show (bind (some _) _ : Option TimeDelta) = _
  unfold flooredDelay
  cases floor with
  | none =>
    rw [Option.getD_none, Nat.zero_max]
    dsimp only [Option.bind_some, Option.bind_eq_bind]
    unfold TimeDelta.fromStd
    split_ifs with hrange
    · rfl
    · rfl
  | some f =>
    have hmaxIf : (if f > delayNanos cfg attempt now then f else delayNanos cfg attempt now) =
        max f (delayNanos cfg attempt now) := by
      split_ifs with h
      · exact (max_eq_left (Nat.le_of_lt h)).symm
      · exact (max_eq_right (Nat.le_of_not_lt h)).symm
    rw [Option.getD_some]
    dsimp only [Option.bind_some, Option.bind_eq_bind]
    rw [hmaxIf]
    unfold TimeDelta.fromStd
    split_ifs with hrange
    · rfl
    · rfl

/-! ## The retry time -/

theorem schedule_eq_retry_iff {self : BackoffSchedule} {now : DateTime} {attempt : UInt32}
    {first : Option DateTime} {floor : Option StdDuration} {t : DateTime} :
    self.schedule now attempt first floor = some (.retry t) ↔
      self.budgetExhausted now attempt first = false ∧
        ∃ delay, self.retryDelay now attempt floor = some delay ∧ t.1 = now.1 + delay := by
  unfold schedule
  cases self.budgetExhausted now attempt first with
  | true => simp
  | false =>
    simp only [Bool.false_eq_true, if_false, true_and, Option.bind_eq_bind, Option.pure_def,
      Option.bind_eq_some_iff, Option.some.injEq, NextAction.retry.injEq, exists_eq_right,
      DateTime.add_eq_some_iff]

/-- The retry times of a validated schedule whose delay is a chrono duration. -/
theorem schedule_fromConfig {cfg : RetryConfig} (hmax : cfg.maxAttemptDelaySecs.toNat ≤ 604800)
    {now : DateTime} {attempt : UInt32} {first : Option DateTime} {floor : Option StdDuration}
    {t : DateTime}
    (hdelta : (flooredDelay cfg attempt now floor : ℤ) ≤ maxDelta) :
    (fromConfig cfg).schedule now attempt first floor = some (.retry t) ↔
      (fromConfig cfg).budgetExhausted now attempt first = false ∧
        t.1 = now.1 + flooredDelay cfg attempt now floor := by
  rw [schedule_eq_retry_iff, retryDelay_fromConfig hmax, if_pos hdelta]
  simp only [Option.some.injEq, exists_eq_left']

/-- `schedule` does not panic, and a retry time is the base delay after the reading, four to six
fifths of it, or the floor after the reading where that is later. -/
def WithinBounds (cfg : RetryConfig) (now : DateTime) (attempt : UInt32) (first : Option DateTime)
    (floor : Option StdDuration) : Prop :=
  ∃ action, (fromConfig cfg).schedule now attempt first floor = some action ∧
    ∀ t, action = .retry t →
      now.1 + (max (floor.getD 0) (800000000 * baseSecs cfg attempt) : ℕ) ≤ t.1 ∧
      t.1 ≤ now.1 + (max (floor.getD 0) (1200000000 * baseSecs cfg attempt) : ℕ)

/-- Up to year 9999 the delay without a floor never leaves the range of the instants. -/
theorem delay_lt_of_year9999 {cfg : RetryConfig} (hmax : cfg.maxAttemptDelaySecs.toNat ≤ 604800)
    {now : DateTime} (hnow : now.1 ≤ endOfYear9999) (attempt : UInt32) :
    now.1 + delayNanos cfg attempt now < maxUtc ∧ (delayNanos cfg attempt now : ℤ) < maxDelta := by
  have hle := (baseSecs_le cfg attempt).trans hmax
  have hdelay := (delayNanos_bounds cfg attempt now).2
  unfold endOfYear9999 nanosPerSec at hnow
  unfold maxUtc maxDelta nanosPerSec
  push_cast at *
  constructor <;> omega

theorem withinBounds_iff {cfg : RetryConfig} (hmax : cfg.maxAttemptDelaySecs.toNat ≤ 604800)
    {now : DateTime} (hnow : now.1 ≤ endOfYear9999) (attempt : UInt32) (first : Option DateTime)
    (floor : Option StdDuration) :
    WithinBounds cfg now attempt first floor ↔
      (fromConfig cfg).budgetExhausted now attempt first = true ∨
        now.1 + (floor.getD 0 : ℕ) ≤ maxUtc := by
  obtain ⟨hadd, hdelta⟩ := delay_lt_of_year9999 hmax hnow attempt
  obtain ⟨hlow, hhigh⟩ := delayNanos_bounds cfg attempt now
  have hnowRange := now.2
  by_cases hbudget : (fromConfig cfg).budgetExhausted now attempt first = true
  · -- an exhausted budget names no time
    refine iff_of_true ⟨.exhausted, (schedule_eq_exhausted_iff _ _ _ _ _).mpr hbudget, ?_⟩
      (.inl hbudget)
    intro t ht
    cases ht
  rw [Bool.not_eq_true] at hbudget
  simp only [hbudget, Bool.false_eq_true, false_or]
  constructor
  · rintro ⟨action, haction, hbounds⟩
    cases action with
    | exhausted =>
      have hspent := (schedule_eq_exhausted_iff _ _ _ _ _).mp haction
      rw [hbudget] at hspent
      cases hspent
    | retry t =>
      obtain ⟨hearly, -⟩ := hbounds t rfl
      obtain ⟨-, delay, hdelay, ht⟩ := schedule_eq_retry_iff.mp haction
      have htmax := t.2.2
      rw [retryDelay_fromConfig hmax] at hdelay
      unfold flooredDelay at hdelay
      generalize (floor.getD 0 : ℕ) = f at *
      split_ifs at hdelay with hmaxDelta
      · obtain rfl := Option.some.inj hdelay
        omega
      · -- the fallback to the cap is shorter than the floor it replaces
        obtain rfl := Option.some.inj hdelay
        unfold maxDelta at *
        unfold nanosPerSec at ht
        omega
  · -- a floor that fits leads to a time within the range
    intro hle
    have hfloored : (flooredDelay cfg attempt now floor : ℤ) ≤ maxDelta ∧
        now.1 + flooredDelay cfg attempt now floor ≤ maxUtc := by
      unfold flooredDelay
      unfold minUtc maxUtc maxDelta nanosPerSec at *
      omega
    have hrange : minUtc ≤ now.1 + flooredDelay cfg attempt now floor := by omega
    refine ⟨.retry ⟨_, hrange, hfloored.2⟩,
      (schedule_fromConfig hmax hfloored.1).mpr ⟨hbudget, rfl⟩, ?_⟩
    rintro t ht
    cases ht
    unfold flooredDelay
    constructor <;> dsimp only <;> omega

end BackoffSchedule

open BackoffSchedule

/-- For every configuration `validate` accepts, every reading up to year 9999 and every
`Retry-After` header, read at any time: the schedule answers and keeps its bounds exactly if a budget
is used up or the wait the header asks for ends at an instant. -/
theorem schedule_withinBounds_iff {cfg : OperatorConfig} {now : DateTime}
    (hvalid : cfg.validate = .ok ()) (hnow : now.1 ≤ endOfYear9999) (attempt : UInt32)
    (first : Option DateTime) (header : RetryAfterHeader) (readAt : DateTime) :
    WithinBounds cfg.retry now attempt first (parseRetryAfter header readAt) ↔
      (fromConfig cfg.retry).budgetExhausted now attempt first = true ∨
        ∀ wait, parseRetryAfter header readAt = some wait → now.1 + (wait : ℕ) ≤ maxUtc := by
  have hbounds := OperatorConfig.validate_eq_ok_iff.mp hvalid
  rw [withinBounds_iff hbounds.attemptDelay_le hnow]
  refine or_congr_right ?_
  cases parseRetryAfter header readAt with
  | none =>
    refine iff_of_true ?_ (fun wait h => by cases h)
    have hrange := now.2
    simpa using hrange.2
  | some wait => simp

/-- The default schedule under a wait of a minute. -/
theorem schedule_withinBounds_minute :
    WithinBounds OperatorConfig.default.retry (.ofSecs 0 (by decide)) 1 none
      (parseRetryAfter (.deltaSeconds 60) (.ofSecs 0 (by decide))) :=
  (@schedule_withinBounds_iff .default (.ofSecs 0 (by decide)) (by decide) (by decide) 1 none
    _ _).mpr (.inr fun wait h => by
      obtain rfl := Option.some.inj h
      decide)

/-- Two waits past the last instant: the schedule panics on the first, and answers the second, which
is no chrono duration either, with the delay cap. -/
theorem schedule_not_withinBounds :
    OperatorConfig.default.validate = .ok () ∧
      ¬ WithinBounds OperatorConfig.default.retry (.ofSecs 0 (by decide)) 1 none
        (parseRetryAfter (.deltaSeconds 9000000000000) (.ofSecs 0 (by decide))) ∧
      (fromConfig OperatorConfig.default.retry).schedule (.ofSecs 0 (by decide)) 1 none
        (parseRetryAfter (.deltaSeconds 9000000000000) (.ofSecs 0 (by decide))) = none ∧
      (fromConfig OperatorConfig.default.retry).schedule (.ofSecs 0 (by decide)) 1 none
        (parseRetryAfter (.deltaSeconds 18446744073709551615) (.ofSecs 0 (by decide))) =
          some (.retry (.ofSecs 3600 (by decide))) := by
  have hpanic : (fromConfig OperatorConfig.default.retry).schedule (.ofSecs 0 (by decide)) 1 none
      (parseRetryAfter (.deltaSeconds 9000000000000) (.ofSecs 0 (by decide))) = none := by
    decide +kernel
  refine ⟨by decide, ?_, hpanic, by decide +kernel⟩
  rintro ⟨action, haction, -⟩
  rw [hpanic] at haction
  cases haction

/-! ## The order of the retry times -/

/-- Without a `Retry-After` the retry time is the jittered delay after the reading. -/
theorem retry_eq_of_no_floor {cfg : RetryConfig} (hmax : cfg.maxAttemptDelaySecs.toNat ≤ 604800)
    {now t : DateTime} {attempt : UInt32} {first : Option DateTime}
    (h : (fromConfig cfg).schedule now attempt first none = some (.retry t)) :
    t.1 = now.1 + delayNanos cfg attempt now := by
  have hle := (baseSecs_le cfg attempt).trans hmax
  have hdelay := (delayNanos_bounds cfg attempt now).2
  have hfloored : flooredDelay cfg attempt now none = delayNanos cfg attempt now := Nat.zero_max _
  have hdelta : (flooredDelay cfg attempt now none : ℤ) ≤ maxDelta := by
    unfold maxDelta
    omega
  obtain ⟨-, ht⟩ := (schedule_fromConfig hmax hdelta).mp h
  rw [ht, hfloored]

/-- Within one second the jitter does not drop. -/
theorem jitterNanos_le_of_same_second {now₁ now₂ : DateTime} (hle : now₁ ≤ now₂)
    (hsecond : now₁.timestamp = now₂.timestamp) (secs : ℕ) :
    (jitterNanos secs now₁.subsecNanos : ℤ) ≤
      now₂.since now₁ + jitterNanos secs now₂.subsecNanos := by
  have hle' : now₁.1 ≤ now₂.1 := hle
  have hnanos : now₁.subsecNanos ≤ now₂.subsecNanos := by
    unfold DateTime.timestamp at hsecond
    unfold DateTime.subsecNanos
    unfold nanosPerSec at *
    omega
  have hmul := Nat.mul_le_mul_left (4 * secs) hnanos
  unfold jitterNanos DateTime.since
  omega

/-- For every configuration `validate` accepts, two retry times at the same attempt keep the order
of the readings they were computed at exactly if the jitter drops by no more than the readings are
apart; within one second they always do. -/
theorem retry_le_retry_iff {cfg : OperatorConfig} {attempt : UInt32} {now₁ now₂ : DateTime}
    {first₁ first₂ : Option DateTime} {t₁ t₂ : DateTime} (hvalid : cfg.validate = .ok ())
    (h₁ : (fromConfig cfg.retry).schedule now₁ attempt first₁ none = some (.retry t₁))
    (h₂ : (fromConfig cfg.retry).schedule now₂ attempt first₂ none = some (.retry t₂)) :
    (t₁ ≤ t₂ ↔
      (jitterNanos (baseSecs cfg.retry attempt) now₁.subsecNanos : ℤ) ≤
        now₂.since now₁ + jitterNanos (baseSecs cfg.retry attempt) now₂.subsecNanos) ∧
      (now₁ ≤ now₂ → now₁.timestamp = now₂.timestamp → t₁ ≤ t₂) := by
  have hbounds := OperatorConfig.validate_eq_ok_iff.mp hvalid
  have ht₁ := retry_eq_of_no_floor hbounds.attemptDelay_le h₁
  have ht₂ := retry_eq_of_no_floor hbounds.attemptDelay_le h₂
  have hiff : t₁ ≤ t₂ ↔
      (jitterNanos (baseSecs cfg.retry attempt) now₁.subsecNanos : ℤ) ≤
        now₂.since now₁ + jitterNanos (baseSecs cfg.retry attempt) now₂.subsecNanos := by
    show t₁.1 ≤ t₂.1 ↔ _ ≤ (now₂.1 - now₁.1 : ℤ) + _
    rw [ht₁, ht₂]
    unfold delayNanos
    omega
  exact ⟨hiff, fun hle hsecond => hiff.mpr (jitterNanos_le_of_same_second hle hsecond _)⟩

/-- The default schedule a millisecond later in the same second. -/
theorem retry_le_retry_millisecond :
    (⟨9000000000, by decide⟩ : DateTime) ≤ ⟨9005000000, by decide⟩ :=
  (@retry_le_retry_iff .default 1 (.ofSecs 1 (by decide)) ⟨1001000000, by decide⟩ none none _ _
    (by decide) (by decide +kernel) (by decide +kernel)).1.mpr (by decide +kernel)

/-- One nanosecond apart, on both sides of a second: the later reading gives the earlier retry. -/
theorem retry_lt_retry_of_second_boundary :
    ∃ now₁ now₂ t₁ t₂ : DateTime, now₁ ≤ now₂ ∧ t₂ < t₁ ∧
      OperatorConfig.default.validate = .ok () ∧
      (fromConfig OperatorConfig.default.retry).schedule now₁ 1 none none = some (.retry t₁) ∧
      (fromConfig OperatorConfig.default.retry).schedule now₂ 1 none none = some (.retry t₂) := by
  refine ⟨⟨999999999, by decide⟩, ⟨1000000000, by decide⟩, ⟨12999999995, by decide⟩,
    ⟨9000000000, by decide⟩, ?_, ?_, by decide, by decide +kernel, by decide +kernel⟩
  · exact Subtype.mk_le_mk.mpr (by decide)
  · exact Subtype.mk_lt_mk.mpr (by decide)

end Perchstation
