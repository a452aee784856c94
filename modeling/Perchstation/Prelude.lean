import Mathlib.Data.Rat.Floor
import Mathlib.Order.Basic
import Mathlib.Order.Lattice
import Mathlib.Tactic.Linarith

/-!
# Prelude — the standard-library and chrono values the station computes with

Instants are whole nanoseconds after the Unix epoch inside chrono's range; durations are whole
nanoseconds.  Every operation that can panic in Rust returns an `Option`, `none` being the panic.
Floating point is read as exact rationals.
-/

namespace Perchstation

/-- `uuid::Uuid`. -/
abbrev Uuid : Type := BitVec 128

/-- `std::io::Error`, by its `ErrorKind` (`NotFound`, `StorageFull`, or any other errno). -/
inductive IoError
  | notFound
  | storageFull
  | other (errno : Nat) (text : String)
  deriving DecidableEq, Repr

/-- The `Display` form of an OS error. -/
def IoError.display : IoError → String
  | .notFound => "No such file or directory (os error 2)"
  | .storageFull => "No space left on device (os error 28)"
  | .other errno text => text ++ " (os error " ++ toString errno ++ ")"

/-! ## Saturating arithmetic -/

/-- `u32::saturating_add`. -/
def saturatingAdd32 (a b : UInt32) : UInt32 :=
  if a.toNat + b.toNat < 2 ^ 32 then a + b else 4294967295

/-- `u64::saturating_add`. -/
def saturatingAdd64 (a b : UInt64) : UInt64 :=
  if a.toNat + b.toNat < 2 ^ 64 then a + b else 18446744073709551615

/-- `u32::saturating_sub`. -/
def saturatingSub32 (a b : UInt32) : UInt32 := if b ≤ a then a - b else 0

/-- `u64::saturating_sub`. -/
def saturatingSub64 (a b : UInt64) : UInt64 := if b ≤ a then a - b else 0

theorem saturatingAdd32_toNat (a b : UInt32) :
    (saturatingAdd32 a b).toNat = min (a.toNat + b.toNat) (2 ^ 32 - 1) := by
  unfold saturatingAdd32
  split_ifs with h
  · rw [UInt32.toNat_add, Nat.mod_eq_of_lt h]
    omega
  · show 4294967295 = _
    omega

theorem saturatingAdd64_toNat (a b : UInt64) :
    (saturatingAdd64 a b).toNat = min (a.toNat + b.toNat) (2 ^ 64 - 1) := by
  unfold saturatingAdd64
  split_ifs with h
  · rw [UInt64.toNat_add, Nat.mod_eq_of_lt h]
    omega
  · show 18446744073709551615 = _
    omega

theorem saturatingSub32_toNat (a b : UInt32) :
    (saturatingSub32 a b).toNat = a.toNat - b.toNat := by
  unfold saturatingSub32
  split_ifs with h
  · exact UInt32.toNat_sub_of_le a b h
  · have h' : ¬ b.toNat ≤ a.toNat := fun h' => h (UInt32.le_iff_toNat_le.mpr h')
    show 0 = _
    omega

theorem saturatingSub64_toNat (a b : UInt64) :
    (saturatingSub64 a b).toNat = a.toNat - b.toNat := by
  unfold saturatingSub64
  split_ifs with h
  · exact UInt64.toNat_sub_of_le a b h
  · have h' : ¬ b.toNat ≤ a.toNat := fun h' => h (UInt64.le_iff_toNat_le.mpr h')
    show 0 = _
    omega

/-! ## Instants and durations -/

/-- Nanoseconds in a second. -/
def nanosPerSec : ℕ := 1000000000

/-- `DateTime::<Utc>::MIN_UTC` in nanoseconds after the epoch. -/
def minUtc : ℤ := -8334601228800 * nanosPerSec

/-- `DateTime::<Utc>::MAX_UTC` in nanoseconds after the epoch. -/
def maxUtc : ℤ := 8210266876799 * nanosPerSec + 999999999

/-- `chrono::DateTime<Utc>`: nanoseconds after the epoch, inside chrono's range. -/
def DateTime : Type := {t : ℤ // minUtc ≤ t ∧ t ≤ maxUtc}

instance : LinearOrder DateTime := inferInstanceAs (LinearOrder {t : ℤ // minUtc ≤ t ∧ t ≤ maxUtc})

/-- `std::time::Duration`, in nanoseconds. -/
abbrev StdDuration : Type := ℕ

/-- `chrono::TimeDelta`, in nanoseconds. -/
abbrev TimeDelta : Type := ℤ

/-- `TimeDelta::MAX`: `i64::MAX` milliseconds. -/
def maxDelta : ℤ := 9223372036854775807 * 1000000

/-- `Duration::from_secs`. -/
def StdDuration.fromSecs (secs : ℕ) : StdDuration := secs * nanosPerSec

/-- `Duration::as_secs_f64`, exactly. -/
def StdDuration.asSecsF64 (d : StdDuration) : ℚ := d / nanosPerSec

/-- `Duration::from_secs_f64`, rounded to the nearest nanosecond; it panics on a negative value
and from `2^64` seconds on. -/
def StdDuration.fromSecsF64 (q : ℚ) : Option StdDuration :=
  if 0 ≤ q ∧ q < 2 ^ 64 then some (q * nanosPerSec + 1 / 2).floor.toNat else none

/-- `TimeDelta::from_std`. -/
def TimeDelta.fromStd (d : StdDuration) : Option TimeDelta :=
  if (d : ℤ) ≤ maxDelta then some d else none

/-- `TimeDelta::seconds`, which panics beyond `i64::MAX / 1000` seconds. -/
def TimeDelta.seconds (secs : ℤ) : Option TimeDelta :=
  if -9223372036854775 ≤ secs ∧ secs ≤ 9223372036854775 then some (secs * nanosPerSec) else none

/-- `TimeDelta::to_std().unwrap_or(Duration::ZERO)`. -/
def TimeDelta.toStdOrZero (d : TimeDelta) : StdDuration := d.toNat

namespace DateTime

/-- `self - other`. -/
def since (t s : DateTime) : TimeDelta := t.1 - s.1

/-- `self + delta`, which panics outside chrono's range. -/
def add (t : DateTime) (d : TimeDelta) : Option DateTime :=
  if h : minUtc ≤ t.1 + d ∧ t.1 + d ≤ maxUtc then some ⟨t.1 + d, h⟩ else none

/-- `self - delta`, which panics outside chrono's range. -/
def sub (t : DateTime) (d : TimeDelta) : Option DateTime := t.add (-d)

/-- `timestamp`: whole seconds after the epoch. -/
def timestamp (t : DateTime) : ℤ := t.1 / nanosPerSec

/-- `timestamp_subsec_nanos`. -/
def subsecNanos (t : DateTime) : ℕ := (t.1 % nanosPerSec).toNat

/-- The instant `secs` seconds after the epoch. -/
def ofSecs (secs : ℤ) (h : minUtc ≤ secs * nanosPerSec ∧ secs * nanosPerSec ≤ maxUtc) : DateTime :=
  ⟨secs * nanosPerSec, h⟩

theorem epoch_inRange : minUtc ≤ 0 * nanosPerSec ∧ 0 * nanosPerSec ≤ maxUtc := by decide

end DateTime

end Perchstation
