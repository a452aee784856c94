import Perchstation.Attempts.Limit
import Perchstation.Attempts.Tally

/-!
# Attempts — how often a clip is uploaded

Over any run the uploads of a clip stay within its limit and one for each crash (`uploads_le`), and
its record counts them (`tally_of_exec`).
-/

namespace Perchstation

open Resumption QueueStore

variable {schedule : BackoffSchedule} {fs₀ : Fs} {tr : List (WorkEvent × Worker)} {w : Worker}

theorem named_of_empty (h₀ : ∀ d c x, fs₀.get (.queue d c x) = none) : Named fs₀ := by
  intro d c e he
  rw [h₀] at he
  cases he

/-- In any run from an empty queue the uploads of a clip stay within the limit and one for each
crash. -/
theorem uploads_le (h₀ : ∀ d c x, fs₀.get (.queue d c x) = none)
    (h : Exec (WorkStep schedule) (.up fs₀ none) tr w) (c : ClipId) :
    w.Balanced (max 1 schedule.perClipMaxAttempts.toNat) (uploads c tr) (crashes tr) c := by
  have hlimit : max 1 schedule.perClipMaxAttempts.toNat < 2 ^ 32 :=
    max_lt (by norm_num) schedule.perClipMaxAttempts.toNat_lt
  have hempty : ∀ e, ¬ Uploadable fs₀ c e := by
    rintro e (he | ⟨he, -⟩)
    · exact absurd ((h₀ _ _ _).symm.trans he) (by simp)
    · exact absurd ((h₀ _ _ _).symm.trans he) (by simp)
  induction h with
  | nil =>
    refine ⟨named_of_empty h₀, Nat.zero_le _, fun e he => absurd he (hempty e), by rintro e ⟨⟩, ?_, ?_⟩
    · rintro ⟨e, he⟩
      exact absurd (Or.inl he) (hempty e)
    · rintro - ⟨e, he⟩
      exact absurd he (hempty e)
  | snoc _ hs ih =>
    rw [uploads, sinceEnqueue_snoc, crashes_snoc]
    exact ih.step (le_max_left _ _) (le_max_right _ _) hlimit hs

/-- In a run without a crash that enqueues `c` once, its record counts its entries. -/
theorem tally_of_exec (h₀ : ∀ d c x, fs₀.get (.queue d c x) = none)
    (h : Exec (WorkStep schedule) (.up fs₀ none) tr w) (c : ClipId) (hcrash : crashes tr = 0)
    (honce : enqueues c tr ≤ 1) :
    ∃ t aw, w = .up t aw ∧ Named t ∧
      Tally (max 1 schedule.perClipMaxAttempts.toNat) (tallied c tr) c t aw := by
  induction h with
  | nil =>
    exact ⟨fs₀, none, rfl, named_of_empty h₀, .gone (fun d x _ _ => h₀ d c x) (by rintro e ⟨⟩)⟩
  | @snoc tr w w' ev _ hs ih =>
    rw [crashes_snoc] at hcrash
    rw [enqueues_snoc] at honce
    have hev : ev.isCrash = false := by
      cases hc : ev.isCrash with
      | false => rfl
      | true => simp [hc] at hcrash
    obtain ⟨t, aw, rfl, hn, htally⟩ := ih (by omega) (by omega)
    refine htally.step hn (le_max_left _ _) (le_max_right _ _)
      (max_lt (by norm_num) schedule.perClipMaxAttempts.toNat_lt) hs hev fun henq => ?_
    rw [if_pos henq] at honce
    omega

/-- The uploads started for a clip are at most its limit and one for each crash; in a run without
crashes the attempts on its record are the times it entered `inflight/`. -/
theorem attempts_bounded (h₀ : ∀ d c x, fs₀.get (.queue d c x) = none)
    (h : Exec (WorkStep schedule) (.up fs₀ none) tr w) (c : ClipId) :
    uploads c tr ≤ max 1 schedule.perClipMaxAttempts.toNat + crashes tr ∧
    (crashes tr = 0 → enqueues c tr ≤ 1 → ∀ d e, d ≠ .corrupt →
      w.fs.get (.queue d c .json) = some (.sidecar e) → e.attempts.toNat = entries c tr) := by
  constructor
  · have hbal := uploads_le h₀ h c
    cases w with
    | up fs aw => exact hbal.total
    | down fs =>
      have hspare := hbal.spare
      omega
  · intro hcrash honce d e hd he
    obtain ⟨t, aw, rfl, -, htally⟩ := tally_of_exec h₀ h c hcrash honce
    have hcount := htally.attempts hd he
    unfold tallied at hcount
    split_ifs at hcount
    exact (Option.some.inj hcount).symm

namespace Station

/-- The first upload, and a crash while it is awaited. -/
def crashedTrace (entered : List ClipId) : List (WorkEvent × Worker) :=
  [(.captured, .up captured.fs none), (.enqueued "c1" (.ok firstEntry), .up queued.fs none),
    (.started (.ok (.upload (startAttempt firstEntry epoch))) entered,
      .up uploading.fs (some (startAttempt firstEntry epoch))), (.crashed none, .down uploading.fs)]

theorem exec_crashed : ∃ entered,
    Exec (WorkStep Config.plain.schedule) (.up blank.fs none) (crashedTrace entered)
      (.down uploading.fs) := by
  have hqueued : Step Config.plain captured (.enqueued "c1" (.ok firstEntry)) queued := step_queued
  have huploading : Step Config.plain queued
      (.started (.ok (.upload (startAttempt firstEntry epoch)))) uploading := step_uploading
  cases hqueued with
  | enqueue _ hq =>
    cases huploading with
    | start _ hu =>
      obtain ⟨entered, hlog⟩ := exists_entering [] hu
      have h1 : WorkStep Config.plain.schedule (.up blank.fs none) .captured (.up captured.fs none) :=
        .capture blank.fs none "in.mp4" footage
      have h4 : WorkStep Config.plain.schedule
          (.up uploading.fs (some (startAttempt firstEntry epoch))) (.crashed none)
          (.down uploading.fs) :=
        .crashFinish (reaches_self (tryOnceFinish Config.plain.schedule
          (startAttempt firstEntry epoch) (.error (.network "" ""))) _)
      exact ⟨entered, (((Exec.nil.snoc h1).snoc (.enqueue hq)).snoc (.start hlog)).snoc h4⟩

end Station

theorem attempts_bounded_crashed : ∃ entered, uploads "c1" (Station.crashedTrace entered) = 1 ∧
    uploads "c1" (Station.crashedTrace entered) ≤ 12 + crashes (Station.crashedTrace entered) := by
  obtain ⟨entered, h⟩ := Station.exec_crashed
  exact ⟨entered, rfl, (attempts_bounded Station.blank_initial.empty h "c1").1⟩

end Perchstation
