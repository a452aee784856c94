import Perchstation.Delivery.Runner
import Perchstation.Queue.ScanRules

/-!
# Runner rules — what the two halves of `try_once` do to the files

`HeadRun` and `FinishRun` list the ways the halves can end; each way says which record was written
and what led there.
-/

namespace Perchstation

open Resumption QueueStore

variable {fs t u : Fs} {e : ClipQueueEntry} {m : Blob} {at_ : DateTime} {schedule : BackoffSchedule}

/-! ## The records -/

section Records

variable {kind message : String} {status : Option UInt16} {task : ClassifyTaskPublic}

@[simp] theorem deliveredRecord_clipId : (deliveredRecord e task at_).clipId = e.clipId := rfl
@[simp] theorem deliveredRecord_attempts : (deliveredRecord e task at_).attempts = e.attempts := rfl
@[simp] theorem deliveredRecord_outcome : (deliveredRecord e task at_).outcome = some .delivered := rfl

@[simp] theorem undecodableRecord_clipId : (undecodableRecord e at_).clipId = e.clipId := rfl
@[simp] theorem undecodableRecord_attempts : (undecodableRecord e at_).attempts = e.attempts := rfl
@[simp] theorem undecodableRecord_outcome : (undecodableRecord e at_).outcome = some .delivered := rfl

@[simp] theorem undeliverableRecord_clipId :
    (undeliverableRecord e at_ kind status message).clipId = e.clipId := rfl
@[simp] theorem undeliverableRecord_attempts :
    (undeliverableRecord e at_ kind status message).attempts = e.attempts := rfl
@[simp] theorem undeliverableRecord_outcome :
    (undeliverableRecord e at_ kind status message).outcome = some .undeliverable := rfl

@[simp] theorem retryRecord_clipId : (retryRecord e at_ kind status message).clipId = e.clipId := rfl
@[simp] theorem retryRecord_attempts :
    (retryRecord e at_ kind status message).attempts = e.attempts := rfl
@[simp] theorem retryRecord_outcome :
    (retryRecord e at_ kind status message).outcome = e.outcome := rfl

end Records

/-! ## First half -/

/-- The length refuses the upload, for the reason given. -/
def RefusedFor (len : UInt64) (reason : String) : Prop :=
  (len.toNat = 0 ∧ reason = "zero_length") ∨ (maxUploadBytes < len.toNat ∧ reason = "oversize")

/-- The record of a clip refused by its pre-flight check. -/
def refusedRecord (e : ClipQueueEntry) (at_ : DateTime) (reason : String) : ClipQueueEntry :=
  undeliverableRecord e at_ reason none ("pre-flight " ++ reason ++ " for " ++ e.clipId)

@[simp] theorem refusedRecord_clipId {reason : String} :
    (refusedRecord e at_ reason).clipId = e.clipId := rfl
@[simp] theorem refusedRecord_attempts {reason : String} :
    (refusedRecord e at_ reason).attempts = e.attempts := rfl
@[simp] theorem refusedRecord_outcome {reason : String} :
    (refusedRecord e at_ reason).outcome = some .undeliverable := rfl

/-- The ways the first half of `try_once` ends, after the scan has left `u`. -/
inductive HeadRun (fs : Fs) : Except QueueError Head → Fs → Prop
  | idle {u : Fs} : Picked fs u none → HeadRun fs (.ok .idle) u
  | missing {u : Fs} {e : ClipQueueEntry} : Picked fs u (some e) →
      u.get (.queue .pending e.clipId .mp4) = none →
      HeadRun fs (.ok .progressed)
        ((u.del (.queue .pending e.clipId .json)).del (.queue .pending e.clipId .mp4))
  | refused {u : Fs} {e : ClipQueueEntry} {m : Blob} {len : UInt64} {at_ at' : DateTime}
      {reason : String} : Picked fs u (some e) →
      u.get (.queue .pending e.clipId .mp4) = some m → m.HasLen len → RefusedFor len reason →
      HeadRun fs (.ok .progressed)
        (movedDelivered (movedInflight u m (startAttempt e at_))
          (refusedRecord (startAttempt e at_) at' reason))
  | upload {u : Fs} {e : ClipQueueEntry} {m : Blob} {at_ : DateTime} : Picked fs u (some e) →
      u.get (.queue .pending e.clipId .mp4) = some m →
      HeadRun fs (.ok (.upload (startAttempt e at_))) (movedInflight u m (startAttempt e at_))

theorem get_movedInflight_media :
    (movedInflight fs m e).get (.queue .inflight e.clipId .mp4) = some m := by
  simp [movedInflight, FileMap.get_del, get_replaceSidecar, get_moveMedia]

theorem runs_preflightCheck {p : Path} {r : Option String} (hm : fs.get p = some m)
    (h : Runs Nominal (preflightCheck p) fs r t) :
    t = fs ∧ ∃ len, m.HasLen len ∧ ∀ reason, r = some reason → RefusedFor len reason := by
  simp only [preflightCheck, runs_bind, runs_metadata, Nominal, hm] at h
  obtain ⟨_, w, ⟨rfl, len, hlen, rfl⟩, h⟩ := h
  dsimp only at h
  split_ifs at h with h0 h1 <;> obtain ⟨rfl, rfl⟩ := h <;> refine ⟨rfl, len, hlen, ?_⟩
  · rintro _ ⟨⟩
    exact Or.inl ⟨h0, rfl⟩
  · rintro _ ⟨⟩
    exact Or.inr ⟨h1, rfl⟩
  · rintro _ ⟨⟩

theorem runs_startUpload {r : Except QueueError Head}
    (hm : fs.get (.queue .inflight e.clipId .mp4) = some m)
    (h : Runs Nominal (startUpload e) fs r t) :
    (r = .ok (.upload e) ∧ t = fs) ∨
      ∃ len reason at', m.HasLen len ∧ RefusedFor len reason ∧ r = .ok .progressed ∧
        t = movedDelivered fs (refusedRecord e at' reason) := by
  rw [startUpload, runs_bind] at h
  obtain ⟨check, w, hw, h⟩ := h
  obtain ⟨rfl, len, hlen, hreason⟩ := runs_preflightCheck hm hw
  cases check with
  | none => exact Or.inl h
  | some reason =>
    simp only [runs_bind, runs_now, runs_transitionDelivered, and_assoc, exists_and_left,
      exists_eq_left] at h
    obtain ⟨at', w', hw', rfl, rfl⟩ := h
    obtain rfl : w' = w := hw'
    exact Or.inr ⟨len, reason, at', hlen, hreason reason rfl, rfl, rfl⟩

theorem runs_tryOnceHead {r : Except QueueError Head} (h : Runs Nominal tryOnceHead fs r t) :
    HeadRun fs r t := by
  rw [tryOnceHead, runs_bind] at h
  obtain ⟨at_, w, hw, h⟩ := h
  obtain rfl : w = fs := runs_now.mp hw
  rw [runs_bind] at h
  obtain ⟨_, u, hu, h⟩ := h
  obtain ⟨o, rfl, hpick⟩ := runs_pickOldestPending hu
  cases o with
  | none =>
    obtain ⟨rfl, rfl⟩ := h
    exact .idle hpick
  | some e =>
    dsimp only at h
    rw [runs_bind] at h
    obtain ⟨_, w', hw', h⟩ := h
    rcases runs_transitionInflight.mp hw' with ⟨hnone, rfl, rfl⟩ | ⟨m, hm, rfl, rfl⟩
    · simp only [runs_bind, runs_quarantineOrphan, and_assoc, exists_and_left, exists_eq_left] at h
      obtain ⟨rfl, rfl⟩ := h
      exact .missing hpick hnone
    · rcases runs_startUpload get_movedInflight_media h with
        ⟨rfl, rfl⟩ | ⟨len, reason, at', hlen, hreason, rfl, rfl⟩
      · exact .upload hpick hm
      · exact .refused hpick hm hlen hreason

/-- A clip alone in `pending/`, with its backoff over and of an allowed size, is taken to its
upload. -/
theorem runs_tryOnceHead_due {e : ClipQueueEntry} {len : UInt64}
    (hone : ∀ c, (fs.get (.queue .pending c .json)).isSome → c = e.clipId)
    (he : fs.get (.queue .pending e.clipId .json) = some (.sidecar e))
    (hdue : ∀ next, e.nextAttemptAfter = some next → next ≤ at_)
    (hm : fs.get (.queue .pending e.clipId .mp4) = some m)
    (hlen : m.HasLen len) (hpos : len.toNat ≠ 0) (hmax : len.toNat ≤ maxUploadBytes) :
    Runs Nominal tryOnceHead fs (.ok (.upload (startAttempt e at_)))
      (movedInflight fs m (startAttempt e at_)) := by
  have hcheck : Runs Nominal (preflightCheck (.queue .inflight e.clipId .mp4))
      (movedInflight fs m (startAttempt e at_)) none (movedInflight fs m (startAttempt e at_)) := by
    simp only [preflightCheck, runs_bind, runs_metadata, Nominal]
    refine ⟨.ok len, _, ⟨rfl, ?_⟩, ?_⟩
    · have hid : (startAttempt e at_).clipId = e.clipId := startAttempt_clipId
      rw [← hid, get_movedInflight_media]
      exact ⟨len, hlen, rfl⟩
    · simp only [if_neg hpos, if_neg (Nat.not_lt.mpr hmax)]
      exact ⟨rfl, rfl⟩
  rw [tryOnceHead, runs_bind]
  refine ⟨at_, fs, runs_now.mpr rfl, ?_⟩
  rw [runs_bind]
  refine ⟨_, fs, runs_pickOldestPending_due hone he hdue, ?_⟩
  dsimp only
  rw [runs_bind]
  refine ⟨_, _, runs_transitionInflight.mpr (Or.inr ⟨m, hm, rfl, rfl⟩), ?_⟩
  dsimp only
  rw [startUpload, runs_bind]
  exact ⟨none, _, hcheck, rfl, rfl⟩

theorem runs_tryOnceHead_single {e : ClipQueueEntry} {len : UInt64}
    (hone : ∀ c, (fs.get (.queue .pending c .json)).isSome → c = e.clipId)
    (he : fs.get (.queue .pending e.clipId .json) = some (.sidecar e))
    (hn : e.nextAttemptAfter = none) (hm : fs.get (.queue .pending e.clipId .mp4) = some m)
    (hlen : m.HasLen len) (hpos : len.toNat ≠ 0) (hmax : len.toNat ≤ maxUploadBytes) :
    Runs Nominal tryOnceHead fs (.ok (.upload (startAttempt e at_)))
      (movedInflight fs m (startAttempt e at_)) :=
  runs_tryOnceHead_due hone he (by simp [hn]) hm hlen hpos hmax

/-! ## Second half -/

/-- The second half after its first clock reading; every branch of it begins with one. -/
def finishAt (schedule : BackoffSchedule) (entry : ClipQueueEntry)
    (result : Except ClientError ClassifyTaskPublic) (at_ : DateTime) :
    Act (Except QueueError Unit) :=
  match result with
  | .ok task => transitionDelivered (deliveredRecord entry task at_)
  | .error (.undecodableSuccess _ _) => transitionDelivered (undecodableRecord entry at_)
  | .error err =>
    match classifyUploadError err with
    | .terminal =>
      transitionDelivered (undeliverableRecord entry at_ (errorKind err) err.status err.display)
    | .transient =>
      match schedule.schedule at_ entry.attempts entry.firstAttemptAt err.retryAfter with
      | none => abort (Except QueueError Unit)
      | some (.retry next) =>
        transitionBackToPending (retryRecord entry next (errorKind err) err.status err.display)
      | some .exhausted => markAttemptsExhausted entry (errorKind err) err.status err.display

theorem tryOnceFinish_eq (schedule : BackoffSchedule) (entry : ClipQueueEntry)
    (result : Except ClientError ClassifyTaskPublic) :
    tryOnceFinish schedule entry result = (now >>= finishAt schedule entry result) := by
  cases result with
  | ok task => rfl
  | error err =>
    unfold tryOnceFinish handleUploadError finishAt
    cases err with
    | http url status message retryAfter =>
      -- the only error whose class depends on its data
      dsimp only
      cases classifyUploadError (.http url status message retryAfter) with
      | transient => rfl
      | terminal => rfl
    | _ => rfl

/-- The ways the second half of `try_once` ends, for the instant it reads first. -/
inductive FinishRun (schedule : BackoffSchedule) (fs : Fs) (e : ClipQueueEntry) (at_ : DateTime) :
    Except ClientError ClassifyTaskPublic → Fs → Prop
  | accepted {task : ClassifyTaskPublic} :
      FinishRun schedule fs e at_ (.ok task) (movedDelivered fs (deliveredRecord e task at_))
  | undecodable {url message : String} :
      FinishRun schedule fs e at_ (.error (.undecodableSuccess url message))
        (movedDelivered fs (undecodableRecord e at_))
  | retried {err : ClientError} {next : DateTime} : classifyUploadError err = .transient →
      schedule.schedule at_ e.attempts e.firstAttemptAt err.retryAfter = some (.retry next) →
      FinishRun schedule fs e at_ (.error err)
        (movedBack fs (retryRecord e next (errorKind err) err.status err.display))
  | exhausted {err : ClientError} {at' : DateTime} : classifyUploadError err = .transient →
      schedule.budgetExhausted at_ e.attempts e.firstAttemptAt = true →
      FinishRun schedule fs e at_ (.error err)
        (movedDelivered fs (undeliverableRecord e at' (errorKind err) err.status err.display))
  | terminal {err : ClientError} : classifyUploadError err = .terminal →
      (∀ url message, err ≠ .undecodableSuccess url message) →
      FinishRun schedule fs e at_ (.error err)
        (movedDelivered fs (undeliverableRecord e at_ (errorKind err) err.status err.display))

theorem runs_markUndeliverable {kind message : String} {status : Option UInt16}
    {r : Except QueueError Unit} :
    Runs Nominal (markUndeliverable e kind status message) fs r t ↔
      r = .ok () ∧ ∃ at', t = movedDelivered fs (undeliverableRecord e at' kind status message) := by
  simp only [markUndeliverable, runs_bind, runs_now, runs_transitionDelivered, Nominal]
  constructor
  · rintro ⟨at', _, rfl, rfl, rfl⟩
    exact ⟨rfl, at', rfl⟩
  · rintro ⟨rfl, at', rfl⟩
    exact ⟨at', fs, rfl, rfl, rfl⟩

/-- The second half never fails without faults, and ends in one of the ways listed. -/
theorem runs_finishAt {result : Except ClientError ClassifyTaskPublic}
    {r : Except QueueError Unit} :
    Runs Nominal (finishAt schedule e result at_) fs r t ↔
      r = .ok () ∧ FinishRun schedule fs e at_ result t := by
  unfold finishAt
  constructor
  · intro h
    split at h
    · obtain ⟨rfl, rfl⟩ := runs_transitionDelivered.mp h
      exact ⟨rfl, .accepted⟩
    · obtain ⟨rfl, rfl⟩ := runs_transitionDelivered.mp h
      exact ⟨rfl, .undecodable⟩
    · -- what is neither a success nor an undecodable one goes by its kind
      rename_i err hne
      split at h
      · obtain ⟨rfl, rfl⟩ := runs_transitionDelivered.mp h
        exact ⟨rfl, .terminal ‹_› hne⟩
      · split at h
        · exact (runs_abort.mp h).elim
        · obtain ⟨rfl, rfl⟩ := runs_transitionBackToPending.mp h
          exact ⟨rfl, .retried ‹_› ‹_›⟩
        · obtain ⟨rfl, at', rfl⟩ := runs_markUndeliverable.mp h
          exact ⟨rfl, .exhausted ‹_› ((schedule.schedule_eq_exhausted_iff _ _ _ _).mp ‹_›)⟩
  · -- each way is a run: the answer leads to its branch
    rintro ⟨rfl, h⟩
    cases h with
    | accepted => exact runs_transitionDelivered.mpr ⟨rfl, rfl⟩
    | undecodable => exact runs_transitionDelivered.mpr ⟨rfl, rfl⟩
    | @retried err next htrans hs =>
      split
      · cases ‹Except.error err = Except.ok _›
      · cases ‹Except.error err = Except.error _›
        cases htrans
      · cases ‹Except.error err = Except.error _›
        rw [htrans]
        simp only [hs]
        exact runs_transitionBackToPending.mpr ⟨rfl, rfl⟩
    | @exhausted err at' htrans hb =>
      have hs := (schedule.schedule_eq_exhausted_iff _ _ _ err.retryAfter).mpr hb
      split
      · cases ‹Except.error err = Except.ok _›
      · cases ‹Except.error err = Except.error _›
        cases htrans
      · cases ‹Except.error err = Except.error _›
        rw [htrans]
        simp only [hs]
        exact runs_markUndeliverable.mpr ⟨rfl, at', rfl⟩
    | @terminal err hk hne =>
      split
      · cases ‹Except.error err = Except.ok _›
      · cases ‹Except.error err = Except.error _›
        exact absurd rfl (hne _ _)
      · cases ‹Except.error err = Except.error _›
        rw [hk]
        exact runs_transitionDelivered.mpr ⟨rfl, rfl⟩

/-- The second half runs from its first clock reading on. -/
theorem runs_tryOnceFinish {result : Except ClientError ClassifyTaskPublic}
    {r : Except QueueError Unit} {readings readings' : List DateTime}
    (h : Runs Clocked (tryOnceFinish schedule e result) (fs, readings) r (t, readings')) :
    ∃ at_ rest, readings = at_ :: rest ∧ r = .ok () ∧ FinishRun schedule fs e at_ result t := by
  rw [tryOnceFinish_eq, runs_bind] at h
  obtain ⟨at_, ⟨u, rest⟩, hnow, h⟩ := h
  obtain ⟨rfl, rfl⟩ := runs_now_clocked.mp hnow
  obtain ⟨rfl, hfin⟩ := runs_finishAt.mp (runs_nominal h)
  exact ⟨at_, rest, rfl, rfl, hfin⟩

theorem exists_runs_tryOnceFinish {result : Except ClientError ClassifyTaskPublic}
    (h : FinishRun schedule fs e at_ result t) :
    ∃ rest, Runs Clocked (tryOnceFinish schedule e result) (fs, at_ :: rest) (.ok ()) (t, []) := by
  obtain ⟨rest, hr⟩ := exists_clocked [] (runs_finishAt.mpr ⟨rfl, h⟩)
  refine ⟨rest ++ [], ?_⟩
  rw [tryOnceFinish_eq, runs_bind]
  exact ⟨at_, (fs, rest ++ []), runs_now_clocked.mpr ⟨rfl, rfl⟩, hr⟩

end Perchstation
