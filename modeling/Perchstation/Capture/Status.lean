import Perchstation.Capture.Sensor

/-!
# Status — the published sensor status and the tracker

The runner publishes transitions only.  Once the sensor has been degraded the published pair is the
tracker's state after every further event; before that the tracker is Healthy and the published value
is still the initial one, however many healthy probes have run.
-/

namespace Perchstation

/-- What the capture runner handles that concerns the published state. -/
inductive CaptureEvent
  | probed (now : DateTime) (result : Except MotionSensorError SensorLevel)
  | triggerFailed (now : DateTime) (err : MotionSensorError)
  | recorded (clipId : String) (at_ : DateTime)
  | failed (at_ : DateTime) (kind message : String)

/-- The runner after one event. -/
def Capture.handle (self : Capture) : CaptureEvent → Capture
  | .probed now result => self.updateLiveness now result
  | .triggerFailed now err => self.handleTriggerError now err
  | .recorded clipId at_ => { self with state := self.state.recordSuccess clipId at_ }
  | .failed at_ kind message => { self with state := self.state.recordFailure at_ kind message }

/-- The published pair. -/
def CaptureState.published (state : CaptureState) : CaptureLivenessSnapshot × Option DateTime :=
  (state.sensorLiveness, state.sensorDegradedSince)

/-- The pair a tracker state is to be published as. -/
def SensorLiveness.projection : SensorLiveness → CaptureLivenessSnapshot × Option DateTime
  | .healthy => (.healthy, none)
  | .stuckAsserted since => (.stuckAsserted, some since)
  | .unavailable since _ => (.unavailable, some since)

/-- Some event degrades a sensor that was healthy so far: a probe or the trigger stream fails, or an
Asserted probe comes a threshold after the first of its run, which began at `since`. -/
def degrades (threshold : TimeDelta) : Option DateTime → List CaptureEvent → Bool
  | _, [] => false
  | _, .probed _ (.error _) :: _ => true
  | _, .triggerFailed _ _ :: _ => true
  | _, .probed _ (.ok .quiescent) :: rest => degrades threshold none rest
  | since, .probed now (.ok .asserted) :: rest =>
    decide (threshold ≤ now.since (since.getD now)) ||
      degrades threshold (some (since.getD now)) rest
  | since, .recorded _ _ :: rest => degrades threshold since rest
  | since, .failed _ _ _ :: rest => degrades threshold since rest

/-- The published pair is the tracker's state. -/
def Capture.Synced (c : Capture) : Prop := c.state.published = c.liveness.state.projection

/-- Nothing has been published, and the tracker is Healthy, in a run of Asserted probes from `since`. -/
structure Capture.Fresh (threshold : TimeDelta) (since : Option DateTime) (c : Capture) : Prop where
  unpublished : c.state.published = (.neverObserved, none)
  healthy : c.liveness.state = .healthy
  asserted : c.liveness.assertedSince = since
  threshold : c.liveness.stuckThreshold = threshold

theorem SensorLiveness.projection_ne (s : SensorLiveness) : s.projection.1 ≠ .neverObserved := by
  cases s <;> simp [projection]

namespace Capture

variable {c : Capture} {threshold : TimeDelta} {since : Option DateTime}

/-- A tracker that is published stays published. -/
theorem Synced.after (h : c.Synced) (ev : CaptureEvent) : (c.handle ev).Synced := by
  have herror : ∀ now err, (Capture.mk (c.liveness.handleError now err).1
      (applyTransition c.state (c.liveness.handleError now err).2)).Synced := by
    intro now err
    unfold SensorLivenessTracker.handleError
    split
    · exact h
    · rfl
  cases ev with
  | probed now result =>
    rcases result with err | (_ | _)
    · exact herror now err
    · show (Capture.mk c.liveness.handleQuiescent.1
        (applyTransition c.state c.liveness.handleQuiescent.2)).Synced
      unfold SensorLivenessTracker.handleQuiescent
      split
      · rfl
      · rfl
      · exact h
    · show (Capture.mk (c.liveness.handleAsserted now).1
        (applyTransition c.state (c.liveness.handleAsserted now).2)).Synced
      unfold SensorLivenessTracker.handleAsserted
      split
      · rfl
      · exact h
      · dsimp only
        split_ifs
        · rfl
        · exact h
  | triggerFailed now err => exact herror now err
  | recorded clipId at_ => exact h
  | failed at_ kind message => exact h

theorem Synced.run (h : c.Synced) (events : List CaptureEvent) :
    (events.foldl handle c).Synced := by
  induction events generalizing c with
  | nil => exact h
  | cons ev rest ih => exact ih (h.after ev)

theorem synced_handleError {now : DateTime} {err : MotionSensorError}
    (h : c.liveness.state = .healthy) : (Capture.mk (c.liveness.handleError now err).1
      (applyTransition c.state (c.liveness.handleError now err).2)).Synced := by
  unfold SensorLivenessTracker.handleError
  rw [h]
  rfl

/-- From a fresh runner the events publish the tracker if one of them degrades it, and leave the
runner fresh otherwise. -/
theorem Fresh.run (h : c.Fresh threshold since) (events : List CaptureEvent) :
    if degrades threshold since events then (events.foldl handle c).Synced
    else ∃ since', (events.foldl handle c).Fresh threshold since' := by
  induction events generalizing c since with
  | nil => exact ⟨since, h⟩
  | cons ev rest ih =>
    cases ev with
    | probed now result =>
      rcases result with err | (_ | _)
      · exact Synced.run (synced_handleError h.healthy) rest
      · -- a quiescent probe forgets since when the sensor was asserted
        refine ih (c := c.handle (.probed now (.ok .quiescent))) ?_
        show (Capture.mk c.liveness.handleQuiescent.1
          (applyTransition c.state c.liveness.handleQuiescent.2)).Fresh threshold none
        have hstep : c.liveness.handleQuiescent =
            ({ c.liveness with state := .healthy, assertedSince := none }, .noChange) := by
          have hhealthy := h.healthy
          obtain ⟨⟨s, t, a⟩, st⟩ := c
          obtain rfl : s = .healthy := hhealthy
          rfl
        rw [hstep]
        exact ⟨h.unpublished, rfl, rfl, h.threshold⟩
      · -- an asserted one keeps the first such instant, or counts as stuck
        have hstep : (c.liveness.handleAsserted now) =
            if threshold ≤ now.since (since.getD now) then
              ({ c.liveness with
                  state := .stuckAsserted (since.getD now)
                  assertedSince := some (since.getD now) },
                .degraded .stuckAsserted (since.getD now) none)
            else ({ c.liveness with assertedSince := some (since.getD now) }, .noChange) := by
          have hhealthy := h.healthy
          obtain ⟨⟨s, t, a⟩, st⟩ := c
          obtain rfl : s = .healthy := hhealthy
          obtain rfl : a = since := h.asserted
          obtain rfl : t = threshold := h.threshold
          rfl
        have hhandle : c.handle (.probed now (.ok .asserted)) =
            ⟨(c.liveness.handleAsserted now).1,
              applyTransition c.state (c.liveness.handleAsserted now).2⟩ := rfl
        rw [List.foldl_cons, degrades, hhandle, hstep]
        by_cases hstuck : threshold ≤ now.since (since.getD now)
        · rw [if_pos hstuck, decide_eq_true hstuck, Bool.true_or, if_pos rfl]
          exact Synced.run (by rfl) rest
        · rw [if_neg hstuck, decide_eq_false hstuck, Bool.false_or]
          exact ih ⟨h.unpublished, h.healthy, rfl, h.threshold⟩
    | triggerFailed now err => exact Synced.run (synced_handleError h.healthy) rest
      -- a trigger fault degrades, the other two leave the tracker alone
    | recorded clipId at_ => exact ih ⟨h.unpublished, h.healthy, h.asserted, h.threshold⟩
    | failed at_ kind message => exact ih ⟨h.unpublished, h.healthy, h.asserted, h.threshold⟩

theorem fresh_new {stuckSecs : UInt64} (h : Capture.new stuckSecs = some c) :
    c.Fresh c.liveness.stuckThreshold none := by
  unfold Capture.new SensorLivenessTracker.new at h
  cases hsecs : TimeDelta.seconds (clampedSecs stuckSecs) with
  | none => simp [hsecs] at h
  | some threshold =>
    simp only [hsecs, Option.pure_def, Option.bind_eq_bind, Option.bind_some] at h
    obtain rfl := Option.some.inj h
    exact ⟨rfl, rfl, rfl, rfl⟩

end Capture

/-- After any events from the start of the runner, the published pair is the tracker's state and not
the initial value exactly if some event has degraded the sensor. -/
theorem published_status_iff {stuckSecs : UInt64} {c : Capture} (h : Capture.new stuckSecs = some c)
    (events : List CaptureEvent) :
    ((events.foldl Capture.handle c).state.published =
        (events.foldl Capture.handle c).liveness.state.projection ∧
      (events.foldl Capture.handle c).state.sensorLiveness ≠ .neverObserved) ↔
      degrades c.liveness.stuckThreshold none events = true := by
  have hrun := (Capture.fresh_new h).run events
  cases hdeg : degrades c.liveness.stuckThreshold none events with
  | true =>
    rw [hdeg, if_pos rfl] at hrun
    refine iff_of_true ⟨hrun, fun hnever => ?_⟩ rfl
    have hfst := congrArg Prod.fst hrun
    exact SensorLiveness.projection_ne _ (hfst.symm.trans hnever)
  | false =>
    rw [hdeg, if_neg (by simp)] at hrun
    obtain ⟨since, hfresh⟩ := hrun
    refine iff_of_false (fun hboth => hboth.2 ?_) (by simp)
    exact congrArg Prod.fst hfresh.unpublished

/-- A sensor that fails its first probe. -/
theorem published_status_unavailable :
    ∃ c, Capture.new 300 = some c ∧ ∀ now err,
      ([CaptureEvent.probed now (.error err)].foldl Capture.handle c).state.published =
        ([CaptureEvent.probed now (.error err)].foldl Capture.handle c).liveness.state.projection := by
  obtain ⟨c, hc⟩ : ∃ c, Capture.new 300 = some c := ⟨_, rfl⟩
  refine ⟨c, hc, fun now err => ?_⟩
  exact ((published_status_iff hc [.probed now (.error err)]).mpr rfl).1

/-- After a healthy probe the published value is still the initial one. -/
theorem healthy_probe_not_published :
    ∃ c, Capture.new 300 = some c ∧ ∀ now,
      ([CaptureEvent.probed now (.ok .quiescent)].foldl Capture.handle c).liveness.state = .healthy ∧
      ([CaptureEvent.probed now (.ok .quiescent)].foldl Capture.handle c).state.published =
        (.neverObserved, none) :=
  ⟨_, rfl, fun _ => ⟨rfl, rfl⟩⟩

end Perchstation
