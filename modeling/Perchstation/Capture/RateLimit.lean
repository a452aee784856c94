import Perchstation.Capture.Staging
import Perchstation.Lib.Execution
import Perchstation.TimeBounds

/-!
# Rate limit — the supervisor over its runs

Every handling of a trigger that passes the cooldown gate ends with a new cooldown, whichever exit it
takes, and leaves the staging directory as empty as it found it.  `CooledFrom` is what carries the
cooldown along a run.
-/

namespace Perchstation

open Resumption QueueStore

/-- The cooldown ends the configured number of seconds after the instant `t`, or later. -/
def CooledFrom (t : DateTime) (sup : Supervisor) : Prop :=
  ∃ d, sup.cooldown.until_ = some d ∧ t.1 + sup.config.cooldownSecs.toNat * nanosPerSec ≤ d.1

/-- A handling has ended with a new cooldown. -/
structure Ended (config : CaptureConfig) (sup : Supervisor) (t : CaptureWorld) : Prop where
  config : sup.config = config
  cooled : CooledFrom t.clock sup

theorem CooldownState.startAfter_eq_some {c c' : CooldownState} {now : DateTime} {secs : UInt64}
    (h : c.startAfter now secs = some c') :
    ∃ d, c'.until_ = some d ∧ d.1 = now.1 + secs.toNat * nanosPerSec := by
  have hle : now.1 + secs.toNat * nanosPerSec ≤ maxUtc := exists_startAfter_iff.mp ⟨c', h⟩
  have hclamp : clampedSecs secs = secs.toNat := by
    have hnow := now.2
    unfold clampedSecs
    unfold minUtc maxUtc nanosPerSec at *
    push_cast at *
    omega
  unfold startAfter at h
  obtain ⟨delta, hdelta, h⟩ := Option.bind_eq_some_iff.mp h
  obtain ⟨deadline, hdeadline, h⟩ := Option.bind_eq_some_iff.mp h
  obtain rfl := Option.some.inj h
  refine ⟨deadline, rfl, ?_⟩
  rw [hclamp, TimeDelta.seconds] at hdelta
  split_ifs at hdelta
  obtain rfl := Option.some.inj hdelta
  rw [DateTime.add] at hdeadline
  split_ifs at hdeadline
  obtain rfl := Option.some.inj hdeadline
  rfl

/-! ## The exits -/

section Exits

variable {sup : Supervisor} {w : CaptureWorld} {post : Supervisor → CaptureWorld → Prop}

/-- A clock reading shows the time at its end. -/
theorem clock_of_now {t : CaptureWorld} {v : DateTime} (hv : CaptureEnv w (.io .now) v t) :
    v = t.clock := hv.2.2.1

theorem spec_startCooldown (sup : Supervisor) {config : CaptureConfig}
    (hconfig : sup.config = config) (w : CaptureWorld) :
    Spec CaptureEnv (Since w) (Ended config) sup.startCooldown w := by
  refine spec_since trivial fun now t hv => ?_
  cases hc : sup.cooldown.startAfter now sup.config.cooldownSecs with
  | none => exact ⟨.refl t, fun v => nomatch v⟩
  | some cooldown =>
    obtain ⟨d, hd, heq⟩ := CooldownState.startAfter_eq_some hc
    rw [clock_of_now hv] at heq
    exact spec_pure (.refl t) ⟨hconfig, d, hd, heq.ge⟩

theorem spec_failAndCoolDown (sup : Supervisor) (kind message : String) (w : CaptureWorld) :
    Spec CaptureEnv (Since w) (Ended sup.config) (sup.failAndCoolDown kind message) w := by
  refine spec_since trivial fun now t _ => ?_
  exact spec_startCooldown (sup.publish (sup.capture.state.recordFailure now kind message)) rfl t

/-- A log line, and the cooldown. -/
theorem spec_emit_failAndCoolDown (sup : Supervisor) (line : CaptureLine) (kind message : String)
    (w : CaptureWorld) :
    Spec CaptureEnv (Since w) (Ended sup.config)
      (do emit line; sup.failAndCoolDown kind message) w :=
  spec_since trivial fun _ t _ => spec_failAndCoolDown sup kind message t

/-- The submission of the clip in the staging file `name` ends with a cooldown, the file gone. -/
theorem spec_submitClip (inbox : Inbox) {clip : RecordedClip} {name id : String}
    {triggeredAt recordStart : DateTime} (hclip : clip.clipPath = .source name) :
    Spec CaptureEnv (Since w)
      (fun s t => Ended sup.config s t ∧ t.files.get (.source name) = none)
      (sup.submitClip inbox.submit id triggeredAt recordStart clip) w := by
  have hkeep : ∀ {u : CaptureWorld} {p : CaptureAct Supervisor}, u.files.get (.source name) = none →
      Spec CaptureEnv (Since u) (Ended sup.config) p u →
      Spec CaptureEnv (Since u)
        (fun s t => Ended sup.config s t ∧ t.files.get (.source name) = none) p u :=
    fun hu hp => hp.stopped.mono (fun _ h => h) fun _ _ h => ⟨h.2, h.1.staging name hu⟩
  unfold Supervisor.submitClip
  rw [hclip]
  refine Since.bind (inbox.moves name ⟨triggeredAt⟩ w) fun r t _ hr => ?_
  rcases r with (⟨c, m, b, n⟩ | err) | entry
  · refine spec_since trivial fun v u hv => hkeep (get_of_unlink hv) ?_
    exact spec_emit_failAndCoolDown sup _ _ _ u
  · refine spec_since trivial fun v u hv => hkeep (get_of_unlink hv) ?_
    exact spec_emit_failAndCoolDown sup _ _ _ u
  · refine hkeep (hr ⟨entry, rfl⟩) (spec_since trivial fun now u _ => ?_)
    refine spec_since trivial fun v u _ => ?_
    exact spec_startCooldown (sup.publish (sup.capture.state.recordSuccess entry.clipId triggeredAt))
      rfl u

/-- The loop of a sweep removes the files of its listing. -/
theorem spec_removeAll (l : List Path) (w : CaptureWorld) :
    Spec CaptureEnv (Since w)
      (fun _ t => ∀ name, .source name ∈ l → t.files.get (.source name) = none)
      (removeAll (l.map .ok)) w := by
  induction l generalizing w with
  | nil => exact spec_pure (.refl w) fun name hn => by cases hn
  | cons p rest ih =>
    refine spec_since trivial fun v t hv => ?_
    refine (ih t).stopped.mono (fun _ h => h) fun _ u h name hn => ?_
    rcases List.mem_cons.mp hn with rfl | hn
    · exact h.1.staging name (get_of_unlink hv)
    · exact h.2 name hn

theorem spec_sweepStaging (w : CaptureWorld) :
    Spec CaptureEnv (Since w) (fun _ t => EmptyStaging t.files) sweepStaging w := by
  refine spec_since trivial fun v t hv => ?_
  obtain ⟨-, -, hs, l, hl, rfl⟩ := hv
  refine (spec_removeAll l t).stopped.mono (fun _ h => h) fun _ u h name => ?_
  cases hget : t.files.get (.source name) with
  | none => exact h.1.staging name hget
  | some b =>
    refine h.2 name (hl.mem.mpr ⟨rfl, ?_⟩)
    rw [← hs name, hget]
    rfl

end Exits

/-! ## A recording -/

/-- Between `w` and `t` the camera was invoked at most once, at an instant that meets `gate`. -/
structure Records (gate : DateTime → Prop) (w t : CaptureWorld) : Prop where
  clock : w.clock ≤ t.clock
  log : w.log <+: t.log
  recordings : ∃ new, t.recordings = w.recordings ++ new ∧ new.length ≤ 1 ∧ ∀ at_ ∈ new, gate at_

namespace Records

variable {gate gate' : DateTime → Prop} {w t u : CaptureWorld}

theorem of_since (h : Since w t) : Records gate w t :=
  ⟨h.passing.clock, h.log, [], by simpa using h.passing.recordings, by simp, by simp⟩

theorem since_trans (h : Since w t) (h' : Records gate t u) : Records gate w u := by
  obtain ⟨new, hnew, hlen, hgate⟩ := h'.recordings
  exact ⟨h.passing.clock.trans h'.clock, h.log.trans h'.log, new,
    by rw [hnew, h.passing.recordings], hlen, hgate⟩

theorem trans_since (h : Records gate w t) (h' : Since t u) : Records gate w u := by
  obtain ⟨new, hnew, hlen, hgate⟩ := h.recordings
  exact ⟨h.clock.trans h'.passing.clock, h.log.trans h'.log, new,
    by rw [h'.passing.recordings, hnew], hlen, hgate⟩

theorem imp (h : Records gate w t) (himp : ∀ at_, gate at_ → gate' at_) : Records gate' w t := by
  obtain ⟨new, hnew, hlen, hgate⟩ := h.recordings
  exact ⟨h.clock, h.log, new, hnew, hlen, fun at_ hat => himp at_ (hgate at_ hat)⟩

/-- The invocation of the camera. -/
theorem invoked {id : String} {maxDuration outer : StdDuration}
    {v : Option (Except CameraError RecordedClip)} (hgate : gate w.clock)
    (hv : CaptureEnv w (.recordClip id maxDuration outer) v t) : Records gate w t := by
  obtain ⟨hclock, hrec, hlog, -⟩ := hv
  exact ⟨hclock, hlog ▸ List.prefix_rfl, [w.clock], hrec, le_refl _, by simpa using hgate⟩

end Records

/-- What a recording leaves in a staging directory that was empty: the clip, if there is one. -/
def LeavesClip (r : Except CaptureRecordError RecordedClip) (fs : Fs) : Prop :=
  match r with
  | .ok clip => ∃ name, clip.clipPath = .source name ∧
      ∀ other, other ≠ name → fs.get (.source other) = none
  | .error _ => EmptyStaging fs

section Recording

variable {w : CaptureWorld} {α : Type} {post : α → CaptureWorld → Prop}

/-- What follows a recording leaves the camera alone. -/
theorem spec_after {gate : DateTime → Prop} {t : CaptureWorld} {p : CaptureAct α}
    (h : Records gate w t) (hp : Spec CaptureEnv (Since t) post p t) :
    Spec CaptureEnv (Records gate w) post p t :=
  hp.mono (fun _ hu => h.trans_since hu) fun _ _ hq => hq

theorem spec_before {gate : DateTime → Prop} {t : CaptureWorld} {p : CaptureAct α} (h : Since w t)
    (hp : Spec CaptureEnv (Records gate t) post p t) : Spec CaptureEnv (Records gate w) post p t :=
  hp.mono (fun _ hu => .since_trans h hu) fun _ _ hq => hq

theorem spec_recordIntoStaging (id : String) (maxDuration hangMargin : StdDuration)
    (w : CaptureWorld) :
    Spec CaptureEnv (Records (w.clock ≤ ·) w)
      (fun r t => (∀ clip, r = .ok clip → ∃ name, clip.clipPath = .source name) ∧
        (EmptyStaging w.files → LeavesClip r t.files))
      (recordIntoStaging id maxDuration hangMargin) w := by
  unfold recordIntoStaging
  cases maxDuration.checkedAdd hangMargin with
  | none => exact spec_pure (.of_since (.refl w)) ⟨fun clip h => (by cases h), fun h => h⟩
  | some outer =>
    refine spec_request (.of_since (.refl w)) fun v t hv => ?_
    have hrec : Records (w.clock ≤ ·) w t := .invoked (le_refl _) hv
    have hsweep : ∀ e, Spec CaptureEnv (Records (w.clock ≤ ·) w)
        (fun r t => (∀ clip, r = .ok clip → ∃ name, clip.clipPath = .source name) ∧
          (EmptyStaging w.files → LeavesClip r t.files))
        (do sweepStaging; return .error e) t := fun e =>
      spec_after hrec (Since.bind (spec_sweepStaging t) fun _ u _ hu =>
        spec_pure (.refl u) ⟨fun clip h => (by cases h), fun _ => hu⟩)
    obtain ⟨name, hothers, hclip⟩ := hv.2.2.2
    rcases v with _ | err | clip
    · exact hsweep .timeout
    · exact hsweep (.failed err)
    · have hpath : clip.clipPath = .source name := hclip clip rfl
      dsimp only
      split_ifs with hzero
      · refine spec_after hrec (spec_since trivial fun v u hv => spec_pure (.refl u) ?_)
        refine ⟨fun clip h => (by cases h), fun hw other => ?_⟩
        rw [hpath] at hv
        by_cases ho : other = name
        · rw [ho]
          exact get_of_unlink hv
        · exact (since_of_captureEnv hv trivial).staging other ((hothers other ho).trans (hw other))
      · refine spec_pure hrec ⟨fun clip' h => ?_, fun hw => ⟨name, hpath, fun other ho => ?_⟩⟩
        · obtain rfl := Except.ok.inj h
          exact ⟨name, hpath⟩
        · exact (hothers other ho).trans (hw other)

/-- A handling ends with a cooldown, and leaves an empty staging directory empty. -/
def CleanEnd (config : CaptureConfig) (w : CaptureWorld) (s : Supervisor) (t : CaptureWorld) : Prop :=
  Ended config s t ∧ (EmptyStaging w.files → EmptyStaging t.files)

theorem Since.cleanEnd {sup : Supervisor} {u : CaptureWorld} {p : CaptureAct Supervisor}
    (hu : EmptyStaging w.files → EmptyStaging u.files)
    (hp : Spec CaptureEnv (Since u) (Ended sup.config) p u) :
    Spec CaptureEnv (Since u) (CleanEnd sup.config w) p u :=
  hp.stopped.mono (fun _ h => h) fun _ _ h => ⟨h.2, fun hw => h.1.empty (hu hw)⟩

theorem spec_recordAndHandle (inbox : Inbox) (sup : Supervisor) (triggeredAt : DateTime)
    (w : CaptureWorld) :
    Spec CaptureEnv (Records (w.clock ≤ ·) w) (CleanEnd sup.config w)
      (sup.recordAndHandle inbox.submit triggeredAt) w := by
  refine spec_request (.of_since (.refl w)) fun _ t₁ hv₁ => ?_
  have h₁ : Since w t₁ := since_of_captureEnv hv₁ trivial
  refine (spec_request (.of_since (.refl t₁)) fun recordStart t₂ hv₂ => ?_ :
    Spec CaptureEnv (Records (w.clock ≤ ·) t₁) _ _ t₁).mono
      (fun _ hu => .since_trans h₁ hu) fun _ _ hq => hq
  have h₂ : Since t₁ t₂ := since_of_captureEnv hv₂ trivial
  have hle : w.clock ≤ t₂.clock := h₁.passing.clock.trans h₂.passing.clock
  refine spec_before h₂ (Spec.bind ((spec_recordIntoStaging _ _ _ t₂).mono
    (fun _ hu => hu.imp fun at_ hat => hle.trans hat) fun _ _ hq => hq) fun r t hrec hr => ?_)
  have hempty : EmptyStaging w.files → LeavesClip r t.files := fun hw =>
    hr.2 ((h₁.trans h₂).empty hw)
  refine spec_after hrec ?_
  rcases r with (err | _ | path | _) | clip
  · exact Since.cleanEnd hempty (spec_emit_failAndCoolDown sup _ _ _ t)
  · exact Since.cleanEnd hempty (spec_emit_failAndCoolDown sup _ _ _ t)
  · exact Since.cleanEnd hempty (spec_emit_failAndCoolDown sup _ _ _ t)
  · exact Since.cleanEnd hempty (spec_emit_failAndCoolDown sup _ _ _ t)
  · obtain ⟨name, hname⟩ := hr.1 clip rfl
    refine (spec_submitClip inbox hname).stopped.mono (fun _ h => h) fun s u h => ?_
    refine ⟨h.2.1, fun hw other => ?_⟩
    obtain ⟨name', hname', hothers⟩ := hempty hw
    obtain rfl : name = name' := Path.source.inj (hname.symm.trans hname')
    by_cases ho : other = name
    · rw [ho]
      exact h.2.2
    · exact h.1.staging other (hothers other ho)

theorem since_stagingBytes (w : CaptureWorld) :
    Spec CaptureEnv (Since w) (fun _ _ => True) stagingBytes w := by
  refine spec_since trivial fun v t _ => ?_
  rcases v with (_ | _ | _) | entries <;> exact spec_pure (.refl t) trivial

theorem spec_recordUnlessFull (inbox : Inbox) (sup : Supervisor) (triggeredAt : DateTime)
    (w : CaptureWorld) :
    Spec CaptureEnv (Records (w.clock ≤ ·) w) (CleanEnd sup.config w)
      (sup.recordUnlessFull inbox.submit triggeredAt) w := by
  have hrecord : ∀ t, Since w t →
      Spec CaptureEnv (Records (w.clock ≤ ·) w) (CleanEnd sup.config w)
        (sup.recordAndHandle inbox.submit triggeredAt) t := fun t ht =>
    (spec_recordAndHandle inbox sup triggeredAt t).mono
      (fun _ hu => .since_trans ht (hu.imp fun at_ hat => ht.passing.clock.trans hat))
      fun _ _ hq => ⟨hq.1, fun hw => hq.2 (ht.empty hw)⟩
  refine Spec.bind ((since_stagingBytes w).stopped.mono (fun _ hu => .of_since hu) fun _ _ h => h)
    fun r t _ hr => ?_
  have ht : Since w t := hr.1
  rcases r with err | bytes
  · refine spec_request (.of_since ht) fun _ u hv => ?_
    exact hrecord u (ht.trans (since_of_captureEnv hv trivial))
  · dsimp only
    split_ifs
    · exact spec_after (.of_since ht)
        (Since.cleanEnd ht.empty (spec_emit_failAndCoolDown sup _ _ _ t))
    · exact hrecord t ht

end Recording

/-! ## A trigger -/

/-- The camera may be invoked at the instant: the sensor is not degraded and the cooldown is over. -/
def MayRecord (sup : Supervisor) (at_ : DateTime) : Prop :=
  sup.capture.liveness.isDegraded = false ∧ ∀ d, sup.cooldown.until_ = some d → d ≤ at_

/-- The handling between `w` and `t` logged that the trigger arrived during a cooldown. -/
def SkippedForCooldown (w t : CaptureWorld) : Prop :=
  ∃ cooldownUntil, .cooldownSkip cooldownUntil ∈ t.log.drop w.log.length

/-- How the handling of a trigger ends. -/
structure TriggerHandled (sup : Supervisor) (trigger : Except MotionSensorError DateTime)
    (w : CaptureWorld) (s : Supervisor) (t : CaptureWorld) : Prop where
  config : s.config = sup.config
  cooldown : s.cooldown = sup.cooldown ∨ Ended sup.config s t
  passed : (∃ triggeredAt, trigger = .ok triggeredAt) → ¬ SkippedForCooldown w t →
    Ended sup.config s t
  empty : EmptyStaging w.files → EmptyStaging t.files

theorem CooldownState.not_isActive_iff {c : CooldownState} {now : DateTime} :
    c.isActive now = false ↔ ∀ d, c.until_ = some d → d ≤ now := by
  unfold isActive
  cases c.until_ <;> simp

section Trigger

variable {sup : Supervisor} {w : CaptureWorld}

theorem spec_applyTransition (sup : Supervisor)
    (observed : SensorLivenessTracker × SensorLivenessTransition) (w : CaptureWorld) :
    Spec CaptureEnv (Since w)
      (fun s _ => s.config = sup.config ∧ s.cooldown = sup.cooldown)
      (sup.applyTransition observed) w := by
  unfold Supervisor.applyTransition
  cases Supervisor.transitionLine observed.2 with
  | none => exact spec_pure (.refl w) ⟨rfl, rfl⟩
  | some line => exact spec_since trivial fun _ t _ => spec_pure (.refl t) ⟨rfl, rfl⟩

theorem spec_updateLiveness (sup : Supervisor) (w : CaptureWorld) :
    Spec CaptureEnv (Since w) (fun s _ => s.config = sup.config ∧ s.cooldown = sup.cooldown)
      sup.updateLiveness w :=
  spec_since trivial fun _ _ _ => spec_since trivial fun _ u _ => spec_applyTransition sup _ u

theorem CleanEnd.handled {trigger : Except MotionSensorError DateTime} {s : Supervisor}
    {t u : CaptureWorld} (hu : Since w u) (h : CleanEnd sup.config u s t) :
    TriggerHandled sup trigger w s t :=
  ⟨h.1.config, Or.inr h.1, fun _ _ => h.1, fun hw => h.2 (hu.empty hw)⟩

theorem spec_handleTrigger (inbox : Inbox) (sup : Supervisor)
    (trigger : Except MotionSensorError DateTime) (w : CaptureWorld) :
    Spec CaptureEnv (Records (MayRecord sup) w) (TriggerHandled sup trigger w)
      (sup.handleTrigger inbox.submit trigger) w := by
  cases trigger with
  | error err =>
    have h : Spec CaptureEnv (Since w) (fun s _ => s.config = sup.config ∧ s.cooldown = sup.cooldown)
        (sup.handleTrigger inbox.submit (.error err)) w :=
      spec_since trivial fun _ t _ => spec_applyTransition sup _ t
    refine h.stopped.mono (fun _ hu => .of_since hu) fun s t hq => ?_
    obtain ⟨hsince, hconfig, hcool⟩ := hq
    exact ⟨hconfig, Or.inl hcool, fun h => by simp at h, hsince.empty⟩
  | ok triggeredAt =>
    refine spec_request (.of_since (.refl w)) fun _ t₁ hv₁ => ?_
    have h₁ : Since w t₁ := since_of_captureEnv hv₁ trivial
    refine spec_request (.of_since h₁) fun now t₂ hv₂ => ?_
    have h₂ : Since w t₂ := h₁.trans (since_of_captureEnv hv₂ trivial)
    split_ifs with hactive hdegraded
    · -- inside the cooldown
      cases huntil : sup.cooldown.until_ with
      | none => exact ⟨.of_since h₂, fun v => nomatch v⟩
      | some cooldownUntil =>
        refine spec_request (.of_since h₂) fun _ t₃ hv₃ => ?_
        have h₃ : Since w t₃ := h₂.trans (since_of_captureEnv hv₃ trivial)
        refine spec_pure (.of_since h₃) ⟨rfl, Or.inl rfl, fun _ hskip => ?_, h₃.empty⟩
        obtain ⟨lines, hlines⟩ := h₂.log
        refine absurd ⟨cooldownUntil, ?_⟩ hskip
        have hlog : t₃.log = t₂.log ++ [.cooldownSkip cooldownUntil] := hv₃.2.1
        rw [hlog, ← hlines, List.append_assoc, List.drop_left]
        simp
    · -- the sensor is degraded
      have hskip : Spec CaptureEnv (Since t₂) (Ended sup.config)
          (do emit (.degradedSkip sup.capture.liveness.state.label); sup.startCooldown) t₂ :=
        spec_since trivial fun _ u _ => spec_startCooldown sup rfl u
      exact (Since.cleanEnd (fun h => h) hskip).mono (fun _ hu => .of_since (h₂.trans hu))
        fun _ _ hq => CleanEnd.handled h₂ hq
    · -- the cooldown is over and the sensor well: the clip may be recorded
      have hmay : ∀ at_, t₂.clock ≤ at_ → MayRecord sup at_ := by
        intro at_ hat
        refine ⟨by simpa using hdegraded, fun d hd => ?_⟩
        have hnow := CooldownState.not_isActive_iff.mp (by simpa using hactive) d hd
        rw [clock_of_now hv₂] at hnow
        exact hnow.trans hat
      exact (spec_recordUnlessFull inbox sup triggeredAt t₂).mono
        (fun _ hu => .since_trans h₂ (hu.imp hmay)) fun _ _ hq => CleanEnd.handled h₂ hq

end Trigger

/-! ## Runs -/

/-- What the supervisor's loop does next. -/
inductive CaptureTurn
  | trigger (trigger : Except MotionSensorError DateTime)
  | livenessTick
  | idle

/-- One turn of `run_loop`; while it waits, only the clock must not go back. -/
inductive SupervisorStep (inbox : Inbox) :
    Supervisor × CaptureWorld → CaptureTurn → Supervisor × CaptureWorld → Prop
  | trigger {sup s : Supervisor} {w t : CaptureWorld} {trigger : Except MotionSensorError DateTime}
      (h : Runs CaptureEnv (sup.handleTrigger inbox.submit trigger) w s t) :
      SupervisorStep inbox (sup, w) (.trigger trigger) (s, t)
  | livenessTick {sup s : Supervisor} {w t : CaptureWorld}
      (h : Runs CaptureEnv sup.updateLiveness w s t) :
      SupervisorStep inbox (sup, w) .livenessTick (s, t)
  | idle {sup : Supervisor} {w t : CaptureWorld} (h : Passing w t) :
      SupervisorStep inbox (sup, w) .idle (sup, t)

/-- The instant `e` is past, and the cooldown counts from it or from a later one. -/
structure Cooling (e : DateTime) (x : Supervisor × CaptureWorld) : Prop where
  past : e ≤ x.2.clock
  cooled : CooledFrom e x.1

section Runs

variable {inbox : Inbox} {e : DateTime} {x y : Supervisor × CaptureWorld} {l : CaptureTurn}

theorem CooledFrom.of_eq {sup s : Supervisor} (h : CooledFrom e sup) (hconfig : s.config = sup.config)
    (hcool : s.cooldown = sup.cooldown) : CooledFrom e s := by
  unfold CooledFrom
  rw [hconfig, hcool]
  exact h

/-- A new cooldown is no earlier than what it replaces. -/
theorem Ended.cooling {sup : Supervisor} {t : CaptureWorld} {config : CaptureConfig}
    (h : Ended config sup t) (he : e ≤ t.clock) : Cooling e (sup, t) := by
  obtain ⟨d, hd, hle⟩ := h.cooled
  refine ⟨he, d, hd, ?_⟩
  have hval : e.1 ≤ t.clock.1 := he
  show e.1 + sup.config.cooldownSecs.toNat * nanosPerSec ≤ d.1
  omega

theorem SupervisorStep.config (h : SupervisorStep inbox x l y) : y.1.config = x.1.config := by
  cases h with
  | trigger h => exact ((spec_handleTrigger _ _ _ _).runs h).config
  | livenessTick h => exact ((spec_updateLiveness _ _).runs h).1
  | idle h => rfl

theorem SupervisorStep.cooling (h : SupervisorStep inbox x l y) (hx : Cooling e x) : Cooling e y := by
  cases h with
  | trigger h =>
    have hend := (spec_handleTrigger _ _ _ _).stopped.runs h
    have he := hx.past.trans hend.1.clock
    rcases hend.2.cooldown with hcool | hcool
    · exact ⟨he, hx.cooled.of_eq hend.2.config hcool⟩
    · exact hcool.cooling he
  | livenessTick h =>
    have hend := (spec_updateLiveness _ _).stopped.runs h
    exact ⟨hx.past.trans hend.1.passing.clock, hx.cooled.of_eq hend.2.1 hend.2.2⟩
  | idle h => exact ⟨hx.past.trans h.clock, hx.cooled⟩

/-- The handling of a trigger that passed the cooldown gate, from `x` to `y`. -/
def PassedGate (x : Supervisor × CaptureWorld) (l : CaptureTurn) (y : Supervisor × CaptureWorld) :
    Prop :=
  (∃ triggeredAt, l = .trigger (.ok triggeredAt)) ∧ ¬ SkippedForCooldown x.2 y.2

theorem SupervisorStep.cooling_of_passed (h : SupervisorStep inbox x l y) (hp : PassedGate x l y) :
    Cooling y.2.clock y := by
  obtain ⟨⟨triggeredAt, rfl⟩, hskip⟩ := hp
  cases h with
  | trigger h =>
    have hend := (spec_handleTrigger _ _ _ _).runs h
    exact (hend.passed ⟨triggeredAt, rfl⟩ hskip).cooling (le_refl _)

/-- Along a run, the cooldown counts from the end of each handling that passed the gate. -/
theorem cooling_of_run {x₀ : Supervisor × CaptureWorld}
    {tr : List (CaptureTurn × (Supervisor × CaptureWorld))} (h : Exec (SupervisorStep inbox) x₀ tr x)
    {a u : Supervisor × CaptureWorld} (htk : Exec.Takes (SupervisorStep inbox) x₀ tr a l u)
    (hp : PassedGate a l u) : Cooling u.2.clock x := by
  induction h with
  | nil =>
    obtain ⟨tr₁, tr₂, htr, -⟩ := htk
    simp at htr
  | snoc hrun hs ih =>
    rcases Exec.takes_snoc hrun htk with htk | ⟨rfl, rfl, rfl⟩
    · exact hs.cooling (ih htk)
    · exact hs.cooling_of_passed hp

theorem config_of_run {x₀ : Supervisor × CaptureWorld}
    {tr : List (CaptureTurn × (Supervisor × CaptureWorld))} (h : Exec (SupervisorStep inbox) x₀ tr x) :
    x.1.config = x₀.1.config :=
  h.invariant (I := fun y => y.1.config = x₀.1.config) rfl fun _ _ _ hy hs => hs.config.trans hy

end Runs

/-- What the supervisor may do after the run `tr`, wherever its next turn is stopped. -/
structure Disciplined (config : CaptureConfig) (inbox : Inbox) (x₀ : Supervisor × CaptureWorld)
    (tr : List (CaptureTurn × (Supervisor × CaptureWorld))) (x : Supervisor × CaptureWorld) : Prop where
  /-- A trigger invokes the camera at most once, not while the sensor is degraded, and a cooldown
  after the end of every handling so far that passed the gate. -/
  recordings : ∀ trigger t, Reaches CaptureEnv (x.1.handleTrigger inbox.submit trigger) x.2 t →
    ∃ new, t.recordings = x.2.recordings ++ new ∧ new.length ≤ 1 ∧ ∀ at_ ∈ new,
      x.1.capture.liveness.isDegraded = false ∧
      ∀ a l u, Exec.Takes (SupervisorStep inbox) x₀ tr a l u → PassedGate a l u →
        config.cooldownSecs.toNat * nanosPerSec ≤ at_.since u.2.clock
  /-- A liveness tick does not invoke the camera. -/
  ticks : ∀ t, Reaches CaptureEnv x.1.updateLiveness x.2 t → t.recordings = x.2.recordings
  /-- A handled trigger leaves an empty staging directory empty. -/
  staging : ∀ trigger s t, Runs CaptureEnv (x.1.handleTrigger inbox.submit trigger) x.2 s t →
    EmptyStaging x.2.files → EmptyStaging t.files

/-- For every configuration and every inbox, over every run of the supervisor: recordings keep the
cooldown, the camera rests while the sensor is degraded, and the staging directory stays empty. -/
theorem supervisor_disciplined (inbox : Inbox) {config : CaptureConfig} {maxStagingBytes : UInt64}
    {sup : Supervisor} (hnew : Supervisor.new config maxStagingBytes = some sup)
    {w : CaptureWorld} {tr : List (CaptureTurn × (Supervisor × CaptureWorld))}
    {x : Supervisor × CaptureWorld} (hrun : Exec (SupervisorStep inbox) (sup, w) tr x) :
    Disciplined config inbox (sup, w) tr x := by
  have hconfig : x.1.config = config := by
    rw [config_of_run hrun]
    unfold Supervisor.new at hnew
    obtain ⟨capture, -, hsup⟩ := Option.bind_eq_some_iff.mp hnew
    obtain rfl := Option.some.inj hsup
    rfl
  refine ⟨fun trigger t hr => ?_, fun t hr => ?_, fun trigger s t hr => ?_⟩
  · obtain ⟨new, hnew, hlen, hmay⟩ :=
      ((spec_handleTrigger inbox x.1 trigger x.2).reaches hr).recordings
    refine ⟨new, hnew, hlen, fun at_ hat => ⟨(hmay at_ hat).1, fun a l u htk hp => ?_⟩⟩
    obtain ⟨d, hd, hle⟩ := (cooling_of_run hrun htk hp).cooled
    have hover : d.1 ≤ at_.1 := (hmay at_ hat).2 d hd
    rw [hconfig] at hle
    show config.cooldownSecs.toNat * nanosPerSec ≤ at_.1 - u.2.clock.1
    omega
  · exact ((spec_updateLiveness x.1 x.2).reaches hr).passing.recordings
  · exact ((spec_handleTrigger inbox x.1 trigger x.2).runs hr).empty

/-! A trigger for which the camera delivers nothing. -/

section Recorded

def bootClock : DateTime := .ofSecs 0 DateTime.epoch_inRange

def bootSupervisor : Supervisor :=
  ⟨.default, 1000, ⟨⟨.healthy, 300 * nanosPerSec, none⟩, .new⟩, .new⟩

def bootWorld (recordings : List DateTime) (log : List CaptureLine) : CaptureWorld :=
  ⟨.empty, bootClock, recordings, log⟩

/-- The log of the handling. -/
def failedLog : List CaptureLine :=
  [.triggerObserved bootClock, .recordingStarted (recordingId bootClock) bootClock,
    .recordingFailed (recordingId bootClock) "empty_output"
      (some ("message", CameraError.emptyOutput.display))]

def failedSupervisor : Supervisor :=
  { bootSupervisor with
    capture := ⟨bootSupervisor.capture.liveness, bootSupervisor.capture.state.recordFailure bootClock
      "recording_failed" CameraError.emptyOutput.display⟩
    cooldown := ⟨some (.ofSecs 30 (by decide))⟩ }

theorem passing_bootWorld {recordings : List DateTime} {l l' : List CaptureLine} :
    Passing (bootWorld recordings l) (bootWorld recordings l') :=
  ⟨le_refl _, rfl⟩

/-- The camera is invoked, reports that it got nothing, and the supervisor cools down. -/
theorem runs_failedRecording (inbox : Inbox) :
    Runs CaptureEnv (bootSupervisor.handleTrigger inbox.submit (.ok bootClock)) (bootWorld [] [])
      failedSupervisor (bootWorld [bootClock] failedLog) := by
  have hnow : ∀ rs l, CaptureEnv (bootWorld rs l) (.io .now) bootClock (bootWorld rs l) := fun rs l =>
    ⟨passing_bootWorld, rfl, rfl, fun _ => rfl⟩
  have hemit : ∀ rs l line, CaptureEnv (bootWorld rs l) (.emit line) () (bootWorld rs (l ++ [line])) :=
    fun rs l line => ⟨passing_bootWorld, rfl, fun _ => rfl⟩
  have hscan : ∀ l, CaptureEnv (bootWorld [] l) .scanStaging (.ok []) (bootWorld [] l) :=
    fun l => ⟨passing_bootWorld, rfl, fun _ => rfl⟩
  have hcamera : ∀ id limit outer l, CaptureEnv (bootWorld [] l) (.recordClip id limit outer)
      (some (.error .emptyOutput)) (bootWorld [bootClock] l) := fun id limit outer l =>
    ⟨le_refl _, rfl, rfl, "", fun _ _ => rfl, fun clip h => by cases h⟩
  have hlist : ∀ rs l, CaptureEnv (bootWorld rs l) .listStaging (.ok []) (bootWorld rs l) := fun rs l =>
    ⟨passing_bootWorld, rfl, fun _ => rfl, [], ⟨List.nodup_nil, by simp [bootWorld]⟩, rfl⟩
  -- the three gates let the trigger pass
  refine ⟨(), _, hemit _ _ _, bootClock, _, hnow _ _, .ok [], _, hscan _, ?_⟩
  refine ⟨(), _, hemit _ _ _, bootClock, _, hnow _ _, ?_⟩
  refine ⟨some (.error .emptyOutput), _, hcamera _ _ _ _, .ok [], _, hlist _ _, ?_⟩
  exact ⟨(), _, hemit _ _ _, bootClock, _, hnow _ _, bootClock, _, hnow _ _, rfl, rfl⟩

/-- After that recording the camera rests for the cooldown. -/
theorem supervisor_disciplined_recorded :
    (bootWorld [bootClock] failedLog).recordings = [bootClock] ∧
      Disciplined .default (policyInbox .release ⟨500, 2147483648, .dropOldestUndelivered⟩)
        (bootSupervisor, bootWorld [] [])
        [(.trigger (.ok bootClock), (failedSupervisor, bootWorld [bootClock] failedLog))]
        (failedSupervisor, bootWorld [bootClock] failedLog) :=
  ⟨rfl, supervisor_disciplined _ rfl (Exec.nil.snoc (.trigger (runs_failedRecording _)))⟩

end Recorded

end Perchstation
