import Perchstation.Delivery.Requests
import Perchstation.Identity.Store
import Perchstation.Lib.Cancellation
import Perchstation.Station

/-!
# Delivery loop — `DeliveryRunner::run` beside the other tasks (`delivery/runner.rs`)

`turn` is the body of the loop up to its sleep.  A shutdown ends the loop at its head, in a sleep, or at
the await of the upload, where the rest of `try_once` is dropped.  `DaemonStep` cuts a turn at that
await, so that steps of the other tasks can come in between, and adds the boot of the process.
-/

namespace Perchstation

open Resumption QueueStore

namespace DeliveryRunner

/-! ## One turn -/

/-- `IDLE_TICK`. -/
def idleTick : StdDuration := 50 * 1000000

/-- `CERT_EXPIRED_TICK`. -/
def certExpiredTick : StdDuration := .fromSecs 60

/-- `DISK_FULL_RETRY`. -/
def diskFullRetry : StdDuration := .fromSecs 5

/-- `disk_full_backoff`. -/
def diskFullBackoff (maxAttemptDelay : StdDuration) : StdDuration :=
  min diskFullRetry maxAttemptDelay

/-- The sleep after `try_once`, if there is one. -/
def pauseAfter (schedule : BackoffSchedule) : Except QueueError Bool → Option StdDuration
  | .ok true => none
  | .ok false => some idleTick
  | .error (.diskFull _) => some (diskFullBackoff schedule.maxAttemptDelay)
  | .error _ => some idleTick

/-- The body of the loop in `run`: the sleep it ends with, and `cert_expired_logged` after it. -/
def turn (client : PerchpubClient) (schedule : BackoffSchedule) (identity : StationIdentity)
    (logged : Bool) : Act (Option StdDuration × Bool) := do
  let at_ ← now
  if identity.certIsExpired at_ then return (some certExpiredTick, true)
  else
    let outcome ← tryOnce client schedule
    return (pauseAfter schedule outcome, logged)

/-! ## The turn cut at its await -/

/-- What a turn comes to before its await; a halted one may log the expiry. -/
inductive TurnHead
  | halted (logs : Bool)
  | tried (result : Except QueueError Head)

/-- A turn up to the upload. -/
def turnHead (identity : StationIdentity) (logged : Bool) : Act TurnHead := do
  let at_ ← now
  if identity.certIsExpired at_ then return .halted (!logged)
  else
    let result ← tryOnceHead
    return .tried result

/-- Where the loop is: at its head, at the await of an upload, in a sleep, or broken out of. -/
inductive Stage
  | top
  | uploading (entry : ClipQueueEntry)
  | asleep (tick : StdDuration)
  | over

/-- Where a turn ends. -/
def Stage.after : Option StdDuration → Stage
  | none => .top
  | some tick => .asleep tick

def TurnHead.stage (schedule : BackoffSchedule) : TurnHead → Stage
  | .halted _ => .asleep certExpiredTick
  | .tried (.ok (.upload entry)) => .uploading entry
  | .tried (.ok .progressed) => .after (pauseAfter schedule (.ok true))
  | .tried (.ok .idle) => .after (pauseAfter schedule (.ok false))
  | .tried (.error err) => .after (pauseAfter schedule (.error err))

def TurnHead.awaiting : TurnHead → Option ClipQueueEntry
  | .halted _ => none
  | .tried result => Head.awaiting result

/-- `cert_expired_logged` after the turn. -/
def TurnHead.logged (logged : Bool) : TurnHead → Bool
  | .halted _ => true
  | .tried _ => logged

/-- Where the loop goes on after the second half of `try_once`. -/
def stageAfterFinish (schedule : BackoffSchedule) : Except QueueError Unit → Stage
  | .ok () => .after (pauseAfter schedule (.ok true))
  | .error err => .after (pauseAfter schedule (.error err))

end DeliveryRunner

open DeliveryRunner

/-- The requests at an `.await`. -/
def Req.IsAwaited : Req → Prop
  | .openFile _ => True
  | .post _ _ _ => True
  | .getUrl _ => True
  | _ => False

/-! ## The loop beside the other tasks -/

/-- The station, and its delivery loop. -/
structure Daemon where
  station : Station
  stage : Stage
  certExpiredLogged : Bool

/-- The event is one of capture, policy or the poller. -/
def Event.OfOtherTask : Event → Prop
  | .started _ => False
  | .finished _ _ _ => False
  | .restarted _ => False
  | _ => True

inductive DaemonEvent
  | task (event : Event)
  /-- The first half of a turn, with what it read off the clock. -/
  | turned (readings : List DateTime) (head : TurnHead)
  /-- The second half of a turn that uploads. -/
  | uploaded (entry : ClipQueueEntry) (result : Except ClientError ClassifyTaskPublic)
      (readings : List DateTime)
  | woken (tick : StdDuration)
  | cancelled
  | pollDropped
  | booted (recovered : List ClipQueueEntry)

inductive DaemonStep (cfg : Config) (identity : StationIdentity) :
    Daemon → DaemonEvent → Daemon → Prop
  | task {st st' : Station} {stage : Stage} {logged : Bool} {ev : Event} : ev.OfOtherTask →
      Step cfg st ev st' → DaemonStep cfg identity ⟨st, stage, logged⟩ (.task ev) ⟨st', stage, logged⟩
  | turn {st : Station} {logged : Bool} {readings : List DateTime} {head : TurnHead} {t : Fs} :
      Runs Clocked (turnHead identity logged) (st.fs, readings) head (t, []) →
      DaemonStep cfg identity ⟨st, .top, logged⟩ (.turned readings head)
        ⟨{ st with fs := t, awaiting := head.awaiting }, head.stage cfg.schedule,
          head.logged logged⟩
  | upload {st : Station} {e : ClipQueueEntry} {logged : Bool}
      {result : Except ClientError ClassifyTaskPublic} {readings : List DateTime}
      {r : Except QueueError Unit} {t : Fs} :
      Runs Clocked (tryOnceFinish cfg.schedule e result) (st.fs, readings) r (t, []) →
      DaemonStep cfg identity ⟨st, .uploading e, logged⟩ (.uploaded e result readings)
        ⟨{ st with fs := t, awaiting := none }, stageAfterFinish cfg.schedule r, logged⟩
  | wake (st : Station) (tick : StdDuration) (logged : Bool) :
      DaemonStep cfg identity ⟨st, .asleep tick, logged⟩ (.woken tick) ⟨st, .top, logged⟩
  | cancel {st : Station} {stage : Stage} {logged : Bool} : stage ≠ .over →
      DaemonStep cfg identity ⟨st, stage, logged⟩ .cancelled ⟨st, .over, logged⟩
  | dropPoll {st : Station} {stage : Stage} {logged : Bool} {t : Fs} :
      Dropped Req.IsAwaited Nominal (ClassifyPoller.pollRound cfg.client cfg.showUuid st.seen)
        st.fs t →
      DaemonStep cfg identity ⟨st, stage, logged⟩ .pollDropped ⟨{ st with fs := t }, stage, logged⟩
  /-- A process starts after the one before has been stopped between two operations. -/
  | boot {st : Station} {stage : Stage} {logged : Bool} {recovered : List ClipQueueEntry} {t : Fs} :
      Runs Nominal reconcileInflight st.fs (.ok recovered) t →
      DaemonStep cfg identity ⟨st, stage, logged⟩ (.booted recovered)
        ⟨{ st with fs := t, awaiting := none, seen := ∅ }, .top, false⟩

/-- No process has been started yet, and nothing was ever queued. -/
structure Daemon.Initial (d : Daemon) : Prop where
  station : d.station.Initial
  stage : d.stage = .over

/-! ## A turn in one piece -/

section Turn

variable {client : PerchpubClient} {schedule : BackoffSchedule} {identity : StationIdentity}
  {logged : Bool} {fs t : Fs} {readings rest : List DateTime}

theorem runs_turnHead {head : TurnHead}
    (h : Runs Clocked (turnHead identity logged) (fs, readings) head (t, rest)) :
    ∃ gate readings', readings = gate :: readings' ∧
      ((identity.certIsExpired gate = true ∧ readings' = rest ∧ head = .halted (!logged) ∧ t = fs) ∨
        identity.certIsExpired gate = false ∧ ∃ r, head = .tried r ∧
          Runs Clocked tryOnceHead (fs, readings') r (t, rest)) := by
  rw [turnHead, runs_bind] at h
  obtain ⟨gate, ⟨u, readings'⟩, hnow, h⟩ := h
  obtain ⟨rfl, rfl⟩ := runs_now_clocked.mp hnow
  refine ⟨gate, readings', rfl, ?_⟩
  by_cases hexp : identity.certIsExpired gate = true
  · rw [if_pos hexp] at h
    obtain ⟨rfl, hstate⟩ := h
    obtain ⟨rfl, rfl⟩ := Prod.mk.inj hstate
    exact Or.inl ⟨hexp, rfl, rfl, rfl⟩
  · rw [if_neg hexp, runs_bind] at h
    obtain ⟨r, w, hr, rfl, rfl⟩ := h
    exact Or.inr ⟨Bool.not_eq_true _ ▸ hexp, r, rfl, hr⟩

/-- A run reads some readings and leaves the rest. -/
theorem exists_readings {α : Type} {p : Act α} {a : α}
    (h : Runs Clocked p (fs, readings) a (t, rest)) :
    ∃ used, readings = used ++ rest ∧ Runs Clocked p (fs, used) a (t, []) := by
  induction p generalizing fs readings with
  | pure b =>
    obtain ⟨rfl, hstate⟩ := h
    obtain ⟨rfl, rfl⟩ := Prod.mk.inj hstate
    exact ⟨[], rfl, rfl, rfl⟩
  | ask r k ih =>
    obtain ⟨v, ⟨u, readings'⟩, hv, h⟩ := h
    obtain ⟨used, rfl, hr⟩ := ih v h
    cases r with
    | now =>
      obtain ⟨rfl, rfl⟩ := hv
      exact ⟨v :: used, rfl, v, (u, used), ⟨rfl, rfl⟩, hr⟩
    | _ =>
      obtain ⟨hnom, heq⟩ := hv
      obtain rfl : used ++ rest = readings := heq
      exact ⟨used, rfl, v, (u, used), ⟨hnom, rfl⟩, hr⟩

/-- A turn that is not halted is `try_once` and what its result leads to. -/
theorem runs_turn {pause : Option StdDuration} {logged' : Bool}
    (h : Runs Clocked (turn client schedule identity logged) (fs, readings) (pause, logged')
      (t, rest)) :
    ∃ gate readings', readings = gate :: readings' ∧
      ((identity.certIsExpired gate = true ∧ readings' = rest ∧ t = fs ∧
          pause = some certExpiredTick ∧ logged' = true) ∨
        identity.certIsExpired gate = false ∧ logged' = logged ∧ ∃ r,
          pause = pauseAfter schedule r ∧
            Runs Clocked (tryOnce client schedule) (fs, readings') r (t, rest)) := by
  rw [turn, runs_bind] at h
  obtain ⟨gate, ⟨u, readings'⟩, hnow, h⟩ := h
  obtain ⟨rfl, rfl⟩ := runs_now_clocked.mp hnow
  refine ⟨gate, readings', rfl, ?_⟩
  by_cases hexp : identity.certIsExpired gate = true
  · rw [if_pos hexp] at h
    obtain ⟨hout, hstate⟩ := h
    obtain ⟨rfl, rfl⟩ := Prod.mk.inj hout
    obtain ⟨rfl, rfl⟩ := Prod.mk.inj hstate
    exact Or.inl ⟨hexp, rfl, rfl, rfl, rfl⟩
  · rw [if_neg hexp, runs_bind] at h
    obtain ⟨r, w, hr, hout, rfl⟩ := h
    obtain ⟨rfl, rfl⟩ := Prod.mk.inj hout
    exact Or.inr ⟨Bool.not_eq_true _ ▸ hexp, rfl, r, rfl, hr⟩

/-- `try_once` ends with its first half, or goes on with the second after the upload. -/
theorem runs_tryOnce {r : Except QueueError Bool}
    (h : Runs Clocked (tryOnce client schedule) (fs, readings) r (t, rest)) :
    ∃ head u readings', Runs Clocked tryOnceHead (fs, readings) head (u, readings') ∧
      ((u = t ∧ readings' = rest ∧ Head.awaiting head = none ∧
          (TurnHead.tried head).stage schedule = .after (pauseAfter schedule r)) ∨
        ∃ e result readings'' fin, head = .ok (.upload e) ∧
          Runs Clocked (tryOnceFinish schedule e result) (u, readings'') fin (t, rest) ∧
          stageAfterFinish schedule fin = .after (pauseAfter schedule r)) := by
  rw [tryOnce, runs_bind] at h
  obtain ⟨head, ⟨u, readings'⟩, hhead, h⟩ := h
  refine ⟨head, u, readings', hhead, ?_⟩
  rcases head with err | _ | _ | e
  · obtain ⟨rfl, hstate⟩ := h
    obtain ⟨rfl, rfl⟩ := Prod.mk.inj hstate
    exact Or.inl ⟨rfl, rfl, rfl, rfl⟩
  · obtain ⟨rfl, hstate⟩ := h
    obtain ⟨rfl, rfl⟩ := Prod.mk.inj hstate
    exact Or.inl ⟨rfl, rfl, rfl, rfl⟩
  · obtain ⟨rfl, hstate⟩ := h
    obtain ⟨rfl, rfl⟩ := Prod.mk.inj hstate
    exact Or.inl ⟨rfl, rfl, rfl, rfl⟩
  · dsimp only at h
    rw [runs_bind] at h
    obtain ⟨result, ⟨w, readings''⟩, hup, h⟩ := h
    obtain ⟨rfl, -⟩ := runs_uploadClip_iff.mp (runs_nominal hup)
    rw [runs_bind] at h
    obtain ⟨fin, w', hfin, h⟩ := h
    rcases fin with err | _
    · obtain ⟨rfl, rfl⟩ := h
      exact Or.inr ⟨e, result, readings'', _, rfl, hfin, rfl⟩
    · obtain ⟨rfl, rfl⟩ := h
      exact Or.inr ⟨e, result, readings'', _, rfl, hfin, rfl⟩

theorem turnHead_of_open {gate : DateTime} {r : Except QueueError Head}
    (hgate : identity.certIsExpired gate = false)
    (h : Runs Clocked tryOnceHead (fs, readings) r (t, rest)) :
    Runs Clocked (turnHead identity logged) (fs, gate :: readings) (.tried r) (t, rest) := by
  rw [turnHead, runs_bind]
  refine ⟨gate, (fs, readings), runs_now_clocked.mpr ⟨rfl, rfl⟩, ?_⟩
  rw [if_neg (by simp [hgate]), runs_bind]
  exact ⟨r, (t, rest), h, rfl, rfl⟩

end Turn

section Refinement

variable {cfg : Config} {identity : StationIdentity} {logged : Bool} {st : Station} {t : Fs}

/-- A turn run to its end is steps of the loop, from its head to where the turn leaves it. -/
theorem exec_of_turn {readings : List DateTime} {pause : Option StdDuration} {logged' : Bool}
    (h : Runs Clocked (turn cfg.client cfg.schedule identity logged) (st.fs, readings)
      (pause, logged') (t, [])) :
    ∃ tr, Exec (DaemonStep cfg identity) ⟨st, .top, logged⟩ tr
      ⟨{ st with fs := t, awaiting := none }, .after pause, logged'⟩ := by
  obtain ⟨gate, readings', rfl, ⟨hexp, rfl, rfl, rfl, rfl⟩ | ⟨hopen, rfl, r, rfl, hr⟩⟩ := runs_turn h
  · have hhead : Runs Clocked (turnHead identity logged) (st.fs, [gate]) (.halted (!logged))
        (st.fs, []) := by
      rw [turnHead, runs_bind]
      refine ⟨gate, (st.fs, []), runs_now_clocked.mpr ⟨rfl, rfl⟩, ?_⟩
      rw [if_pos hexp]
      exact ⟨rfl, rfl⟩
    exact ⟨_, Exec.nil.snoc (.turn hhead)⟩
  · obtain ⟨head, u, readings'', hhead, hrest⟩ := runs_tryOnce hr
    obtain ⟨used, -, hhead⟩ := exists_readings hhead
    have hturn : DaemonStep cfg identity ⟨st, .top, logged'⟩
        (.turned (gate :: used) (.tried head)) ⟨{ st with fs := u, awaiting := Head.awaiting head },
          (TurnHead.tried head).stage cfg.schedule, logged'⟩ := .turn (turnHead_of_open hopen hhead)
    rcases hrest with ⟨rfl, -, hidle, hstage⟩ | ⟨e, result, readings₂, fin, rfl, hfin, hstage⟩
    · rw [hidle, hstage] at hturn
      exact ⟨_, Exec.nil.snoc hturn⟩
    · obtain ⟨used', -, hfin⟩ := exists_readings hfin
      have hup : DaemonStep cfg identity ⟨{ st with fs := u, awaiting := some e }, .uploading e, logged'⟩
          (.uploaded e result used') ⟨{ st with fs := t, awaiting := none },
            stageAfterFinish cfg.schedule fin, logged'⟩ := .upload hfin
      rw [hstage] at hup
      exact ⟨_, (Exec.nil.snoc hturn).snoc hup⟩

/-! ## A turn dropped at its await -/

theorem allowsLocal_notAwaited : AllowsLocal fun r => ¬ r.IsAwaited where
  readDir _ := id
  read _ := id
  createDirAll _ := id
  fileExists _ := id
  moveTo _ := id
  write _ _ := id
  removeFile _ := id
  rename _ _ _ := id
  handOff _ _ _ := id
  metadata _ := id
  now := id
  abort := id

/-- Apart from the upload nothing in `try_once` is awaited. -/
theorem not_dropped_tryOnceHead {fs : Fs} : ¬ Dropped Req.IsAwaited Nominal tryOnceHead fs t :=
  Within.not_dropped (within_tryOnceHead allowsLocal_notAwaited.toAllowsScan
    allowsLocal_notAwaited.toAllowsRecords (fun _ _ _ => id) (fun _ => id) id)

theorem not_dropped_tryOnceFinish {fs : Fs} {e : ClipQueueEntry} {schedule : BackoffSchedule}
    {result : Except ClientError ClassifyTaskPublic} :
    ¬ Dropped Req.IsAwaited Nominal (tryOnceFinish schedule e result) fs t :=
  Within.not_dropped allowsLocal_notAwaited.within_tryOnceFinish

/-- An upload whose URL is allowed is dropped with the files as they are. -/
theorem dropped_uploadClip_iff {client : PerchpubClient} {fs : Fs} {p : Path} {c : ClipId} :
    Dropped Req.IsAwaited Nominal (client.uploadClip p c) fs t ↔
      t = fs ∧ ∃ url, client.allowed "/api/v1/upload/" = .ok url := by
  unfold PerchpubClient.uploadClip
  cases hurl : client.allowed "/api/v1/upload/" with
  | error err => simp
  | ok url =>
    dsimp only
    rw [dropped_bind]
    constructor
    · rintro (h | ⟨opened, u, hopen, h⟩)
      · exact ⟨(dropped_request.mp h).2, url, rfl⟩
      · obtain rfl : u = fs := (runs_openFile.mp hopen).1
        refine ⟨?_, url, rfl⟩
        rcases opened with err | _
        · cases h
        · rcases dropped_bind.mp h with h | ⟨answer, u', hpost, h⟩
          · exact (dropped_request.mp h).2
          · rcases answer with message | response
            · cases h
            · rcases dropped_bind.mp h with h | ⟨_, _, -, h⟩
              · exact (dropped_request.mp h).1.elim
              · cases h
    · rintro ⟨rfl, -⟩
      exact Or.inl (dropped_request.mpr ⟨trivial, rfl⟩)

theorem dropped_tryOnce_iff {client : PerchpubClient} {schedule : BackoffSchedule} {fs : Fs} :
    Dropped Req.IsAwaited Nominal (tryOnce client schedule) fs t ↔
      (∃ url, client.allowed "/api/v1/upload/" = .ok url) ∧
        ∃ e, Runs Nominal tryOnceHead fs (.ok (.upload e)) t := by
  rw [tryOnce, dropped_bind]
  constructor
  · rintro (h | ⟨head, u, hhead, h⟩)
    · exact (not_dropped_tryOnceHead h).elim
    · rcases head with err | _ | _ | e
      · cases h
      · cases h
      · cases h
      · rcases dropped_bind.mp h with h | ⟨result, w, -, h⟩
        · obtain ⟨rfl, hurl⟩ := dropped_uploadClip_iff.mp h
          exact ⟨hurl, e, hhead⟩
        · rcases dropped_bind.mp h with h | ⟨fin, w', -, h⟩
          · exact (not_dropped_tryOnceFinish h).elim
          · rcases fin with err | _ <;> cases h
  · rintro ⟨hurl, e, hhead⟩
    exact Or.inr ⟨_, t, hhead, dropped_bind.mpr (Or.inl (dropped_uploadClip_iff.mpr ⟨rfl, hurl⟩))⟩

/-- A turn can be dropped exactly where it awaits an upload; all of its first half is done then. -/
theorem dropped_turn_iff {client : PerchpubClient} {schedule : BackoffSchedule} {fs : Fs} :
    Dropped Req.IsAwaited Nominal (turn client schedule identity logged) fs t ↔
      (∃ url, client.allowed "/api/v1/upload/" = .ok url) ∧
        ∃ e, Runs Nominal (turnHead identity logged) fs (.tried (.ok (.upload e))) t := by
  rw [turn, dropped_bind]
  constructor
  · rintro (h | ⟨gate, u, hnow, h⟩)
    · exact (dropped_request.mp h).1.elim
    · obtain rfl : u = fs := runs_now.mp hnow
      by_cases hexp : identity.certIsExpired gate = true
      · rw [if_pos hexp] at h
        cases h
      · rw [if_neg hexp] at h
        rcases dropped_bind.mp h with h | ⟨_, _, -, h⟩
        · obtain ⟨hurl, e, hhead⟩ := dropped_tryOnce_iff.mp h
          refine ⟨hurl, e, ?_⟩
          rw [turnHead, runs_bind]
          refine ⟨gate, u, hnow, ?_⟩
          rw [if_neg hexp, runs_bind]
          exact ⟨_, t, hhead, rfl, rfl⟩
        · cases h
  · rintro ⟨hurl, e, h⟩
    rw [turnHead, runs_bind] at h
    obtain ⟨gate, u, hnow, h⟩ := h
    refine Or.inr ⟨gate, u, hnow, ?_⟩
    by_cases hexp : identity.certIsExpired gate = true
    · rw [if_pos hexp] at h
      cases h.1
    · rw [if_neg hexp, runs_bind] at h
      obtain ⟨r, w, hhead, hr, rfl⟩ := h
      obtain rfl := TurnHead.tried.inj hr
      rw [if_neg hexp]
      exact dropped_bind.mpr (Or.inl (dropped_tryOnce_iff.mpr ⟨hurl, e, hhead⟩))

/-- A first half, and the end of the loop at the await behind it. -/
theorem exec_of_head {e : ClipQueueEntry}
    (h : Runs Nominal (turnHead identity logged) st.fs (.tried (.ok (.upload e))) t) :
    ∃ tr, Exec (DaemonStep cfg identity) ⟨st, .top, logged⟩ tr
      ⟨{ st with fs := t, awaiting := some e }, .over, logged⟩ := by
  obtain ⟨readings, hhead⟩ := exists_clocked [] h
  rw [List.append_nil] at hhead
  have hturn : DaemonStep cfg identity ⟨st, .top, logged⟩ (.turned readings (.tried (.ok (.upload e))))
      ⟨{ st with fs := t, awaiting := some e }, .uploading e, logged⟩ := .turn hhead
  exact ⟨_, (Exec.nil.snoc hturn).snoc (.cancel (by simp))⟩

/-- One iteration of `run` up to its sleep.  Run to its end it is steps of the daemon.  It can be
dropped only where it awaits an upload; then its first half has been done, nothing else has been begun,
and that too is steps of the daemon. -/
theorem turns_refine (st : Station) (logged : Bool) :
    (∀ readings pause logged' t, Runs Clocked (turn cfg.client cfg.schedule identity logged)
        (st.fs, readings) (pause, logged') (t, []) →
      ∃ tr, Exec (DaemonStep cfg identity) ⟨st, .top, logged⟩ tr
        ⟨{ st with fs := t, awaiting := none }, .after pause, logged'⟩) ∧
      ∀ t, Dropped Req.IsAwaited Nominal (turn cfg.client cfg.schedule identity logged) st.fs t →
        ∃ e, Runs Nominal (turnHead identity logged) st.fs (.tried (.ok (.upload e))) t ∧
          ∃ tr, Exec (DaemonStep cfg identity) ⟨st, .top, logged⟩ tr
            ⟨{ st with fs := t, awaiting := some e }, .over, logged⟩ := by
  refine ⟨fun readings pause logged' t h => exec_of_turn h, fun t h => ?_⟩
  obtain ⟨-, e, hhead⟩ := dropped_turn_iff.mp h
  exact ⟨e, hhead, exec_of_head hhead⟩

end Refinement

end Perchstation
