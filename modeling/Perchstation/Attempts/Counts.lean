import Perchstation.Config
import Perchstation.Crash

/-!
# Counts — uploads, entries and crashes of a worker

Runs of enqueues, upload attempts and reconciliations, which may be stopped anywhere and started
again.  A clip-id may be handed to a second enqueue; what is counted for it then starts afresh.
-/

namespace Perchstation

open Resumption QueueStore

/-! ## The machine -/

/-- The clip whose media a request has moved into `inflight/`. -/
def entersInflight : (r : Req) → Rep r → List ClipId
  | .rename _ (.queue .inflight c .mp4), .ok () => [c]
  | _, _ => []

/-- `Nominal`, with a log of the clips that enter `inflight/`. -/
def Entering : Env Req Rep (Fs × List ClipId) := fun s r v t =>
  Nominal s.1 r v t.1 ∧ t.2 = s.2 ++ entersInflight r v

/-- A process at work, with the upload it awaits, or the files a crash has left. -/
inductive Worker
  | up (fs : Fs) (awaiting : Option ClipQueueEntry)
  | down (fs : Fs)

def Worker.fs : Worker → Fs
  | .up fs _ => fs
  | .down fs => fs

inductive WorkEvent
  | captured
  | enqueued (clipId : ClipId) (result : Except QueueError ClipQueueEntry)
  | started (result : Except QueueError Head) (entered : List ClipId)
  | finished (entry : ClipQueueEntry) (result : Except ClientError ClassifyTaskPublic)
  | reconciled (result : Except QueueError (List ClipQueueEntry))
  /-- `placed` is the clip of an enqueue that had its sidecar in place when it was cut off. -/
  | crashed (placed : Option ClipId)

/-- One operation run to its end, a crash inside one, or a start after a crash. -/
inductive WorkStep (schedule : BackoffSchedule) : Worker → WorkEvent → Worker → Prop
  | capture (fs : Fs) (aw : Option ClipQueueEntry) (name : String) (b : Blob) :
      WorkStep schedule (.up fs aw) .captured (.up (fs.put (.source name) b) aw)
  | enqueue {fs t : Fs} {aw : Option ClipQueueEntry} {c : ClipId} {name : String}
      {clipMeta : ClipMeta} {r : Except QueueError ClipQueueEntry} :
      Runs Nominal (enqueueWithId c (.source name) clipMeta) fs r t →
      WorkStep schedule (.up fs aw) (.enqueued c r) (.up t aw)
  | start {fs t : Fs} {r : Except QueueError Head} {entered : List ClipId} :
      Runs Entering tryOnceHead (fs, []) r (t, entered) →
      WorkStep schedule (.up fs none) (.started r entered) (.up t (Head.awaiting r))
  | finish {fs t : Fs} {e : ClipQueueEntry} {result : Except ClientError ClassifyTaskPublic}
      {r : Except QueueError Unit} : Runs Nominal (tryOnceFinish schedule e result) fs r t →
      WorkStep schedule (.up fs (some e)) (.finished e result) (.up t none)
  | reconcile {fs t : Fs} {r : Except QueueError (List ClipQueueEntry)} :
      Runs Nominal reconcileInflight fs r t →
      WorkStep schedule (.up fs none) (.reconciled r) (.up t none)
  | crashEnqueue {fs t : Fs} {aw : Option ClipQueueEntry} {c : ClipId} {name : String}
      {clipMeta : ClipMeta} : Reaches Nominal (enqueueWithId c (.source name) clipMeta) fs t →
      WorkStep schedule (.up fs aw)
        (.crashed (if t.get (.queue .pending c .json) = fs.get (.queue .pending c .json) then none
          else some c)) (.down t)
  | crashStart {fs t : Fs} : Reaches Nominal tryOnceHead fs t →
      WorkStep schedule (.up fs none) (.crashed none) (.down t)
  | crashFinish {fs t : Fs} {e : ClipQueueEntry} {result : Except ClientError ClassifyTaskPublic} :
      Reaches Nominal (tryOnceFinish schedule e result) fs t →
      WorkStep schedule (.up fs (some e)) (.crashed none) (.down t)
  | crashReconcile {fs t : Fs} : Reaches Nominal reconcileInflight fs t →
      WorkStep schedule (.up fs none) (.crashed none) (.down t)
  | crashBoot {fs t : Fs} : Reaches Nominal reconcileInflight fs t →
      WorkStep schedule (.down fs) (.crashed none) (.down t)
  | boot {fs t : Fs} {recovered : List ClipQueueEntry} :
      Runs Nominal reconcileInflight fs (.ok recovered) t →
      WorkStep schedule (.down fs) (.reconciled (.ok recovered)) (.up t none)

/-! ## What is counted -/

namespace WorkEvent

/-- A sidecar of `c` is put in place by an enqueue. -/
def enqueues (c : ClipId) : WorkEvent → Bool
  | .enqueued s (.ok _) => s = c
  | .crashed (some s) => s = c
  | _ => false

/-- An upload of `c` is started. -/
def uploads (c : ClipId) : WorkEvent → ℕ
  | .started (.ok (.upload e)) _ => if e.clipId = c then 1 else 0
  | _ => 0

/-- How often `c` has entered `inflight/`. -/
def enters (c : ClipId) : WorkEvent → ℕ
  | .started _ entered => entered.count c
  | _ => 0

def isCrash : WorkEvent → Bool
  | .crashed _ => true
  | _ => false

end WorkEvent

/-- The sum of `f` over the events since `c` was last enqueued. -/
def sinceEnqueue (c : ClipId) (f : WorkEvent → ℕ) (tr : List (WorkEvent × Worker)) : ℕ :=
  tr.foldl (fun n x => if x.1.enqueues c then 0 else n + f x.1) 0

/-- The uploads of `c` started since it was enqueued. -/
def uploads (c : ClipId) (tr : List (WorkEvent × Worker)) : ℕ := sinceEnqueue c (WorkEvent.uploads c) tr

/-- How often `c` has entered `inflight/` since it was enqueued. -/
def entries (c : ClipId) (tr : List (WorkEvent × Worker)) : ℕ := sinceEnqueue c (WorkEvent.enters c) tr

def crashes (tr : List (WorkEvent × Worker)) : ℕ := tr.countP fun x => x.1.isCrash

/-- How often `c` was enqueued. -/
def enqueues (c : ClipId) (tr : List (WorkEvent × Worker)) : ℕ := tr.countP fun x => x.1.enqueues c

theorem sinceEnqueue_snoc {c : ClipId} {f : WorkEvent → ℕ} {tr : List (WorkEvent × Worker)}
    {x : WorkEvent × Worker} : sinceEnqueue c f (tr ++ [x]) =
      if x.1.enqueues c then 0 else sinceEnqueue c f tr + f x.1 := by
  rw [sinceEnqueue, List.foldl_append]
  rfl

theorem crashes_snoc {tr : List (WorkEvent × Worker)} {x : WorkEvent × Worker} :
    crashes (tr ++ [x]) = crashes tr + if x.1.isCrash then 1 else 0 := by
  rw [crashes, List.countP_append, List.countP_singleton]
  rfl

theorem enqueues_snoc {c : ClipId} {tr : List (WorkEvent × Worker)} {x : WorkEvent × Worker} :
    enqueues c (tr ++ [x]) = enqueues c tr + if x.1.enqueues c then 1 else 0 := by
  rw [enqueues, List.countP_append, List.countP_singleton]
  rfl

theorem runs_of_entering {α : Type} {p : Act α} {a : α} {fs t : Fs} {l l' : List ClipId}
    (h : Runs Entering p (fs, l) a (t, l')) : Runs Nominal p fs a t :=
  Runs.map Prod.fst (fun _ _ _ _ h => h.1) h

/-- Every run without faults has a log. -/
theorem exists_entering {α : Type} {p : Act α} {a : α} {fs t : Fs} (l : List ClipId)
    (h : Runs Nominal p fs a t) : ∃ l', Runs Entering p (fs, l) a (t, l') := by
  induction p generalizing fs l with
  | pure b =>
    obtain ⟨rfl, rfl⟩ := h
    exact ⟨l, rfl, rfl⟩
  | ask r k ih =>
    obtain ⟨v, u, hv, h⟩ := h
    obtain ⟨l', hr⟩ := ih v (l ++ entersInflight r v) h
    exact ⟨l', v, (u, l ++ entersInflight r v), ⟨hv, rfl⟩, hr⟩

/-- No upload of `c` is awaited. -/
def NotAwaited (c : ClipId) (aw : Option ClipQueueEntry) : Prop :=
  ∀ e, aw = some e → e.clipId ≠ c

/-! ## The attempts of a record -/

/-- One more attempt counts one more, up to the largest counter. -/
theorem attempts_startAttempt_toNat (e : ClipQueueEntry) (at_ : DateTime) :
    (startAttempt e at_).attempts.toNat = min (e.attempts.toNat + 1) (2 ^ 32 - 1) :=
  saturatingAdd32_toNat e.attempts 1

theorem attempts_lt_of_schedule {schedule : BackoffSchedule} {now : DateTime}
    {e : ClipQueueEntry} {floor : Option StdDuration} {next : DateTime}
    (h : schedule.schedule now e.attempts e.firstAttemptAt floor = some (.retry next)) :
    e.attempts.toNat < schedule.perClipMaxAttempts.toNat := by
  have hbudget : schedule.budgetExhausted now e.attempts e.firstAttemptAt = false := by
    by_contra hb
    have hex := (schedule.schedule_eq_exhausted_iff now e.attempts e.firstAttemptAt floor).mpr
      (by simpa using hb)
    rw [hex] at h
    cases h
  by_contra hlt
  have hle : schedule.perClipMaxAttempts ≤ e.attempts := UInt32.le_iff_toNat_le.mpr (by omega)
  simp [BackoffSchedule.budgetExhausted, hle] at hbudget

end Perchstation
