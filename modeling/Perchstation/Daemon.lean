import Perchstation.Attempts.Counts
import Perchstation.Delivery.Loop
import Perchstation.Queue.Pick
import Perchstation.Recovery

/-!
# Daemon — what each step of the serving process does to each clip

`ClipMove` lists the ways, one for each kind of step.  In every run, with boots, shutdowns and dropped
poll rounds anywhere, each clip is in one phase, and the only clip in `inflight/` is the one whose
upload is awaited.
-/

namespace Perchstation

open Resumption QueueStore DeliveryRunner

variable {fs t : Fs} {at_ : DateTime} {c : ClipId}

/-! ## The halves of `try_once` -/

/-- The record of `c` is the one a scan at `at_` has to pick. -/
structure PickedFirst (fs : Fs) (at_ : DateTime) (c : ClipId) (e : ClipQueueEntry) : Prop where
  eligible : Eligible fs at_ c e
  least : ∀ s e', Eligible fs at_ s e' → pendingName c ≤ pendingName s

/-- How the first half of `try_once` moves the clips when its scan is at `at_`. -/
inductive HeadMoves (fs : Fs) (at_ : DateTime) : Except QueueError Head → Fs → Prop
  | idle {t : Fs} : (∀ c e, ¬ Eligible fs at_ c e) → (∀ c, SameClip fs t c) →
      HeadMoves fs at_ (.ok .idle) t
  | refused {t : Fs} {c : ClipId} {m : Blob} {o : OpenEntry c} {d : ClosedEntry c} :
      PickedFirst fs at_ c o.1 → At fs c (.pending m o) → At t c (.delivered d) →
      (∀ s, s ≠ c → SameClip fs t s) → HeadMoves fs at_ (.ok .progressed) t
  | taken {t : Fs} {c : ClipId} {m : Blob} {o : OpenEntry c} :
      PickedFirst fs at_ c o.1 → At fs c (.pending m o) → At t c (.inflight m (o.started at_)) →
      (∀ s, s ≠ c → SameClip fs t s) → HeadMoves fs at_ (.ok (.upload (o.started at_).1)) t

theorem runs_tryOnceHead_moves {readings rest : List DateTime} {r : Except QueueError Head}
    (hfs : Tidy fs) (hn : Named fs) (h : Runs Clocked tryOnceHead (fs, readings) r (t, rest)) :
    ∃ at_ readings', readings = at_ :: readings' ∧ HeadMoves fs at_ r t := by
  rw [tryOnceHead, runs_bind] at h
  obtain ⟨at_, ⟨w, readings'⟩, hnow, h⟩ := h
  obtain ⟨rfl, rfl⟩ := runs_now_clocked.mp hnow
  refine ⟨at_, readings', rfl, ?_⟩
  replace h := runs_nominal h
  rw [runs_bind] at h
  obtain ⟨v, u, hpick, h⟩ := h
  obtain ⟨o, rfl, hleast⟩ := pickedLeast_of_runs hpick
  obtain ⟨o', ho, hpicked⟩ := runs_pickOldestPending hpick
  obtain rfl := Except.ok.inj ho
  obtain ⟨hsame, hentry⟩ := hpicked.tidy hfs hn
  cases o with
  | none =>
    obtain ⟨rfl, rfl⟩ := h
    exact .idle (hleast.idle rfl) hsame
  | some e =>
    obtain ⟨m, hopen, hat⟩ := hentry e rfl
    have hat' : At w e.clipId (.pending m ⟨e, rfl, hopen⟩) := hat.of_sameClip (hsame _).symm
    have hfirst : PickedFirst w at_ e.clipId e := by
      obtain ⟨c, hel, hmin⟩ := hleast.entry e rfl
      obtain rfl := hn _ _ _ hel.1
      exact ⟨hel, hmin⟩
    have hm : u.get (.queue .pending e.clipId .mp4) = some m := hat.media (d := .pending) (by simp)
    have hmoved := hat.movedInflight (e := OpenEntry.started ⟨e, rfl, hopen⟩ at_)
    have hother : ∀ s, s ≠ e.clipId → SameClip w (movedInflight u m (startAttempt e at_)) s :=
      fun s hs => (hsame s).trans (sameClip_movedInflight (e := startAttempt e at_) hs)
    dsimp only at h
    rw [runs_bind] at h
    obtain ⟨_, w', hmove, h⟩ := h
    rcases runs_transitionInflight.mp hmove with ⟨hnone, -⟩ | ⟨m', hm', rfl, rfl⟩
    · -- a tidy store has no orphans
      rw [hm] at hnone
      cases hnone
    · obtain rfl : m = m' := Option.some.inj (hm.symm.trans hm')
      rcases runs_startUpload get_movedInflight_media h with
        ⟨rfl, rfl⟩ | ⟨len, reason, at', -, -, rfl, rfl⟩
      · -- the upload starts, or is refused unsent
        exact .taken hfirst hat' hmoved hother
      · refine .refused hfirst hat' (hmoved.movedDelivered
          (e := ⟨refusedRecord (startAttempt e at_) at' reason, by simp, by simp⟩)) fun s hs => ?_
        exact (hother s hs).trans
          (sameClip_movedDelivered (e := refusedRecord (startAttempt e at_) at' reason) hs)

/-- How the second half of an attempt moves its clip. -/
theorem FinishRun.moves {schedule : BackoffSchedule} {m : Blob} {o : OpenEntry c}
    {result : Except ClientError ClassifyTaskPublic} (hat : At fs c (.inflight m o))
    (h : FinishRun schedule fs o.1 at_ result t) :
    (∀ s, s ≠ c → SameClip fs t s) ∧ ((∃ d : ClosedEntry c, At t c (.delivered d)) ∨
      ∃ o' : OpenEntry c, At t c (.pending m o') ∧ o'.1.attempts = o.1.attempts ∧
        o.1.attempts < schedule.perClipMaxAttempts) := by
  have hsettle : ∀ e : ClipQueueEntry, e.clipId = o.1.clipId → e.outcome.isSome →
      (∀ s, s ≠ c → SameClip fs (movedDelivered fs e) s) ∧
        ∃ d : ClosedEntry c, At (movedDelivered fs e) c (.delivered d) := by
    intro e hid hout
    have hc : e.clipId = c := hid.trans o.2.1
    exact ⟨fun s hs => sameClip_movedDelivered (hc ▸ hs), ⟨e, hc, hout⟩,
      hat.movedDelivered (e := ⟨e, hc, hout⟩)⟩
  cases h with
  | accepted => exact (hsettle _ (by simp) (by simp)).imp_right Or.inl
  | undecodable => exact (hsettle _ (by simp) (by simp)).imp_right Or.inl
  | @retried err next _ hs =>
    have hc : (retryRecord o.1 next (errorKind err) err.status err.display).clipId = c := o.2.1
    have hopen : (retryRecord o.1 next (errorKind err) err.status err.display).outcome = none :=
      o.2.2
    refine ⟨fun s hne => ?_, Or.inr ⟨⟨_, hc, hopen⟩, hat.movedBack (e := ⟨_, hc, hopen⟩), rfl, ?_⟩⟩
    · refine sameClip_movedBack ?_
      rw [hc]
      exact hne
    · exact UInt32.lt_iff_toNat_lt.mpr (attempts_lt_of_schedule hs)
  | exhausted => exact (hsettle _ (by simp) (by simp)).imp_right Or.inl
  | terminal => exact (hsettle _ (by simp) (by simp)).imp_right Or.inl

/-! ## A poll round dropped at its await -/

section Poller

open ClassifyPoller

variable {client : PerchpubClient} {showUuid : Uuid → String} {known : Finset ClipId}

theorem dropped_getClassifyTask {id : Uuid}
    (h : Dropped Req.IsAwaited Nominal (client.getClassifyTask showUuid id) fs t) : t = fs := by
  unfold PerchpubClient.getClassifyTask at h
  split at h
  · cases h
  · rcases dropped_bind.mp h with h | ⟨answer, u, -, h⟩
    · exact (dropped_request.mp h).2
    · rcases answer with message | response
      · cases h
      · rcases dropped_bind.mp h with h | ⟨_, _, -, h⟩
        · exact (dropped_request.mp h).1.elim
        · cases h

/-- A poll is dropped before it has written anything. -/
theorem dropped_pollOne {e : ClipQueueEntry}
    (h : Dropped Req.IsAwaited Nominal (pollOne client showUuid known e) fs t) : t = fs := by
  have hupdate : ∀ {e'}, Within (fun r => ¬ Req.IsAwaited r) (updateDeliveredSidecar e') :=
    allowsLocal_notAwaited.within_writeSidecarAtomic
  unfold pollOne at h
  split at h
  · rcases h with ⟨hw, -⟩ | ⟨v, -⟩
    · exact hw.elim
    · exact v.elim
  · rcases dropped_bind.mp h with h | ⟨r, u, hget, h⟩
    · exact dropped_getClassifyTask h
    · rcases r with err | task
      · dsimp only at h
        split at h
        · cases h
        · rcases dropped_bind.mp h with h | ⟨at_, w, -, h⟩
          · exact (dropped_request.mp h).1.elim
          · rcases dropped_bind.mp h with h | ⟨v, w', -, h⟩
            · exact (Within.not_dropped hupdate h).elim
            · rcases v with err' | _ <;> cases h
      · rcases dropped_bind.mp h with h | ⟨v, w, -, h⟩
        · exact (Within.not_dropped hupdate h).elim
        · rcases v with err' | _ <;> cases h

theorem dropped_pollLoop {es : List ClipQueueEntry} (hnd : (es.map ClipQueueEntry.clipId).Nodup)
    (hes : ∀ e ∈ es, isPollable e = true ∧
      fs.get (.queue .delivered e.clipId .json) = some (.sidecar e))
    (h : Dropped Req.IsAwaited Nominal (pollLoop client showUuid known es) fs t) :
    PollEffect fs t := by
  induction es generalizing fs known with
  | nil => cases h
  | cons e rest ih =>
    obtain ⟨hne, hnd'⟩ := List.nodup_cons.mp hnd
    obtain ⟨hpoll, hget⟩ := hes e List.mem_cons_self
    rw [pollLoop] at h
    rcases dropped_bind.mp h with h | ⟨⟨known', r⟩, u, hone, h⟩
    · obtain rfl := dropped_pollOne h
      exact PollEffect.refl _
    · obtain ⟨hr, heff, hframe⟩ := runs_pollOne hget hpoll hone
      obtain rfl : r = .ok () := hr
      rcases dropped_bind.mp h with h | ⟨⟨known'', r⟩, w, -, h⟩
      · refine heff.trans (ih hnd' (fun e' he' => ?_) h)
        obtain ⟨hpoll', hget'⟩ := hes e' (List.mem_cons_of_mem _ he')
        refine ⟨hpoll', ?_⟩
        rw [hframe _ fun hid => hne (hid ▸ List.mem_map_of_mem he'), hget']
      · cases r <;> cases h

/-- A dropped poll round has done to the files what a shorter one does. -/
theorem dropped_pollRound (hn : Named fs)
    (h : Dropped Req.IsAwaited Nominal (pollRound client showUuid known) fs t) :
    PollEffect fs t := by
  unfold pollRound at h
  rcases dropped_bind.mp h with h | ⟨⟨known', r⟩, u, hscan, h⟩
  · exact (Within.not_dropped allowsLocal_notAwaited.within_scanNonTerminal h).elim
  · simp only [scanNonTerminal, runs_bind, runs_readDir, Nominal] at hscan
    obtain ⟨_, w, ⟨rfl, l, hl, rfl⟩, hscan⟩ := hscan
    obtain ⟨es, hr, hs⟩ := runs_scanLoop hn hl.nodup (fun p hp => (hl.mem.mp hp).1) hscan
    obtain rfl : r = .ok es := hr
    exact hs.effect.trans (dropped_pollLoop hs.nodup (fun e he => (hs.entry e he).2) h)

end Poller

/-! ## The steps -/

/-- An eviction or a prune names the clip. -/
def DaemonEvent.Names (c : ClipId) : DaemonEvent → Prop
  | .task event => event.Names c
  | _ => False

/-- The ways a step moves a clip, with the limit of attempts a clip has. -/
inductive ClipMove (limit : UInt32) (d : Daemon) (ev : DaemonEvent) (c : ClipId) :
    Phase c → Phase c → Prop
  | same (p : Phase c) : ClipMove limit d ev c p p
  | enqueued {m : Blob} {o : OpenEntry c} : c ∉ d.station.used →
      ClipMove limit d ev c .gone (.pending m o)
  | removed {p : Phase c} : ev.Names c → (∀ m o, p ≠ .inflight m o) → ClipMove limit d ev c p .gone
  | polled {e e' : ClosedEntry c} : ClipMove limit d ev c (.delivered e) (.delivered e')
  | taken {readings : List DateTime} {m : Blob} {o : OpenEntry c} {at_ : DateTime} :
      ev = .turned readings (.tried (.ok (.upload (o.started at_).1))) →
      ClipMove limit d ev c (.pending m o) (.inflight m (o.started at_))
  | refused {readings : List DateTime} {m : Blob} {o : OpenEntry c} {e : ClosedEntry c} :
      ev = .turned readings (.tried (.ok .progressed)) →
      ClipMove limit d ev c (.pending m o) (.delivered e)
  | retried {m : Blob} {o o' : OpenEntry c} {result : Except ClientError ClassifyTaskPublic}
      {readings : List DateTime} : ev = .uploaded o.1 result readings →
      o'.1.attempts = o.1.attempts → o.1.attempts < limit →
      ClipMove limit d ev c (.inflight m o) (.pending m o')
  | settled {m : Blob} {o : OpenEntry c} {e : ClosedEntry c}
      {result : Except ClientError ClassifyTaskPublic} {readings : List DateTime} :
      ev = .uploaded o.1 result readings → ClipMove limit d ev c (.inflight m o) (.delivered e)
  | requeued {recovered : List ClipQueueEntry} {m : Blob} {o o' : OpenEntry c} :
      ev = .booted recovered → o'.1.attempts = o.1.attempts →
      ClipMove limit d ev c (.inflight m o) (.pending m o')

/-- The clip awaited is the one in `inflight/`, and is where the loop says. -/
structure Daemon.Inv (d : Daemon) : Prop where
  station : Perchstation.Inv d.station
  uploading : ∀ e, d.stage = .uploading e → d.station.awaiting = some e
  idle : d.stage = .top ∨ (∃ tick, d.stage = .asleep tick) → d.station.awaiting = none
  inflight : ∀ c m o, At d.station.fs c (.inflight m o) → d.station.awaiting = some o.1

theorem Daemon.Initial.inv {d : Daemon} (h : d.Initial) : d.Inv where
  station := h.station.inv
  uploading e he := by
    rw [h.stage] at he
    cases he
  idle hs := by
    rw [h.stage] at hs
    rcases hs with hs | ⟨tick, hs⟩ <;> cases hs
  inflight c m o hat := by
    have hgone : At d.station.fs c .gone := fun d' x _ _ => h.station.empty d' c x
    cases hgone.unique hat

variable {cfg : Config} {identity : StationIdentity} {d d' : Daemon} {ev : DaemonEvent}
  {st st' : Station}

theorem Step.task_awaiting {event : Event} (hother : event.OfOtherTask)
    (h : Step cfg st event st') : st'.awaiting = st.awaiting := by
  cases h with
  | start | finish | restart => exact hother.elim
  | _ => rfl

/-- A step of another task leaves `inflight/` alone. -/
theorem Step.task_moves {event : Event} (hi : Inv st) (hother : event.OfOtherTask)
    (h : Step cfg st event st') {limit : UInt32} {stage : Stage} {logged : Bool} {p : Phase c}
    (hp : At st.fs c p) :
    ∃ q, At st'.fs c q ∧ ClipMove limit ⟨st, stage, logged⟩ (.task event) c p q := by
  cases h with
  | capture name b =>
    refine ⟨p, hp.of_sameClip ?_, .same p⟩
    rintro d x (rfl | rfl) <;> simp [FileMap.get_put]
  | @enqueue s name clipMeta r t hs hr =>
    rcases runs_enqueueWithId.mp hr with ⟨-, rfl, rfl⟩ | ⟨m, len, at_, -, -, rfl, rfl⟩
    · exact ⟨p, hp, .same p⟩
    · by_cases hc : c = s
      · subst hc
        obtain rfl := hp.unique (hi.unused c hs)
        exact ⟨_, hp.enqueued (n := name) (m := m)
          (e := ⟨.new c clipMeta.capturedAt at_ len, rfl, rfl⟩), .enqueued hs⟩
      · exact ⟨p, hp.of_sameClip (sameClip_enqueued hc), .same p⟩
  | enforce hr =>
    rcases hp.policyEffect hi.named (runs_applyPolicy hr).1 with ⟨hat, -⟩ | ⟨hat, hnext, hrec⟩
    · exact ⟨p, hat, .same p⟩
    · refine ⟨.gone, hat, .removed hrec ?_⟩
      rintro m o rfl
      cases hnext
  | poll hr =>
    rcases hp.pollEffect (runs_pollRound hi.named hr) with hat | ⟨e, e', rfl, -, hat⟩
    · exact ⟨p, hat, .same p⟩
    · exact ⟨_, hat, .polled⟩
  | prune hr =>
    obtain ⟨_, cutoff, -, heff⟩ := runs_pruneRound hr
    rcases hp.pruneEffect hi.named heff with ⟨hat, -⟩ | ⟨hat, hnext, hmem⟩
    · exact ⟨p, hat, .same p⟩
    · refine ⟨.gone, hat, .removed hmem ?_⟩
      rintro m o rfl
      cases hnext
  | start | finish | restart => exact hother.elim

/-- What a step does: it keeps the invariant and moves the clips. -/
def Daemon.Moved (limit : UInt32) (d : Daemon) (ev : DaemonEvent) (d' : Daemon) : Prop :=
  d'.Inv ∧ ∀ c (p : Phase c), At d.station.fs c p →
    ∃ q, At d'.station.fs c q ∧ ClipMove limit d ev c p q

/-- While nothing is awaited nothing is in `inflight/`. -/
theorem Daemon.Inv.not_inflight (hi : d.Inv) (hidle : d.station.awaiting = none) {m : Blob}
    {o : OpenEntry c} : ¬ At d.station.fs c (.inflight m o) := by
  intro hat
  have haw := hi.inflight c m o hat
  rw [hidle] at haw
  cases haw

variable {stage stage' : Stage} {logged logged' : Bool} {limit : UInt32}

/-- The loop goes from one stage to another while the station stays as it is. -/
theorem Daemon.Inv.restage (hi : Daemon.Inv ⟨st, stage, logged⟩)
    (hup : ∀ e, stage' = .uploading e → st.awaiting = some e)
    (hidle : stage' = .top ∨ (∃ tick, stage' = .asleep tick) → st.awaiting = none) :
    Daemon.Moved limit ⟨st, stage, logged⟩ ev ⟨st, stage', logged'⟩ :=
  ⟨⟨hi.station, hup, hidle, hi.inflight⟩, fun _ p hp => ⟨p, hp, .same p⟩⟩

theorem stage_after_ne_uploading {pause : Option StdDuration} {e : ClipQueueEntry} :
    Stage.after pause ≠ .uploading e := by
  cases pause <;> simp [Stage.after]

theorem stage_uploading {schedule : BackoffSchedule} {head : TurnHead} {e : ClipQueueEntry}
    (h : head.stage schedule = .uploading e) : head.awaiting = some e := by
  rcases head with logs | err | _ | _ | e'
  · cases h
  · exact (stage_after_ne_uploading h).elim
  · cases h
  · cases h
  · obtain rfl := Stage.uploading.inj h
    rfl

theorem stage_idle {schedule : BackoffSchedule} {head : TurnHead}
    (h : head.stage schedule = .top ∨ ∃ tick, head.stage schedule = .asleep tick) :
    head.awaiting = none := by
  rcases head with logs | err | _ | _ | e
  · rfl
  · rfl
  · rfl
  · rfl
  · rcases h with h | ⟨tick, h⟩ <;> cases h

theorem DaemonStep.turn_spec {readings : List DateTime} {head : TurnHead}
    (hi : Daemon.Inv ⟨st, .top, logged⟩)
    (h : Runs Clocked (turnHead identity logged) (st.fs, readings) head (t, [])) :
    Daemon.Moved limit ⟨st, .top, logged⟩ (.turned readings head)
      ⟨{ st with fs := t, awaiting := head.awaiting }, head.stage cfg.schedule,
        head.logged logged⟩ := by
  have hnone : st.awaiting = none := hi.idle (Or.inl rfl)
  obtain ⟨gate, readings', rfl, ⟨-, -, rfl, rfl⟩ | ⟨-, r, rfl, hr⟩⟩ := runs_turnHead h
  · -- the certificate has expired: the turn does nothing
    have hst : { st with awaiting := none } = st := by
      cases st
      cases hnone
      rfl
    show Daemon.Moved limit ⟨st, .top, logged⟩ _ ⟨{ st with awaiting := none }, _, _⟩
    rw [hst]
    exact hi.restage (fun e he => by cases he) fun _ => hnone
  · have hstart : Perchstation.Step cfg st (.started _) _ := .start hnone (runs_nominal hr)
    have hst : Perchstation.Inv { st with fs := t, awaiting := Head.awaiting r } :=
      hi.station.step hstart
    obtain ⟨at_, readings₂, rfl, hmoves⟩ :=
      runs_tryOnceHead_moves hi.station.tidy hi.station.named hr
    have hinv : (∀ c m o, At t c (.inflight m o) → Head.awaiting r = some o.1) →
        Daemon.Inv ⟨{ st with fs := t, awaiting := Head.awaiting r },
          (TurnHead.tried r).stage cfg.schedule, logged⟩ := fun hinf =>
      ⟨hst, fun e he => stage_uploading he, fun hs => stage_idle hs, hinf⟩
    cases hmoves with
    | idle _ hsame =>
      -- nothing is eligible
      refine ⟨hinv fun c m o hat => ?_, fun c p hp => ⟨p, hp.of_sameClip (hsame c), .same p⟩⟩
      exact (hi.not_inflight hnone (hat.of_sameClip (hsame c).symm)).elim
    | @refused _ s m₀ o₀ e _ hfs ht hother =>
      -- the clip picked is delivered as refused
      refine ⟨hinv fun c m o hat => ?_, fun c p hp => ?_⟩
      · by_cases hc : c = s
        · subst hc
          cases hat.unique ht
        · exact (hi.not_inflight hnone (hat.of_sameClip (hother c hc).symm)).elim
      · by_cases hc : c = s
        · subst hc
          obtain rfl := hp.unique hfs
          exact ⟨_, ht, .refused rfl⟩
        · exact ⟨p, hp.of_sameClip (hother c hc), .same p⟩
    | @taken _ s m₀ o₀ _ hfs ht hother =>
      -- the clip picked is in `inflight/`, and its upload awaited
      refine ⟨hinv fun c m o hat => ?_, fun c p hp => ?_⟩
      · by_cases hc : c = s
        · subst hc
          cases hat.unique ht
          rfl
        · exact (hi.not_inflight hnone (hat.of_sameClip (hother c hc).symm)).elim
      · by_cases hc : c = s
        · subst hc
          obtain rfl := hp.unique hfs
          exact ⟨_, ht, .taken rfl⟩
        · exact ⟨p, hp.of_sameClip (hother c hc), .same p⟩

theorem DaemonStep.upload_spec {e : ClipQueueEntry}
    {result : Except ClientError ClassifyTaskPublic} {readings : List DateTime}
    {r : Except QueueError Unit} (hi : Daemon.Inv ⟨st, .uploading e, logged⟩)
    (h : Runs Clocked (tryOnceFinish cfg.schedule e result) (st.fs, readings) r (t, [])) :
    Daemon.Moved cfg.schedule.perClipMaxAttempts ⟨st, .uploading e, logged⟩
      (.uploaded e result readings)
      ⟨{ st with fs := t, awaiting := none }, stageAfterFinish cfg.schedule r, logged⟩ := by
  have haw : st.awaiting = some e := hi.uploading e rfl
  have hst : Perchstation.Inv { st with fs := t, awaiting := none } :=
    hi.station.step (.finish haw h)
  obtain ⟨m, ho, hat⟩ := hi.station.awaiting e haw
  obtain ⟨at_, rest, rfl, rfl, hfin⟩ := runs_tryOnceFinish h
  obtain ⟨hother, hend⟩ := FinishRun.moves hat hfin
  have hgone : ∀ m o, ¬ At t e.clipId (.inflight m o) := by
    intro m' o' hat'
    rcases hend with ⟨d, hd⟩ | ⟨o₂, ho₂, -⟩
    · cases hat'.unique hd
    · cases hat'.unique ho₂
  have hstage : ∀ e', stageAfterFinish cfg.schedule (.ok ()) ≠ .uploading e' := by
    intro e'
    rw [stageAfterFinish]
    exact stage_after_ne_uploading
  refine ⟨⟨hst, fun e' he => (hstage e' he).elim, fun _ => rfl, fun c m' o' hat' => ?_⟩,
    fun c p hp => ?_⟩
  · by_cases hc : c = e.clipId
    · subst hc
      exact (hgone m' o' hat').elim
    · have hbefore := hi.inflight c m' o' (hat'.of_sameClip (hother c hc).symm)
      rw [haw] at hbefore
      obtain rfl := Option.some.inj hbefore
      exact (hc o'.2.1.symm).elim
  · by_cases hc : c = e.clipId
    · subst hc
      obtain rfl := hp.unique hat
      rcases hend with ⟨d, hd⟩ | ⟨o', ho', hatt, hlt⟩
      · exact ⟨_, hd, .settled rfl⟩
      · exact ⟨_, ho', .retried rfl hatt hlt⟩
    · exact ⟨p, hp.of_sameClip (hother c hc), .same p⟩

theorem Inv.legible (hi : Perchstation.Inv st) : Legible st.fs := by
  intro d c hd hs
  obtain ⟨p, hp⟩ := hi.tidy c
  obtain ⟨b, hb⟩ := Option.isSome_iff_exists.mp hs
  obtain ⟨e, rfl, -⟩ := Phase.file_json_eq_some ((hp.sidecar hd).symm.trans hb)
  exact ⟨e, hb⟩

/-- A boot brings the clip in `inflight/` back to `pending/`, and nothing is left there. -/
theorem DaemonStep.boot_spec {recovered : List ClipQueueEntry} (hi : Daemon.Inv ⟨st, stage, logged⟩)
    (h : Runs Nominal reconcileInflight st.fs (.ok recovered) t) :
    Daemon.Moved limit ⟨st, stage, logged⟩ (.booted recovered)
      ⟨{ st with fs := t, awaiting := none, seen := ∅ }, .top, false⟩ := by
  obtain ⟨hret, hn⟩ := reconcileInflight_returned hi.station.tidy hi.station.named h
  have hev : Evolves st.fs t fun _ => False := hret.evolves
  have hst : Perchstation.Inv { st with fs := t, awaiting := none, seen := ∅ } :=
    hi.station.of_evolves hev hn fun _ he => by cases he
  have hlegible : Legible st.fs := hi.station.legible
  obtain ⟨-, hclips, entries, -, hlisted, hsorted⟩ :=
    runs_reconcileInflight_files hlegible hi.station.named h
  have hrec : Recovered st.fs t entries := recovered_of_files hlegible hclips hlisted hsorted
  refine ⟨⟨hst, (fun _ he => by cases he), fun _ => rfl, fun c m o hat => ?_⟩, fun c p hp => ?_⟩
  · have hgone := (hrec.inflight c).1
    rw [hat.sidecar (by simp)] at hgone
    cases hgone
  · obtain ⟨q, hq, rfl | ⟨m, o, o', rfl, rfl, hatt⟩⟩ := hret c p hp
    · exact ⟨q, hq, .same q⟩
    · exact ⟨_, hq, .requeued rfl hatt⟩

/-- Only a turn of the loop brings a clip into `inflight/`. -/
theorem ClipMove.of_inflight {p : Phase c} {m : Blob} {o : OpenEntry c}
    (hev : ∀ readings head, ev ≠ .turned readings head)
    (h : ClipMove limit d ev c p (.inflight m o)) : p = .inflight m o := by
  cases h with
  | same => rfl
  | taken hturn => exact (hev _ _ hturn).elim

/-- A step of another task, or a part of one. -/
theorem Daemon.Inv.beside (hi : Daemon.Inv ⟨st, stage, logged⟩)
    (hst : Perchstation.Inv st') (haw : st'.awaiting = st.awaiting)
    (hev : ∀ readings head, ev ≠ .turned readings head)
    (hmoves : ∀ c (p : Phase c), At st.fs c p →
      ∃ q, At st'.fs c q ∧ ClipMove limit ⟨st, stage, logged⟩ ev c p q) :
    Daemon.Moved limit ⟨st, stage, logged⟩ ev ⟨st', stage, logged⟩ := by
  refine ⟨⟨hst, fun e he => haw.trans (hi.uploading e he), fun hs => haw.trans (hi.idle hs),
    fun c m o hat => ?_⟩, hmoves⟩
  obtain ⟨p, hp⟩ := hi.station.tidy c
  obtain ⟨q, hq, hmove⟩ := hmoves c p hp
  obtain rfl := hq.unique hat
  obtain rfl := hmove.of_inflight hev
  exact haw.trans (hi.inflight c m o hp)

theorem DaemonStep.dropPoll_spec (hi : Daemon.Inv ⟨st, stage, logged⟩)
    (h : Dropped Req.IsAwaited Nominal (ClassifyPoller.pollRound cfg.client cfg.showUuid st.seen)
      st.fs t) :
    Daemon.Moved limit ⟨st, stage, logged⟩ .pollDropped ⟨{ st with fs := t }, stage, logged⟩ := by
  have heff := dropped_pollRound hi.station.named h
  have hpoll : ∀ c (p : Phase c), At st.fs c p →
      At t c p ∨ ∃ e e', p = .delivered e ∧ PollUpdate e.1 e'.1 ∧ At t c (.delivered e') :=
    fun c p hp => hp.pollEffect heff
  have hev : Evolves st.fs t fun _ => False := by
    intro c p hp
    rcases hpoll c p hp with hat | ⟨e, e', rfl, hu, hat⟩
    · exact ⟨p, hat, .refl, Or.inl⟩
    · exact ⟨_, hat, .single (.poll hu), fun h => by cases h⟩
  have hst : Perchstation.Inv { st with fs := t } :=
    hi.station.of_evolves hev (heff.named hi.station.named)
      (hi.station.awaiting_of_inflight fun c m o hat => by
        rcases hpoll c _ hat with hat' | ⟨_, _, hp, -⟩
        · exact hat'
        · cases hp)
  refine hi.beside hst rfl (by simp) fun c p hp => ?_
  rcases hpoll c p hp with hat | ⟨e, e', rfl, -, hat⟩
  · exact ⟨p, hat, .same p⟩
  · exact ⟨_, hat, .polled⟩

/-- Every step keeps the invariant and moves each clip in one of the ways listed. -/
theorem DaemonStep.spec (hi : d.Inv) (h : DaemonStep cfg identity d ev d') :
    d.Moved cfg.schedule.perClipMaxAttempts ev d' := by
  cases h with
  | @task st st' stage logged event hother hstep =>
    exact hi.beside (hi.station.step hstep) (hstep.task_awaiting hother) (by simp) fun c p hp =>
      Step.task_moves hi.station hother hstep hp
  | turn hr => exact DaemonStep.turn_spec hi hr
  | upload hr => exact DaemonStep.upload_spec hi hr
  | wake st tick logged =>
    exact hi.restage (fun e he => by cases he) fun _ => hi.idle (Or.inr ⟨tick, rfl⟩)
  | cancel hstage =>
    refine hi.restage (fun e he => by cases he) ?_
    rintro (h | ⟨tick, h⟩) <;> cases h
  | dropPoll hr => exact DaemonStep.dropPoll_spec hi hr
  | boot hr => exact DaemonStep.boot_spec hi hr

theorem Daemon.Inv.step (hi : d.Inv) (h : DaemonStep cfg identity d ev d') : d'.Inv := (h.spec hi).1

theorem DaemonStep.used_subset (h : DaemonStep cfg identity d ev d') :
    d.station.used ⊆ d'.station.used := by
  cases h with
  | task _ hstep => exact hstep.used_subset
  | _ => exact Finset.Subset.refl _

theorem Daemon.Inv.exec {tr : List (DaemonEvent × Daemon)} (hi : d.Inv)
    (h : Exec (DaemonStep cfg identity) d tr d') : d'.Inv :=
  h.invariant hi fun _ _ _ hi hs => hi.step hs

/-- A turn of the loop is halted by the expiry, or scans `pending/`. -/
theorem DaemonStep.turned {readings : List DateTime} {head : TurnHead} (hi : d.Inv)
    (h : DaemonStep cfg identity d (.turned readings head) d') :
    ∃ gate readings', readings = gate :: readings' ∧
      ((identity.certIsExpired gate = true ∧ head = .halted (!d.certExpiredLogged)) ∨
        identity.certIsExpired gate = false ∧ ∃ at_ rest r, readings' = at_ :: rest ∧
          head = .tried r ∧ HeadMoves d.station.fs at_ r d'.station.fs) := by
  cases h with
  | turn hr =>
    obtain ⟨gate, readings', rfl, ⟨hexp, -, rfl, -⟩ | ⟨hopen, r, rfl, hhead⟩⟩ := runs_turnHead hr
    · exact ⟨gate, readings', rfl, Or.inl ⟨hexp, rfl⟩⟩
    · obtain ⟨at_, rest, rfl, hmoves⟩ :=
        runs_tryOnceHead_moves hi.station.tidy hi.station.named hhead
      exact ⟨gate, _, rfl, Or.inr ⟨hopen, at_, rest, r, rfl, rfl, hmoves⟩⟩

end Perchstation
