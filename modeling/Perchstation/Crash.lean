import Perchstation.Queue.RecoveryRules
import Perchstation.Queue.StopRules
import Perchstation.Station

/-!
# Crash — a station that is stopped between two file-system calls and started again

A machine is up, or down with the files as its stop left them.  The delivery task may be stopped
anywhere in either half of `try_once`; a machine that is down reconciles, and may be stopped anywhere
in that; once a reconciliation has succeeded it is up again.

A clip is followed through such a run in three lemmas, one for each thing it can be: not yet enqueued,
kept, or lost.
-/

namespace Perchstation

open Resumption QueueStore

/-! ## Stops of the delivery task -/

section DeliveryStops

variable {fs t u : Fs} {c : ClipId} {e : ClipQueueEntry} {m : Blob}

/-- The stops of the first half of `try_once`, after the scan has left `u`. -/
inductive HeadStop (fs t : Fs) : Prop
  | scan : Picked fs t none → HeadStop fs t
  | move {u : Fs} {e : ClipQueueEntry} {at_ : DateTime} : Picked fs u (some e) →
      Reaches Nominal (transitionInflight e at_) u t → HeadStop fs t
  | drop {u : Fs} {e : ClipQueueEntry} : Picked fs u (some e) →
      u.get (.queue .pending e.clipId .mp4) = none →
      Reaches Nominal (quarantineOrphan e.clipId) u t → HeadStop fs t
  | refuse {u w : Fs} {e e' : ClipQueueEntry} {at_ : DateTime} : Picked fs u (some e) →
      Runs Nominal (transitionInflight e at_) u (.ok (startAttempt e at_)) w →
      e'.clipId = e.clipId → e'.outcome.isSome →
      Reaches Nominal (transitionDelivered e') w t → HeadStop fs t

theorem reaches_preflightCheck {p : Path} (h : Reaches Nominal (preflightCheck p) fs t) : t = fs := by
  simp only [preflightCheck, reaches_bind, reaches_metadata, runs_metadata, Nominal] at h
  rcases h with (h | ⟨_, h, -⟩) | ⟨r, u, ⟨hu, -⟩, h⟩
  · exact h
  · exact h
  · have hend : t = u := by
      cases r with
      | error err => exact h
      | ok len =>
        dsimp only at h
        split_ifs at h <;> exact h
    exact hend.trans hu

/-- `startUpload` is stopped before it touches the files, or in the transition of a refused clip. -/
theorem reaches_startUpload (hm : fs.get (.queue .inflight e.clipId .mp4) = some m)
    (h : Reaches Nominal (startUpload e) fs t) :
    t = fs ∨ ∃ e', e'.clipId = e.clipId ∧ e'.outcome.isSome = true ∧
      Reaches Nominal (transitionDelivered e') fs t := by
  rw [startUpload, reaches_bind] at h
  rcases h with h | ⟨check, u, hu, h⟩
  · exact Or.inl (reaches_preflightCheck h)
  · obtain ⟨rfl, -, -, -⟩ := runs_preflightCheck hm hu
    cases check with
    | none => exact Or.inl h
    | some reason =>
      simp only [reaches_bind, reaches_now, runs_now, Nominal] at h
      rcases h with (h | ⟨_, h⟩) | ⟨at_, _, rfl, h | ⟨r, w, hw, h⟩⟩
      · exact Or.inl h
      · exact Or.inl h
      · exact Or.inr ⟨_, undeliverableRecord_clipId, by rw [undeliverableRecord_outcome]; rfl, h⟩
      · have hend : t = w := by
          cases r <;> exact h
        exact Or.inr ⟨_, undeliverableRecord_clipId, by rw [undeliverableRecord_outcome]; rfl,
          hend ▸ hw.reaches⟩

theorem reaches_tryOnceHead (h : Reaches Nominal tryOnceHead fs t) : HeadStop fs t := by
  rw [tryOnceHead, reaches_bind] at h
  rcases h with h | ⟨at_, w, hw, h⟩
  · have hsame : t = fs := by
      rcases reaches_now.mp h with h | ⟨_, h⟩
      · exact h
      · exact h
    exact hsame ▸ .scan (Picked.idle _)
  · obtain rfl : w = fs := runs_now.mp hw
    rw [reaches_bind] at h
    rcases h with h | ⟨_, u, hu, h⟩
    · exact .scan (reaches_pickOldestPending h)
    · obtain ⟨o, rfl, hpick⟩ := runs_pickOldestPending hu
      cases o with
      | none =>
        obtain rfl : t = u := h
        exact .scan hpick
      | some e =>
        dsimp only at h
        rw [reaches_bind] at h
        rcases h with h | ⟨r, w', hmove, h⟩
        · exact .move hpick h
        · rcases runs_transitionInflight.mp hmove with ⟨hnone, rfl, rfl⟩ | ⟨m, hm, rfl, rfl⟩
          · dsimp only at h
            rw [reaches_bind] at h
            rcases h with h | ⟨r, w', hdrop, h⟩
            · exact .drop hpick hnone h
            · have hend : t = w' := by
                cases r <;> exact h
              exact .drop hpick hnone (hend ▸ hdrop.reaches)
          · rcases reaches_startUpload get_movedInflight_media h with rfl | ⟨e', hid, hout, h⟩
            · exact .move hpick hmove.reaches
            · exact .refuse hpick hmove hid hout h

/-- The stops of the second half of `try_once`. -/
inductive FinishStop (fs : Fs) (e : ClipQueueEntry) (t : Fs) : Prop
  | still : t = fs → FinishStop fs e t
  | retry {e' : ClipQueueEntry} : e'.clipId = e.clipId → e'.outcome = e.outcome →
      Reaches Nominal (transitionBackToPending e') fs t → FinishStop fs e t
  | settle {e' : ClipQueueEntry} : e'.clipId = e.clipId → e'.outcome.isSome →
      Reaches Nominal (transitionDelivered e') fs t → FinishStop fs e t

theorem reaches_finishAt {schedule : BackoffSchedule} {at_ : DateTime}
    {result : Except ClientError ClassifyTaskPublic}
    (h : Reaches Nominal (finishAt schedule e result at_) fs t) : FinishStop fs e t := by
  unfold finishAt at h
  split at h
  · exact .settle deliveredRecord_clipId (by rw [deliveredRecord_outcome]; rfl) h
  · exact .settle undecodableRecord_clipId (by rw [undecodableRecord_outcome]; rfl) h
  · split at h
    · exact .settle undeliverableRecord_clipId (by rw [undeliverableRecord_outcome]; rfl) h
    · split at h
      · exact .still (reaches_abort.mp h)
      · exact .retry retryRecord_clipId retryRecord_outcome h
      · simp only [markAttemptsExhausted, markUndeliverable, reaches_bind, reaches_now, runs_now,
          Nominal] at h
        rcases h with (h | ⟨_, h⟩) | ⟨at', _, rfl, h⟩
        · exact .still h
        · exact .still h
        · exact .settle undeliverableRecord_clipId (by rw [undeliverableRecord_outcome]; rfl) h

theorem reaches_tryOnceFinish {schedule : BackoffSchedule}
    {result : Except ClientError ClassifyTaskPublic}
    (h : Reaches Nominal (tryOnceFinish schedule e result) fs t) : FinishStop fs e t := by
  rw [tryOnceFinish_eq, reaches_bind] at h
  rcases h with h | ⟨at_, w, hw, h⟩
  · exact .still ((reaches_now.mp h).elim id fun ⟨_, hv⟩ => hv)
  · obtain rfl : w = fs := runs_now.mp hw
    exact reaches_finishAt h

/-! ### What they leave of a clip -/

theorem Picked.clipId_ne {o : Option ClipQueueEntry} (h : Picked fs u o) (hn : Named fs)
    (hc : fs.get (.queue .pending c .json) = none) (he : o = some e) : c ≠ e.clipId := by
  obtain ⟨s, hs⟩ := h.entry e he
  rintro rfl
  rw [hn _ _ _ hs] at hc
  rw [hc] at hs
  cases hs

theorem Picked.outcome_eq_none (h : Picked fs u (some e)) (hn : Named fs) (hk : Kept fs c)
    (hc : e.clipId = c) : e.outcome = none := by
  obtain ⟨s, hs⟩ := h.entry e rfl
  obtain rfl := hn _ _ _ hs
  exact hk.outcome_eq_none (Or.inl rfl) (hc ▸ hs)

theorem HeadStop.named (h : HeadStop fs t) (hn : Named fs) : Named t := by
  cases h with
  | scan hp => exact hn.picked hp
  | move hp h => exact (confined_transitionInflight h).named (hn.picked hp)
  | drop hp _ h => exact (confined_quarantineOrphan h).named (hn.picked hp)
  | refuse hp hw _ _ h =>
    have hnw := (confined_transitionInflight hw.reaches).named (hn.picked hp)
    exact (confined_transitionDelivered h).named hnw

/-- The first half of `try_once` leaves a clip alone that has no sidecar in `pending/`. -/
theorem HeadStop.sameClip (h : HeadStop fs t) (hn : Named fs)
    (hc : fs.get (.queue .pending c .json) = none) : SameClip fs t c := by
  have hund : ¬ Undecodable fs (.queue .pending c .json) := by
    rintro ⟨data, hd⟩
    rw [hc] at hd
    cases hd
  have hthen : ∀ {u w e}, Picked fs u (some e) → Confined u w e.clipId → SameClip fs w c :=
    fun hp hw => (hp.sameClip c hund).trans (hw.others c (hp.clipId_ne hn hc rfl))
  cases h with
  | scan hp => exact hp.sameClip c hund
  | move hp h => exact hthen hp (confined_transitionInflight h)
  | drop hp _ h => exact hthen hp (confined_quarantineOrphan h)
  | refuse hp hw hid _ h =>
    have hsw := hthen hp (confined_transitionInflight hw.reaches)
    exact hsw.trans ((confined_transitionDelivered h).others c (hid ▸ hp.clipId_ne hn hc rfl))

theorem HeadStop.sheltered (h : HeadStop fs t) (hn : Named fs) (hk : Kept fs c) :
    Sheltered t c := by
  have hpicked : ∀ {u o}, Picked fs u o → Kept u c := fun hp =>
    hk.of_sameClip (hp.sameClip c (hk.not_undecodable (Or.inl rfl)))
  cases h with
  | scan hp => exact Or.inl (hpicked hp)
  | move hp h => exact (hpicked hp).stop_transitionInflight (hp.outcome_eq_none hn hk) h
  | drop hp hm h => exact Or.inl ((hpicked hp).stop_quarantineOrphan hm h)
  | @refuse u w e e' at_ hp hw _ hout h =>
    have hkw : Kept w c := by
      rcases runs_transitionInflight.mp hw with ⟨-, hr, -⟩ | ⟨m, -, -, rfl⟩
      · cases hr
      · exact kept_movedInflight (e := startAttempt e at_) (hpicked hp) (hp.outcome_eq_none hn hk)
    exact hkw.stop_transitionDelivered hout h

theorem HeadStop.noFootage (h : HeadStop fs t) (hno : NoFootage fs c) : NoFootage t c := by
  have hpicked : ∀ {u o}, Picked fs u o → NoFootage u c := by
    rintro u o hp d (rfl | rfl)
    · exact hp.media c (hno .pending (Or.inl rfl))
    · exact (hp.elsewhere c .inflight .mp4 (by simp) (by simp)).trans (hno .inflight (Or.inr rfl))
  cases h with
  | scan hp => exact hpicked hp
  | move hp h => exact (hpicked hp).stop_transitionInflight h
  | drop hp _ h => exact (hpicked hp).stop_quarantineOrphan h
  | refuse hp hw _ _ h =>
    exact ((hpicked hp).stop_transitionInflight hw.reaches).stop_transitionDelivered h

theorem FinishStop.confined (h : FinishStop fs e t) : Confined fs t e.clipId := by
  cases h with
  | still h => exact ⟨fun hn => h ▸ hn, fun c _ => h ▸ .refl _ c⟩
  | retry hid _ h => exact hid ▸ confined_transitionBackToPending h
  | settle hid _ h => exact hid ▸ confined_transitionDelivered h

theorem FinishStop.sheltered (h : FinishStop fs e t) (hk : Kept fs c)
    (he : e.clipId = c → e.outcome = none) : Sheltered t c := by
  cases h with
  | still h => exact Or.inl (h ▸ hk)
  | retry hid hout h =>
    exact hk.stop_transitionBackToPending (fun hc => hout.trans (he (hid.symm.trans hc))) h
  | settle _ hout h => exact hk.stop_transitionDelivered hout h

theorem FinishStop.noFootage (h : FinishStop fs e t) (hno : NoFootage fs c) : NoFootage t c := by
  cases h with
  | still h => exact h ▸ hno
  | retry _ _ h => exact hno.stop_transitionBackToPending h
  | settle _ _ h => exact hno.stop_transitionDelivered h

/-! ### What they leave when they come to their end -/

theorem kept_or_outcome_movedDelivered (hk : Kept fs c) (hout : e.outcome.isSome) :
    Kept (movedDelivered fs e) c ∨ HasOutcome (movedDelivered fs e) c := by
  by_cases hc : c = e.clipId
  · exact Or.inr (hc ▸ hasOutcome_movedDelivered hout)
  · exact Or.inl (hk.of_sameClip (sameClip_movedDelivered hc))

theorem HeadRun.kept {r : Except QueueError Head} (h : HeadRun fs r t) (hn : Named fs)
    (hk : Kept fs c) : (Kept t c ∨ HasOutcome t c) ∧
      ∀ e, Head.awaiting r = some e → e.clipId = c → e.outcome = none := by
  have hpicked : ∀ {u o}, Picked fs u o → Kept u c := fun hp =>
    hk.of_sameClip (hp.sameClip c (hk.not_undecodable (Or.inl rfl)))
  cases h with
  | idle hp => exact ⟨Or.inl (hpicked hp), fun _ h => by cases h⟩
  | @missing u e hp hm =>
    have hdrop : Runs Nominal (quarantineOrphan e.clipId) u (.ok ())
        ((u.del (.queue .pending e.clipId .json)).del (.queue .pending e.clipId .mp4)) :=
      runs_quarantineOrphan.mpr ⟨rfl, rfl⟩
    exact ⟨Or.inl ((hpicked hp).stop_quarantineOrphan hm hdrop.reaches), fun _ h => by cases h⟩
  | @refused u e m len at_ at' reason hp hm hlen hreason =>
    have hmoved : Kept (movedInflight u m (startAttempt e at_)) c :=
      kept_movedInflight (e := startAttempt e at_) (hpicked hp) (hp.outcome_eq_none hn hk)
    exact ⟨kept_or_outcome_movedDelivered hmoved (by rw [refusedRecord_outcome]; rfl),
      fun _ h => by cases h⟩
  | @upload u e m at_ hp hm =>
    have hopen := hp.outcome_eq_none hn hk
    refine ⟨Or.inl (kept_movedInflight (e := startAttempt e at_) (hpicked hp) hopen), ?_⟩
    intro e' he'
    obtain rfl := Option.some.inj he'
    exact hopen

theorem FinishRun.kept {schedule : BackoffSchedule} {at_ : DateTime}
    {result : Except ClientError ClassifyTaskPublic}
    (h : FinishRun schedule fs e at_ result t) (hk : Kept fs c)
    (he : e.clipId = c → e.outcome = none) : Kept t c ∨ HasOutcome t c := by
  cases h with
  | accepted => exact kept_or_outcome_movedDelivered hk (by rw [deliveredRecord_outcome]; rfl)
  | undecodable => exact kept_or_outcome_movedDelivered hk (by rw [undecodableRecord_outcome]; rfl)
  | retried => exact Or.inl (kept_movedBack hk fun hc => retryRecord_outcome.trans (he hc))
  | exhausted => exact kept_or_outcome_movedDelivered hk (by rw [undeliverableRecord_outcome]; rfl)
  | terminal => exact kept_or_outcome_movedDelivered hk (by rw [undeliverableRecord_outcome]; rfl)

end DeliveryStops

/-! ## Machines that stop -/

/-- A station at work, or the files and used clip-ids that a stop has left. -/
inductive Machine
  | up (st : Station)
  | down (fs : Fs) (used : Finset ClipId)

namespace Machine

def fs : Machine → Fs
  | .up st => st.fs
  | .down fs _ => fs

def used : Machine → Finset ClipId
  | .up st => st.used
  | .down _ used => used

def awaiting : Machine → Option ClipQueueEntry
  | .up st => st.awaiting
  | .down _ _ => none

end Machine

inductive CrashEvent
  | ran (ev : Event)
  | stopped
  | booted (recovered : List ClipQueueEntry)

/-- The eviction records of the event name the clip. -/
def CrashEvent.Evicts (c : ClipId) : CrashEvent → Prop
  | .ran (.enforced outcome) => ∃ r ∈ outcome.evictions, r.clipId = c
  | _ => False

inductive CrashStep (cfg : Config) : Machine → CrashEvent → Machine → Prop
  | run {st st' : Station} {ev : Event} : Step cfg st ev st' →
      CrashStep cfg (.up st) (.ran ev) (.up st')
  | stopStart {st : Station} {t : Fs} : st.awaiting = none → Reaches Nominal tryOnceHead st.fs t →
      CrashStep cfg (.up st) .stopped (.down t st.used)
  | stopFinish {st : Station} {e : ClipQueueEntry} {result : Except ClientError ClassifyTaskPublic}
      {t : Fs} : st.awaiting = some e →
      Reaches Nominal (tryOnceFinish cfg.schedule e result) st.fs t →
      CrashStep cfg (.up st) .stopped (.down t st.used)
  | stopReconcile {fs t : Fs} {used : Finset ClipId} : Reaches Nominal reconcileInflight fs t →
      CrashStep cfg (.down fs used) .stopped (.down t used)
  | boot {fs t : Fs} {used : Finset ClipId} {recovered : List ClipQueueEntry} :
      Runs Nominal reconcileInflight fs (.ok recovered) t →
      CrashStep cfg (.down fs used) (.booted recovered) (.up ⟨t, none, ∅, used⟩)

variable {cfg : Config} {M M' : Machine} {ev : CrashEvent} {c : ClipId}

/-! ### What a step can do -/

/-- What a step of the station does to the files of `pending/` and `inflight/`. -/
inductive Effect (st st' : Station) (ev : Event) : Prop
  | side : (Named st.fs → Named st'.fs) →
      (∀ c, c ∈ st.used → ¬ (CrashEvent.ran ev).Evicts c → SameLive st.fs st'.fs c) →
      (∀ c, c ∉ st'.used → Absent st.fs c → Absent st'.fs c) →
      st'.awaiting = st.awaiting → Effect st st' ev
  | start {r : Except QueueError Head} : HeadRun st.fs r st'.fs → HeadStop st.fs st'.fs →
      st'.awaiting = Head.awaiting r → Effect st st' ev
  | finish {schedule : BackoffSchedule} {e : ClipQueueEntry} {at_ : DateTime}
      {result : Except ClientError ClassifyTaskPublic} : st.awaiting = some e →
      FinishRun schedule st.fs e at_ result st'.fs → FinishStop st.fs e st'.fs →
      st'.awaiting = none → Effect st st' ev
  | restart {r : Except QueueError (List ClipQueueEntry)} :
      Runs Nominal reconcileInflight st.fs r st'.fs → st'.awaiting = none → Effect st st' ev

theorem Step.effect {st st' : Station} {ev : Event} (h : Step cfg st ev st') (hn : Named st.fs) :
    Effect st st' ev := by
  cases h with
  | capture name b =>
    have hsame : ∀ c, SameClip st.fs (st.fs.put (.source name) b) c := by
      rintro c d x (rfl | rfl) <;> simp [FileMap.get_put]
    refine .side (fun hn => hn.put fun _ _ _ hp _ => by cases hp) (fun c _ _ => (hsame c).live)
      (fun c _ ha => ha.of_sameClip (hsame c)) rfl
  | @enqueue c name clipMeta r t hc hr =>
    rcases runs_enqueueWithId.mp hr with ⟨-, rfl, rfl⟩ | ⟨m, len, at_, -, -, rfl, rfl⟩
    · exact .side (fun hn => hn) (fun c _ _ => (SameClip.refl _ c).live) (fun c _ ha => ha) rfl
    · have hsame : ∀ s, s ≠ c →
          SameClip st.fs (Perchstation.enqueued st.fs name m (.new c clipMeta.capturedAt at_ len)) s :=
        fun s hs => sameClip_enqueued hs
      refine .side (fun hn => ((hn.del _).put_media _ _ _).replaceSidecar _ _)
        (fun s hs _ => (hsame s ?_).live) (fun s hs ha => ha.of_sameClip (hsame s ?_)) rfl
      · rintro rfl
        exact hc hs
      · rintro rfl
        exact hs (Finset.mem_insert_self _ _)
  | enforce hr =>
    -- an evicted clip is named by the event, any other keeps its files
    obtain ⟨heff, -⟩ := runs_applyPolicy hr
    refine .side (fun hn => hn.of_subset fun _ _ _ => heff.subset _ _) (fun c _ hev d x _ _ => ?_)
      (fun c _ ha d x hd hx => ?_) rfl
    · refine heff.same _ fun r hrec d' x' hp => hev ⟨r, hrec, ?_⟩
      exact (Path.queue.inj hp).2.1.symm
    · cases hg : FileMap.get _ (Path.queue d c x) with
      | none => rfl
      | some b =>
        have hfs := heff.subset _ _ hg
        rw [ha d x hd hx] at hfs
        cases hfs
  | start hnone hr =>
    exact .start (runs_tryOnceHead hr) (reaches_tryOnceHead hr.reaches) rfl
  | finish he hr =>
    obtain ⟨at_, rest, -, -, hfin⟩ := runs_tryOnceFinish hr
    exact .finish he hfin (reaches_tryOnceFinish (runs_nominal hr).reaches) rfl
  | @poll v t hr =>
    -- the poller works in `delivered/` only
    have heff := runs_pollRound hn hr
    have hsame : ∀ c, SameLive st.fs t c := by
      intro c d x hd hx
      refine heff.elsewhere d c x ?_ ?_ <;> rcases hd with rfl | rfl <;> simp
    exact .side heff.named (fun c _ _ => hsame c) (fun c _ ha => ha.of_sameLive (hsame c)) rfl
  | @prune v t hr =>
    obtain ⟨-, cutoff, -, heff⟩ := runs_pruneRound hr
    have hsame : ∀ c, SameLive st.fs t c := by
      intro c d x hd hx
      refine heff.same _ fun s x' hp _ => ?_
      obtain ⟨rfl, -, -⟩ := Path.queue.inj hp
      rcases hd with hd | hd <;> cases hd
    exact .side heff.named (fun c _ _ => hsame c) (fun c _ ha => ha.of_sameLive (hsame c)) rfl
  | restart he hr => exact .restart hr rfl

/-! ### A clip not yet enqueued -/

/-- Sidecars are named after their clips, and a clip-id not handed out has no files in the queue. -/
structure Sound (M : Machine) : Prop where
  named : Named M.fs
  unused : ∀ c, c ∉ M.used → Absent M.fs c
  awaiting : ∀ e, M.awaiting = some e → e.clipId ∈ M.used

theorem Station.Initial.sound {st : Station} (h : st.Initial) : Sound (.up st) where
  named := h.inv.named
  unused c _ := fun d x _ _ => h.empty d c x
  awaiting e he := by
    rw [Machine.awaiting, h.awaiting] at he
    cases he

/-- A stopped or complete first half of `try_once` touches no clip-id that is not handed out. -/
theorem Sound.head {st : Station} {t : Fs} (hs : Sound (.up st)) (h : HeadStop st.fs t) :
    Named t ∧ ∀ c, c ∉ st.used → Absent t c := by
  refine ⟨h.named hs.named, fun c hc => ?_⟩
  have ha := hs.unused c hc
  exact ha.of_sameClip (h.sameClip hs.named (ha .pending .json (Or.inl rfl) (Or.inr rfl)))

theorem Sound.finish {st : Station} {e : ClipQueueEntry} {t : Fs} (hs : Sound (.up st))
    (he : st.awaiting = some e) (h : FinishStop st.fs e t) :
    Named t ∧ ∀ c, c ∉ st.used → Absent t c := by
  refine ⟨h.confined.named hs.named, fun c hc => ?_⟩
  have hne : c ≠ e.clipId := by
    rintro rfl
    exact hc (hs.awaiting e he)
  exact (hs.unused c hc).of_sameClip (h.confined.others c hne)

theorem Sound.reconcile (hs : Sound M) {t : Fs} (h : Reaches Nominal reconcileInflight M.fs t) :
    Named t ∧ ∀ c, c ∉ M.used → Absent t c := by
  refine ⟨hs.named.stop_reconcileInflight h, fun c hc => ?_⟩
  have ha := hs.unused c hc
  exact ha.of_sameClip (ha.stop_reconcileInflight hs.named h)

theorem HeadRun.awaiting_used {st : Station} {t : Fs} {r : Except QueueError Head}
    (h : HeadRun st.fs r t) (hs : Sound (.up st)) {e : ClipQueueEntry}
    (he : Head.awaiting r = some e) : e.clipId ∈ st.used := by
  cases h with
  | @upload u e₀ m at_ hp hm =>
    obtain rfl := Option.some.inj he
    by_contra hc
    exact hp.clipId_ne hs.named (hs.unused _ hc .pending .json (Or.inl rfl) (Or.inr rfl)) rfl rfl
  | idle => cases he
  | missing => cases he
  | refused => cases he

theorem Sound.step (hs : Sound M) (h : CrashStep cfg M ev M') : Sound M' := by
  cases h with
  | @run st st' ev h =>
    cases h.effect hs.named with
    | side hn _ habs haw =>
      refine ⟨hn hs.named, fun c hc => habs c hc (hs.unused c fun hm => hc (h.used_subset hm)), ?_⟩
      intro e he
      exact h.used_subset (hs.awaiting e (haw.symm.trans he))
    | start hrun hstop haw =>
      obtain ⟨hn, hun⟩ := hs.head hstop
      refine ⟨hn, fun c hc => hun c fun hm => hc (h.used_subset hm), fun e he => ?_⟩
      exact h.used_subset (hrun.awaiting_used hs (haw.symm.trans he))
    | finish he _ hstop haw =>
      obtain ⟨hn, hun⟩ := hs.finish he hstop
      refine ⟨hn, fun c hc => hun c fun hm => hc (h.used_subset hm), fun e he => ?_⟩
      cases haw.symm.trans he
    | restart hr haw =>
      obtain ⟨hn, hun⟩ := hs.reconcile hr.reaches
      refine ⟨hn, fun c hc => hun c fun hm => hc (h.used_subset hm), fun e he => ?_⟩
      cases haw.symm.trans he
  | stopStart hnone hr =>
    obtain ⟨hn, hun⟩ := hs.head (reaches_tryOnceHead hr)
    exact ⟨hn, hun, fun _ he => by cases he⟩
  | stopFinish he hr =>
    obtain ⟨hn, hun⟩ := hs.finish he (reaches_tryOnceFinish hr)
    exact ⟨hn, hun, fun _ he => by cases he⟩
  | stopReconcile hr =>
    obtain ⟨hn, hun⟩ := hs.reconcile hr
    exact ⟨hn, hun, fun _ he => by cases he⟩
  | boot hr =>
    obtain ⟨hn, hun⟩ := hs.reconcile hr.reaches
    exact ⟨hn, hun, fun _ he => by cases he⟩

theorem CrashStep.used_subset (h : CrashStep cfg M ev M') : M.used ⊆ M'.used := by
  cases h with
  | run h => exact h.used_subset
  | stopStart => exact Finset.Subset.refl _
  | stopFinish => exact Finset.Subset.refl _
  | stopReconcile => exact Finset.Subset.refl _
  | boot => exact Finset.Subset.refl _

/-! ### A kept clip -/

/-- The clip `c` is kept, and its record has no outcome if its upload is being awaited. -/
structure Guarded (c : ClipId) (M : Machine) : Prop where
  kept : Kept M.fs c
  used : c ∈ M.used
  awaiting : ∀ e, M.awaiting = some e → e.clipId = c → e.outcome = none

/-- An enqueue that succeeds makes a kept clip. -/
theorem Sound.guarded {e : ClipQueueEntry} (hs : Sound M)
    (h : CrashStep cfg M (.ran (.enqueued c (.ok e))) M') : c ∉ M.used ∧ Guarded c M' := by
  cases h with
  | run h =>
    cases h with
    | @enqueue _ name clipMeta _ _ hc hr =>
      refine ⟨hc, ?_⟩
      rcases runs_enqueueWithId.mp hr with ⟨-, hres, -⟩ | ⟨m, len, at_, -, -, -, rfl⟩
      · cases hres
      · have ha := hs.unused c hc
        refine ⟨Or.inl ⟨⟨m, ?_⟩, ⟨.new c clipMeta.capturedAt at_ len, ?_, rfl⟩, ?_, Or.inl ?_⟩,
          Finset.mem_insert_self _ _, ?_⟩
        · simp [Machine.fs, get_enqueued, ClipQueueEntry.new]
        · simp [Machine.fs, get_enqueued, ClipQueueEntry.new]
        · have hm := ha .inflight .mp4 (Or.inr rfl) (Or.inl rfl)
          simpa [Machine.fs, get_enqueued] using hm
        · have hj := ha .inflight .json (Or.inr rfl) (Or.inr rfl)
          simpa [Machine.fs, get_enqueued] using hj
        · rintro e he rfl
          exact absurd (hs.awaiting e he) hc

/-! ### A lost clip -/

/-- What media there is of `c` will be swept when the machine is next started; a machine that is up
has none. -/
def Ruined (c : ClipId) (M : Machine) : Prop :=
  c ∈ M.used ∧
    match M with
    | .up st => NoFootage st.fs c
    | .down fs _ => Stranded fs c

theorem Ruined.step (hs : Sound M) (hr : Ruined c M) (h : CrashStep cfg M ev M')
    (hev : ¬ ev.Evicts c) : Ruined c M' := by
  have hused : c ∈ M'.used := h.used_subset hr.1
  cases h with
  | run h =>
    have hno : NoFootage _ c := hr.2
    cases h.effect hs.named with
    | side _ hlive _ _ => exact ⟨hused, hno.of_sameLive (hlive c hr.1 hev)⟩
    | start _ hstop _ => exact ⟨hused, hstop.noFootage hno⟩
    | finish _ _ hstop _ => exact ⟨hused, hstop.noFootage hno⟩
    | restart hrec _ => exact ⟨hused, hno.stop_reconcileInflight hrec.reaches⟩
  | stopStart _ hrun =>
    have hno : NoFootage _ c := hr.2
    exact ⟨hused, ((reaches_tryOnceHead hrun).noFootage hno).stranded⟩
  | stopFinish _ hrun =>
    have hno : NoFootage _ c := hr.2
    exact ⟨hused, ((reaches_tryOnceFinish hrun).noFootage hno).stranded⟩
  | stopReconcile hrun =>
    have hst : Stranded _ c := hr.2
    exact ⟨hused, hst.stop_reconcileInflight hrun⟩
  | boot hrun =>
    have hst : Stranded _ c := hr.2
    exact ⟨hused, hst.reconcileInflight hrun⟩

/-- A step keeps a kept clip, unless it evicts it or writes its outcome, or is a stop that leaves its
media apart from its sidecar. -/
theorem Guarded.step (hs : Sound M) (hg : Guarded c M) (h : CrashStep cfg M ev M')
    (hev : ¬ ev.Evicts c) (hopen : ¬ HasOutcome M'.fs c) :
    (Guarded c M' ∧ ¬ Apart M'.fs c) ∨ (Ruined c M' ∧ ev = .stopped ∧ Apart M'.fs c) := by
  have hused : c ∈ M'.used := h.used_subset hg.used
  have hkept : Kept M'.fs c ∨ HasOutcome M'.fs c →
      (∀ e, M'.awaiting = some e → e.clipId = c → e.outcome = none) →
      Guarded c M' ∧ ¬ Apart M'.fs c := by
    intro hk haw
    have hk := hk.resolve_right hopen
    exact ⟨⟨hk, hused, haw⟩, hk.not_apart⟩
  have hstopped : ∀ t used, M' = .down t used → ev = .stopped → Sheltered t c →
      (Guarded c M' ∧ ¬ Apart M'.fs c) ∨ (Ruined c M' ∧ ev = .stopped ∧ Apart M'.fs c) := by
    rintro t used rfl heq (hk | hap | hout)
    · exact Or.inl (hkept (Or.inl hk) fun _ he => by cases he)
    · exact Or.inr ⟨⟨hused, stranded_of_apartIn hap⟩, heq, apart_of_apartIn hap⟩
    · exact absurd hout hopen
  cases h with
  | run h =>
    left
    cases h.effect hs.named with
    | side _ hlive _ haw =>
      have hk := hg.kept.of_sameLive (hlive c hg.used hev)
      exact hkept (Or.inl hk) fun e he => hg.awaiting e (haw.symm.trans he)
    | start hrun _ haw =>
      obtain ⟨hk, hopen'⟩ := hrun.kept hs.named hg.kept
      exact hkept hk fun e he => hopen' e (haw.symm.trans he)
    | finish he hrun _ haw =>
      refine hkept (hrun.kept hg.kept (hg.awaiting _ he)) fun e he => ?_
      cases haw.symm.trans he
    | restart hr haw =>
      refine hkept (Or.inl (kept_reconcileInflight hs.named hg.kept hr).2.1) fun e he => ?_
      cases haw.symm.trans he
  | stopStart hnone hr =>
    exact hstopped _ _ rfl rfl ((reaches_tryOnceHead hr).sheltered hs.named hg.kept)
  | stopFinish he hr =>
    exact hstopped _ _ rfl rfl
      ((reaches_tryOnceFinish hr).sheltered hg.kept (hg.awaiting _ he))
  | stopReconcile hr => exact hstopped _ _ rfl rfl (hg.kept.stop_reconcileInflight hs.named hr)
  | boot hr =>
    left
    exact hkept (Or.inl (kept_reconcileInflight hs.named hg.kept hr).2.1) fun _ he => by cases he

/-! ## Runs -/

variable {tr : List (CrashEvent × Machine)}

theorem Sound.exec (hs : Sound M) (h : Exec (CrashStep cfg) M tr M') : Sound M' :=
  h.invariant hs fun _ _ _ hs h => hs.step h

theorem used_subset_of_crash_exec (h : Exec (CrashStep cfg) M tr M') : M.used ⊆ M'.used :=
  h.related (fun M => Finset.Subset.refl M.used) (fun _ _ _ h1 h2 => h1.trans h2)
    fun _ _ _ h => h.used_subset

/-- A run from a kept clip keeps it, or loses it in a stop that leaves media and sidecar apart. -/
theorem Guarded.exec (hs : Sound M) (hg : Guarded c M) (h : Exec (CrashStep cfg) M tr M')
    (hev : ∀ x ∈ tr, ¬ x.1.Evicts c) (hopen : ∀ x ∈ tr, ¬ HasOutcome x.2.fs c) :
    (Guarded c M' ∧ ∀ x ∈ tr, x.1 = .stopped → ¬ Apart x.2.fs c) ∨
      (Ruined c M' ∧ ∃ x ∈ tr, x.1 = .stopped ∧ Apart x.2.fs c) := by
  induction h with
  | nil => exact Or.inl ⟨hg, fun x hx => by cases hx⟩
  | @snoc tr N N' ev hrun hstep ih =>
    have hlast : (ev, N') ∈ tr ++ [(ev, N')] := by simp
    have hinit : ∀ x ∈ tr, x ∈ tr ++ [(ev, N')] := fun x hx => List.mem_append_left _ hx
    rcases ih (fun x hx => hev x (hinit x hx)) fun x hx => hopen x (hinit x hx) with
      ⟨hgN, hsafe⟩ | ⟨hrN, x, hx, hbad⟩
    · rcases Guarded.step (hs.exec hrun) hgN hstep (hev _ hlast) (hopen _ hlast) with
        ⟨hg', hap⟩ | ⟨hr', hbad⟩
      · refine Or.inl ⟨hg', fun x hx hst => ?_⟩
        rcases List.mem_append.mp hx with hx | hx
        · exact hsafe x hx hst
        · obtain rfl := List.mem_singleton.mp hx
          exact hap
      · exact Or.inr ⟨hr', _, hlast, hbad⟩
    · exact Or.inr ⟨hrN.step (hs.exec hrun) hstep (hev _ hlast), x, hinit x hx, hbad⟩

/-- Once a machine has started again, a clip that was enqueued, not evicted and given no outcome is in
`pending/` with its media and a decodable sidecar, exactly if no stop left its media in `pending/` or
`inflight/` without a sidecar beside it. -/
theorem footage_survives_iff {st₀ : Station} {recovered : List ClipQueueEntry}
    (h₀ : st₀.Initial) (h : Exec (CrashStep cfg) (.up st₀) tr M)
    (hboot : CrashStep cfg M (.booted recovered) M')
    (henq : ∃ x ∈ tr, ∃ e, x.1 = .ran (.enqueued c (.ok e)))
    (hev : ∀ x ∈ tr, ¬ x.1.Evicts c) (hopen : ∀ x ∈ tr, ¬ HasOutcome x.2.fs c) :
    ((∃ m, M'.fs.get (.queue .pending c .mp4) = some m) ∧
      ∃ e, M'.fs.get (.queue .pending c .json) = some (.sidecar e)) ↔
    ∀ x ∈ tr, x.1 = .stopped → ¬ Apart x.2.fs c := by
  have hs₀ : Sound (.up st₀) := h₀.sound
  obtain ⟨⟨_, N⟩, hx, e, rfl⟩ := henq
  obtain ⟨tr₁, tr₂, A, rfl, h1, hmid, h2⟩ := h.split hx
  have hA : Sound A := hs₀.exec h1
  obtain ⟨hfresh, hgN⟩ := hA.guarded hmid
  -- up to its enqueue the clip has no files, so no stop can have left any apart
  have hbefore : ∀ x ∈ tr₁, x.1 = .stopped → ¬ Apart x.2.fs c := by
    intro x hx _
    obtain ⟨tr₃, tr₄, B, rfl, h3, hstep, h4⟩ := h1.split hx
    have hx2 : Sound x.2 := (hs₀.exec h3).step hstep
    exact (hx2.unused c fun hm => hfresh (used_subset_of_crash_exec h4 hm)).not_apart
  have hN : Sound N := hA.step hmid
  have hrest : ∀ x ∈ tr₂, x ∈ tr₁ ++ (CrashEvent.ran (.enqueued c (.ok e)), N) :: tr₂ := by
    intro x hx
    simp [hx]
  have hM : Sound M := hN.exec h2
  have hall : (∀ x ∈ tr₂, x.1 = .stopped → ¬ Apart x.2.fs c) →
      ∀ x ∈ tr₁ ++ (CrashEvent.ran (.enqueued c (.ok e)), N) :: tr₂,
        x.1 = .stopped → ¬ Apart x.2.fs c := by
    intro hafter x hx hst
    rcases List.mem_append.mp hx with hx | hx
    · exact hbefore x hx hst
    · rcases List.mem_cons.mp hx with rfl | hx
      · cases hst
      · exact hafter x hx hst
  rcases Guarded.exec hN hgN h2 (fun x hx => hev x (hrest x hx)) fun x hx => hopen x (hrest x hx) with
    ⟨hg, hsafe⟩ | ⟨hr, x, hx, hst, hap⟩
  · -- the clip is guarded to the last: the boot finds it
    refine iff_of_true ?_ (hall hsafe)
    cases hboot with
    | boot hrun =>
      have hk := (kept_reconcileInflight hM.named hg.kept hrun).2.2 ⟨_, rfl⟩
      obtain ⟨e', he', -⟩ := hk.sidecar
      exact ⟨hk.media, e', he'⟩
  · -- a stop left it apart, and the boot sweeps its media
    refine iff_of_false ?_ fun hcond => hcond x (hrest x hx) hst hap
    rintro ⟨⟨m, hm⟩, -⟩
    have hlost := hr.step hM hboot (fun h => h)
    cases hboot with
    | boot hrun =>
      have hno : NoFootage _ c := hlost.2
      have hnone := hno .pending (Or.inl rfl)
      exact absurd (hnone.symm.trans hm) (by simp)

/-! ## Two stops -/

/-- A machine that is down can be started again, if the sidecars of `inflight/` decode. -/
theorem exists_boot {fs : Fs} (used : Finset ClipId) (hn : Named fs)
    (hdec : ∀ s, ¬ Undecodable fs (.queue .inflight s .json)) :
    ∃ recovered M', CrashStep cfg (.down fs used) (.booted recovered) M' := by
  obtain ⟨v, t, hr⟩ := exists_runs_reconcileInflight fs
  have horder : NamesInOrder fs := by
    intro s e he _ hlt
    rw [hn _ _ _ he] at hlt
    exact lt_irrefl _ hlt
  obtain ⟨recovered, rfl⟩ := (reconcileInflight_ok_iff hr).mpr ⟨hdec, horder⟩
  exact ⟨recovered, _, .boot hr⟩

/-- A run without a stop. -/
theorem exec_up {st st' : Station} {tr : List (Event × Station)} (h : Exec (Step cfg) st tr st') :
    Exec (CrashStep cfg) (.up st) (tr.map fun x => (.ran x.1, .up x.2)) (.up st') := by
  induction h with
  | nil => exact .nil
  | snoc _ hs ih =>
    rw [List.map_append]
    exact ih.snoc (.run hs)

theorem not_hasOutcome {fs : Fs}
    (h : ∀ d e, fs.get (.queue d c .json) = some (.sidecar e) → e.outcome = none) :
    ¬ HasOutcome fs c := by
  rintro ⟨d, e, he, hout⟩
  rw [h d e he] at hout
  cases hout

namespace Station

/-- The first upload, with a stop while it is awaited. -/
def stoppedTrace : List (CrashEvent × Machine) :=
  (firstTrace.map fun x => (.ran x.1, .up x.2)) ++ [(.stopped, .down uploading.fs {"c1"})]

theorem exec_stopped : Exec (CrashStep cfg) (.up blank) stoppedTrace (.down uploading.fs {"c1"}) := by
  have hup : Exec (CrashStep cfg) (.up blank) _ (.up uploading) := exec_up exec_uploading
  have hstop : Reaches Nominal (tryOnceFinish cfg.schedule (startAttempt firstEntry epoch)
      (.error (.network "" ""))) uploading.fs uploading.fs := reaches_self _ _
  exact hup.snoc (.stopFinish rfl hstop)

/-- Between the media's rename and the sidecar's: the media is in `inflight/` alone. -/
def torn : Fs := moveMedia queued.fs .pending .inflight "c1" footage

/-- The first upload, with a stop between the two renames of its start. -/
def tornTrace : List (CrashEvent × Machine) :=
  [(.ran .captured, .up captured), (.ran (.enqueued "c1" (.ok firstEntry)), .up queued),
    (.stopped, .down torn {"c1"})]

theorem get_torn_sidecar (d : Dir) (c : ClipId) :
    torn.get (.queue d c .json) =
      if d = .pending ∧ c = "c1" then some (.sidecar firstEntry) else none := by
  rw [← get_queued_sidecar]
  simp [torn, get_moveMedia]

theorem exec_torn : Exec (CrashStep cfg) (.up blank) tornTrace (.down torn {"c1"}) := by
  have hup : Exec (CrashStep cfg) (.up blank) _ (.up queued) :=
    exec_up ((Exec.nil.snoc step_captured).snoc step_queued)
  have hpick : Runs Nominal (pickOldestPending epoch) queued.fs (.ok (some firstEntry)) queued.fs := by
    refine runs_pickOldestPending_single (fun c hc => ?_) (get_queued_sidecar .pending "c1") rfl
    rw [get_queued_sidecar] at hc
    by_contra hne
    rw [if_neg fun h => hne h.2] at hc
    cases hc
  have hmove : Reaches Nominal (transitionInflight firstEntry epoch) queued.fs torn := by
    rw [transitionInflight, reaches_bind]
    have hmedia := get_queued_media .pending
    refine Or.inl (reaches_rename.mpr (Or.inr ⟨.ok (), ?_⟩))
    simp only [Nominal, firstEntry, ClipQueueEntry.new, Path.media, hmedia, if_true]
    exact ⟨trivial, rfl⟩
  have hstop : Reaches Nominal tryOnceHead queued.fs torn := by
    rw [tryOnceHead, reaches_bind]
    refine Or.inr ⟨epoch, queued.fs, runs_now.mpr rfl, ?_⟩
    rw [reaches_bind]
    refine Or.inr ⟨_, _, hpick, ?_⟩
    dsimp only
    rw [reaches_bind]
    exact Or.inl hmove
  exact hup.snoc (.stopStart rfl hstop)

end Station

theorem Station.not_hasOutcome_captured : ¬ HasOutcome captured.fs "c1" :=
  not_hasOutcome fun d e he => by simp [captured, blank, FileMap.get_put] at he

theorem Station.not_hasOutcome_queued : ¬ HasOutcome queued.fs "c1" := by
  refine not_hasOutcome fun d e he => ?_
  rw [get_queued_sidecar] at he
  split_ifs at he
  obtain rfl := Blob.sidecar.inj (Option.some.inj he)
  rfl

theorem Station.not_hasOutcome_uploading : ¬ HasOutcome uploading.fs "c1" := by
  have hid : (startAttempt firstEntry epoch).clipId = "c1" := rfl
  have hget : ∀ d, uploading.fs.get (.queue d "c1" .json) =
      if d = .inflight then some (.sidecar (startAttempt firstEntry epoch)) else none := by
    intro d
    simp only [uploading, movedInflight, hid, FileMap.get_del, get_replaceSidecar, get_moveMedia,
      get_queued_sidecar]
    cases d <;> simp
  refine not_hasOutcome fun d e he => ?_
  rw [hget] at he
  split_ifs at he
  obtain rfl := Blob.sidecar.inj (Option.some.inj he)
  rfl

theorem footage_survives_stopped :
    ∃ recovered M', CrashStep Config.plain (.down Station.uploading.fs {"c1"}) (.booted recovered) M' ∧
      (∃ m, M'.fs.get (.queue .pending "c1" .mp4) = some m) ∧
      ∃ e, M'.fs.get (.queue .pending "c1" .json) = some (.sidecar e) := by
  have hinv := Station.uploading_inv
  have hdec : ∀ s, ¬ Undecodable Station.uploading.fs (.queue .inflight s .json) := by
    intro s
    obtain ⟨p, hp⟩ := hinv.tidy s
    exact hp.not_undecodable (by simp)
  obtain ⟨recovered, M', hboot⟩ : ∃ recovered M',
      CrashStep Config.plain (.down Station.uploading.fs {"c1"}) (.booted recovered) M' :=
    exists_boot _ hinv.named hdec
  have hmem : ∀ x, x ∈ Station.stoppedTrace ↔ x = (.ran .captured, .up Station.captured) ∨
      x = (.ran (.enqueued "c1" (.ok Station.firstEntry)), .up Station.queued) ∨
      x = (.ran (.started (.ok (.upload (startAttempt Station.firstEntry Station.epoch)))),
        .up Station.uploading) ∨ x = (.stopped, .down Station.uploading.fs {"c1"}) := by
    simp [Station.stoppedTrace, Station.firstTrace]
  have hcond : ∀ x ∈ Station.stoppedTrace,
      ¬ x.1.Evicts "c1" ∧ ¬ HasOutcome x.2.fs "c1" ∧ (x.1 = .stopped → ¬ Apart x.2.fs "c1") := by
    intro x hx
    rcases (hmem x).mp hx with rfl | rfl | rfl | rfl
    · exact ⟨id, Station.not_hasOutcome_captured, by rintro ⟨⟩⟩
    · exact ⟨id, Station.not_hasOutcome_queued, by rintro ⟨⟩⟩
    · exact ⟨id, Station.not_hasOutcome_uploading, by rintro ⟨⟩⟩
    · refine ⟨id, Station.not_hasOutcome_uploading, fun _ => Kept.not_apart (Or.inr ?_)⟩
      exact keptIn_movedInflight (e := startAttempt Station.firstEntry Station.epoch) rfl
  have henq : ∃ x ∈ Station.stoppedTrace, ∃ e, x.1 = .ran (.enqueued "c1" (.ok e)) :=
    ⟨_, (hmem _).mpr (Or.inr (Or.inl rfl)), Station.firstEntry, rfl⟩
  refine ⟨recovered, M', hboot, ?_⟩
  exact (footage_survives_iff Station.blank_initial Station.exec_stopped hboot henq
    (fun x hx => (hcond x hx).1) fun x hx => (hcond x hx).2.1).mpr fun x hx => (hcond x hx).2.2

/-- A stop between the two renames of an attempt's start, and the next start sweeps the footage away. -/
theorem footage_lost_in_torn :
    Exec (CrashStep Config.plain) (.up Station.blank) Station.tornTrace (.down Station.torn {"c1"}) ∧
    (∃ x ∈ Station.tornTrace, ∃ e, x.1 = .ran (.enqueued "c1" (.ok e))) ∧
    (∀ x ∈ Station.tornTrace, ¬ x.1.Evicts "c1" ∧ ¬ HasOutcome x.2.fs "c1") ∧
    (∃ recovered M', CrashStep Config.plain (.down Station.torn {"c1"}) (.booted recovered) M') ∧
    ∀ recovered M', CrashStep Config.plain (.down Station.torn {"c1"}) (.booted recovered) M' →
      ¬ ∃ m, M'.fs.get (.queue .pending "c1" .mp4) = some m := by
  have hnone : ∀ s, Station.torn.get (.queue .inflight s .json) = none := by
    intro s
    rw [Station.get_torn_sidecar, if_neg (by simp)]
  have hnamed : Named Station.torn := by
    intro d c e he
    rw [Station.get_torn_sidecar] at he
    split_ifs at he with hd
    obtain rfl := Blob.sidecar.inj (Option.some.inj he)
    exact hd.2.symm
  have hout : ¬ HasOutcome Station.torn "c1" := by
    refine not_hasOutcome fun d e he => ?_
    rw [Station.get_torn_sidecar] at he
    split_ifs at he
    obtain rfl := Blob.sidecar.inj (Option.some.inj he)
    rfl
  have hstranded : Stranded Station.torn "c1" := by
    rintro d (rfl | rfl)
    · exact Or.inl (by simp [Station.torn, get_moveMedia])
    · exact Or.inr (hnone "c1")
  refine ⟨Station.exec_torn, ?_, ?_, ?_, ?_⟩
  · exact ⟨(.ran (.enqueued "c1" (.ok Station.firstEntry)), .up Station.queued),
      by simp [Station.tornTrace], Station.firstEntry, rfl⟩
  · intro x hx
    simp only [Station.tornTrace, List.mem_cons, List.not_mem_nil, or_false] at hx
    rcases hx with rfl | rfl | rfl
    · exact ⟨id, Station.not_hasOutcome_captured⟩
    · exact ⟨id, Station.not_hasOutcome_queued⟩
    · exact ⟨id, hout⟩
  · refine exists_boot _ hnamed ?_
    rintro s ⟨data, hd⟩
    rw [hnone] at hd
    cases hd
  · rintro recovered M' hboot ⟨m, hm⟩
    cases hboot with
    | boot hrun =>
      have hno : NoFootage _ "c1" := hstranded.reconcileInflight hrun
      exact absurd ((hno .pending (Or.inl rfl)).symm.trans hm) (by simp)

end Perchstation
