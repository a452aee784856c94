import Perchstation.Lib.Execution
import Perchstation.Lifecycle

/-!
# Station — the whole station, one operation at a time

A state is the store, the upload being awaited, the poller's skip set and the clip-ids handed out so
far.  A step runs one operation to its end, without faults; capturing only brings files from outside
the queue.  The upload's answer, the clock, the order of listings and every argument are arbitrary.

A panic of the delivery task has no step: its clip then waits in `inflight/` for the next restart.
-/

namespace Perchstation

open Resumption QueueStore

/-- What is fixed while a station runs. -/
structure Config where
  client : PerchpubClient
  showUuid : Uuid → String
  schedule : BackoffSchedule
  profile : Profile
  retentionHours : ℤ

/-- A configuration with the schedule the station ships with, jitter aside. -/
def Config.plain : Config where
  client := ⟨fun s => .ok ⟨s, "perchpub"⟩, ⟨"https://perchpub/", "perchpub"⟩⟩
  showUuid _ := ""
  schedule := ⟨.fromSecs 10, .fromSecs 3600, 2, 0, 12, .fromSecs 86400⟩
  profile := .release
  retentionHours := 24

structure Station where
  fs : Fs
  awaiting : Option ClipQueueEntry
  seen : Finset ClipId
  used : Finset ClipId

/-- What a step did, as far as callers and logs are told; the second half of an attempt also says
what it read off the clock. -/
inductive Event
  | captured
  | enqueued (clipId : ClipId) (result : Except QueueError ClipQueueEntry)
  | enforced (outcome : PolicyOutcome)
  | started (result : Except QueueError Head)
  | finished (entry : ClipQueueEntry) (result : Except ClientError ClassifyTaskPublic)
      (readings : List DateTime)
  | polled
  | pruned (ids : List ClipId)
  | restarted (recovered : Except QueueError (List ClipQueueEntry))

/-- The eviction records or the prune result of the event name the clip. -/
def Event.Names (c : ClipId) : Event → Prop
  | .enforced outcome => ∃ r ∈ outcome.evictions, r.clipId = c
  | .pruned ids => c ∈ ids
  | _ => False

/-- The upload that the first half of `try_once` has left to await. -/
def Head.awaiting : Except QueueError Head → Option ClipQueueEntry
  | .ok (.upload entry) => some entry
  | _ => none

/-- A station that has never queued anything. -/
structure Station.Initial (st : Station) : Prop where
  empty : ∀ d c x, st.fs.get (.queue d c x) = none
  awaiting : st.awaiting = none
  seen : st.seen = ∅
  used : st.used = ∅

inductive Step (cfg : Config) : Station → Event → Station → Prop
  | capture (st : Station) (name : String) (b : Blob) :
      Step cfg st .captured { st with fs := st.fs.put (.source name) b }
  | enqueue {st : Station} {c : ClipId} {name : String} {clipMeta : ClipMeta}
      {r : Except QueueError ClipQueueEntry} {t : Fs} : c ∉ st.used →
      Runs Nominal (enqueueWithId c (.source name) clipMeta) st.fs r t →
      Step cfg st (.enqueued c r) { st with fs := t, used := insert c st.used }
  | enforce {st : Station} {policy : QueuePolicy} {incoming : UInt64} {outcome : PolicyOutcome}
      {t : Fs} : Runs Nominal (applyPolicy cfg.profile policy incoming) st.fs outcome t →
      Step cfg st (.enforced outcome) { st with fs := t }
  | start {st : Station} {r : Except QueueError Head} {t : Fs} : st.awaiting = none →
      Runs Nominal tryOnceHead st.fs r t →
      Step cfg st (.started r) { st with fs := t, awaiting := Head.awaiting r }
  | finish {st : Station} {e : ClipQueueEntry} {result : Except ClientError ClassifyTaskPublic}
      {readings : List DateTime} {r : Except QueueError Unit} {t : Fs} : st.awaiting = some e →
      Runs Clocked (tryOnceFinish cfg.schedule e result) (st.fs, readings) r (t, []) →
      Step cfg st (.finished e result readings) { st with fs := t, awaiting := none }
  | poll {st : Station} {v : Finset ClipId × Except PollerError ℕ} {t : Fs} :
      Runs Nominal (ClassifyPoller.pollRound cfg.client cfg.showUuid st.seen) st.fs v t →
      Step cfg st .polled { st with fs := t, seen := v.1 }
  | prune {st : Station} {v : Finset ClipId × List ClipId} {t : Fs} :
      Runs Nominal (ClassifyPoller.pruneRound cfg.retentionHours st.seen) st.fs v t →
      Step cfg st (.pruned v.2) { st with fs := t, seen := v.1 }
  | restart {st : Station} {e : ClipQueueEntry} {r : Except QueueError (List ClipQueueEntry)}
      {t : Fs} : st.awaiting = some e → Runs Nominal reconcileInflight st.fs r t →
      Step cfg st (.restarted r) { st with fs := t, awaiting := none, seen := ∅ }

/-! ## How an operation moves the clips -/

/-- Every clip has a phase. -/
def Tidy (fs : Fs) : Prop := ∀ c, ∃ p : Phase c, At fs c p

/-- Every clip of `fs` has moved on in `t`, and those now gone were gone or are of `removed`. -/
def Evolves (fs t : Fs) (removed : ClipId → Prop) : Prop :=
  ∀ c (p : Phase c), At fs c p →
    ∃ q, At t c q ∧ p.Moves q ∧ (q = .gone → p = .gone ∨ removed c)

section Evolves

variable {fs t u : Fs} {removed : ClipId → Prop} {s : ClipId}

theorem Evolves.tidy (h : Evolves fs t removed) (hfs : Tidy fs) : Tidy t := by
  intro c
  obtain ⟨p, hp⟩ := hfs c
  obtain ⟨q, hq, -⟩ := h c p hp
  exact ⟨q, hq⟩

theorem Evolves.of_sameClip (h : ∀ c, SameClip fs t c) : Evolves fs t removed :=
  fun c p hp => ⟨p, hp.of_sameClip (h c), .refl, Or.inl⟩

theorem Evolves.trans (h : Evolves fs t removed) (h' : Evolves t u removed) :
    Evolves fs u removed := by
  intro c p hp
  obtain ⟨q, hq, hpq, hgone⟩ := h c p hp
  obtain ⟨r, hr, hqr, hgone'⟩ := h' c q hq
  refine ⟨r, hr, hpq.trans hqr, fun hrg => ?_⟩
  rcases hgone' hrg with hqg | hrem
  · exact hgone hqg
  · exact Or.inr hrem

/-- An operation on the clip `s` that moves it from `p` to a phase that is not gone. -/
theorem Evolves.of_move {p q : Phase s} (hs : At fs s p) (ht : At t s q) (hpq : p.Moves q)
    (hq : q ≠ .gone) (hother : ∀ c, c ≠ s → SameClip fs t c) : Evolves fs t removed := by
  intro c p' hp'
  by_cases hc : c = s
  · subst hc
    obtain rfl := hs.unique hp'
    exact ⟨q, ht, hpq, fun h => absurd h hq⟩
  · exact ⟨p', hp'.of_sameClip (hother c hc), .refl, Or.inl⟩

end Evolves

section Operations

variable {fs t u : Fs} {removed : ClipId → Prop} {e : ClipQueueEntry} {m : Blob}

theorem At.pending_of_get {c : ClipId} {p : Phase c} (h : At fs c p)
    (he : fs.get (.queue .pending c .json) = some (.sidecar e)) :
    ∃ m hc, p = .pending m ⟨e, hc⟩ := by
  obtain ⟨e', he', hent, ⟨-, m, o, rfl⟩ | ⟨⟨⟩, -⟩ | ⟨⟨⟩, -⟩⟩ :=
    Phase.file_json_eq_some ((h.sidecar (by simp)).symm.trans he)
  obtain rfl := Blob.sidecar.inj he'
  obtain rfl : o.1 = e := Option.some.inj hent
  exact ⟨m, o.2, rfl⟩

theorem At.inflight_of_get {c : ClipId} {p : Phase c} (h : At fs c p)
    (he : fs.get (.queue .inflight c .json) = some (.sidecar e)) :
    ∃ m hc, p = .inflight m ⟨e, hc⟩ := by
  obtain ⟨e', he', hent, ⟨⟨⟩, -⟩ | ⟨-, m, o, rfl⟩ | ⟨⟨⟩, -⟩⟩ :=
    Phase.file_json_eq_some ((h.sidecar (by simp)).symm.trans he)
  obtain rfl := Blob.sidecar.inj he'
  obtain rfl : o.1 = e := Option.some.inj hent
  exact ⟨m, o.2, rfl⟩

/-- A scan of a tidy store changes no clip, and the entry picked waits in `pending/`. -/
theorem Picked.tidy {o : Option ClipQueueEntry} (h : Picked fs u o) (hfs : Tidy fs)
    (hn : Named fs) :
    (∀ c, SameClip fs u c) ∧ ∀ e, o = some e → ∃ m ho, At u e.clipId (.pending m ⟨e, rfl, ho⟩) := by
  have hsame : ∀ c, SameClip fs u c := by
    intro c
    obtain ⟨p, hp⟩ := hfs c
    exact h.sameClip c (hp.not_undecodable (by simp))
  refine ⟨hsame, fun e he => ?_⟩
  obtain ⟨c, hc⟩ := h.entry e he
  obtain rfl := hn _ _ _ hc
  obtain ⟨p, hp⟩ := hfs e.clipId
  obtain ⟨m, hce, rfl⟩ := hp.pending_of_get hc
  exact ⟨m, hce.2, hp.of_sameClip (hsame _)⟩

theorem HeadRun.evolves {r : Except QueueError Head} (hfs : Tidy fs) (hn : Named fs)
    (h : HeadRun fs r t) :
    Evolves fs t removed ∧ Named t ∧
      ∀ e, Head.awaiting r = some e → ∃ m ho, At t e.clipId (.inflight m ⟨e, rfl, ho⟩) := by
  cases h with
  | idle hp =>
    exact ⟨.of_sameClip (hp.tidy hfs hn).1, hn.picked hp, fun _ h => by cases h⟩
  | @missing u e hp hm =>
    obtain ⟨m, ho, hat⟩ := (hp.tidy hfs hn).2 e rfl
    have := hat.media (d := .pending) (by simp)
    rw [hm] at this
    cases this
  | @refused u e m len at_ at' reason hp hm hlen hreason =>
    obtain ⟨hsame, hpick⟩ := hp.tidy hfs hn
    obtain ⟨m', ho, hat⟩ := hpick e rfl
    obtain rfl : m' = m :=
      Option.some.inj ((hat.media (d := .pending) (by simp)).symm.trans hm)
    have h1 := hat.movedInflight (e := OpenEntry.started ⟨e, rfl, ho⟩ at_)
    have h2 := h1.movedDelivered
      (e := ⟨refusedRecord (startAttempt e at_) at' reason, by simp, by simp⟩)
    refine ⟨(Evolves.of_sameClip hsame).trans (.of_move hat h2 ?_ (by simp) ?_),
      (hn.picked hp).movedInflight.movedDelivered, fun _ h => by cases h⟩
    · exact (Relation.ReflTransGen.single (Phase.next_started m' _ at_)).tail
        (.settle refusedRecord_attempts)
    · intro c hc
      exact (sameClip_movedInflight (e := startAttempt e at_) hc).trans
        (sameClip_movedDelivered (e := refusedRecord (startAttempt e at_) at' reason) hc)
  | @upload u e m at_ hp hm =>
    obtain ⟨hsame, hpick⟩ := hp.tidy hfs hn
    obtain ⟨m', ho, hat⟩ := hpick e rfl
    obtain rfl : m' = m :=
      Option.some.inj ((hat.media (d := .pending) (by simp)).symm.trans hm)
    have h1 := hat.movedInflight (e := OpenEntry.started ⟨e, rfl, ho⟩ at_)
    refine ⟨(Evolves.of_sameClip hsame).trans
      (.of_move hat h1 (.single (Phase.next_started m' _ at_)) (by simp) fun c hc =>
        sameClip_movedInflight (e := startAttempt e at_) hc),
      (hn.picked hp).movedInflight, ?_⟩
    intro e' he'
    obtain rfl := Option.some.inj he'
    exact ⟨m', ho, h1⟩

theorem FinishRun.evolves {schedule : BackoffSchedule} {at_ : DateTime}
    {result : Except ClientError ClassifyTaskPublic} (ho : e.outcome = none)
    (hat : At fs e.clipId (.inflight m ⟨e, rfl, ho⟩)) (hn : Named fs)
    (h : FinishRun schedule fs e at_ result t) : Evolves fs t removed ∧ Named t := by
  have hsettle : ∀ e' : ClipQueueEntry, e'.clipId = e.clipId → e'.attempts = e.attempts →
      e'.outcome.isSome → Evolves fs (movedDelivered fs e') removed ∧
        Named (movedDelivered fs e') := by
    intro e' hc ha hout
    have h2 := hat.movedDelivered (e := ⟨e', hc, hout⟩)
    refine ⟨.of_move hat h2 (.single (.settle ha)) (by simp) fun c hne => ?_, hn.movedDelivered⟩
    exact sameClip_movedDelivered (hc ▸ hne)
  cases h with
  | accepted => exact hsettle _ (by simp) (by simp) (by simp)
  | undecodable => exact hsettle _ (by simp) (by simp) (by simp)
  | @retried err next _ _ =>
    have h2 := hat.movedBack
      (e := ⟨retryRecord e next (errorKind err) err.status err.display, by simp, by simp [ho]⟩)
    refine ⟨.of_move hat h2 (.single (.retry retryRecord_attempts)) (by simp) fun c hne => ?_,
      hn.movedBack⟩
    exact sameClip_movedBack (e := retryRecord e next (errorKind err) err.status err.display) hne
  | exhausted => exact hsettle _ (by simp) (by simp) (by simp)
  | terminal => exact hsettle _ (by simp) (by simp) (by simp)

/-- Every clip of `fs` is where it was, or has come back from `inflight/`. -/
def AllReturned (fs t : Fs) : Prop :=
  ∀ c (p : Phase c), At fs c p → ∃ q, At t c q ∧ p.Returned q

theorem AllReturned.of_at (h : ∀ c (p : Phase c), At fs c p → At t c p) : AllReturned fs t :=
  fun c p hp => ⟨p, h c p hp, Or.inl rfl⟩

theorem AllReturned.trans (h : AllReturned fs t) (h' : AllReturned t u) : AllReturned fs u := by
  intro c p hp
  obtain ⟨q, hq, hpq⟩ := h c p hp
  obtain ⟨r, hr, hqr⟩ := h' c q hq
  exact ⟨r, hr, hpq.trans hqr⟩

theorem AllReturned.tidy (h : AllReturned fs t) (hfs : Tidy fs) : Tidy t := by
  intro c
  obtain ⟨p, hp⟩ := hfs c
  obtain ⟨q, hq, -⟩ := h c p hp
  exact ⟨q, hq⟩

theorem AllReturned.evolves (h : AllReturned fs t) : Evolves fs t removed := by
  intro c p hp
  obtain ⟨q, hq, hpq⟩ := h c p hp
  exact ⟨q, hq, hpq.moves, fun hg => Or.inl (Phase.Returned.of_gone (hg ▸ hpq))⟩

/-- Going through the sidecars of `inflight/` takes their clips back to `pending/`. -/
theorem reconciled_returned {l : List Path} {v : Except QueueError (List ClipQueueEntry)}
    (hl : ∀ p ∈ l, ∃ c, p = .queue .inflight c .json) (hfs : Tidy fs) (hn : Named fs)
    (h : (v, t) = reconciled l fs) : AllReturned fs t ∧ Named t := by
  induction l generalizing fs v with
  | nil =>
    obtain ⟨rfl, rfl⟩ := Prod.mk.inj h
    exact ⟨.of_at fun _ _ h => h, hn⟩
  | cons p rest ih =>
    obtain ⟨s, rfl⟩ := hl p List.mem_cons_self
    have hrest : ∀ q ∈ rest, ∃ c, q = .queue .inflight c .json :=
      fun q hq => hl q (List.mem_cons_of_mem _ hq)
    rw [reconciled] at h
    cases hr : sidecarAt fs (.queue .inflight s .json) with
    | error err =>
      rw [hr] at h
      obtain ⟨rfl, rfl⟩ := Prod.mk.inj h
      exact ⟨.of_at fun _ _ h => h, hn⟩
    | ok e =>
      have hget := sidecarAt_eq_ok_iff.mp hr
      obtain rfl := hn _ _ _ hget
      obtain ⟨p, hp⟩ := hfs e.clipId
      obtain ⟨m, hce, rfl⟩ := hp.inflight_of_get hget
      have hopen : e.isTerminal = false := by simp [ClipQueueEntry.isTerminal, hce.2]
      simp only [hr, hopen, Bool.false_eq_true, if_false] at h
      have h2 := hp.movedBack (e := ⟨requeued e, requeued_clipId, requeued_outcome.trans hce.2⟩)
      have hstep : AllReturned fs (movedBack fs (requeued e)) := by
        intro c p' hp'
        by_cases hc : c = e.clipId
        · subst hc
          obtain rfl := hp.unique hp'
          exact ⟨_, h2, Or.inr ⟨m, _, _, rfl, rfl, requeued_attempts⟩⟩
        · exact ⟨p', hp'.of_sameClip (sameClip_movedBack (e := requeued e) hc), Or.inl rfl⟩
      rcases hrec : reconciled rest (movedBack fs (requeued e)) with ⟨r, w⟩
      rw [hrec] at h
      have htw : t = w := by
        cases r <;> exact (Prod.mk.inj h).2
      subst htw
      obtain ⟨hev, hn'⟩ := ih hrest (hstep.tidy hfs) hn.movedBack hrec.symm
      exact ⟨hstep.trans hev, hn'⟩

theorem reconcileInflight_returned {v : Except QueueError (List ClipQueueEntry)} (hfs : Tidy fs)
    (hn : Named fs) (h : Runs Nominal reconcileInflight fs v t) :
    AllReturned fs t ∧ Named t := by
  obtain ⟨u, w, l, hu, hw, hl, hr⟩ := runs_reconcileInflight.mp h
  have h1 : AllReturned fs u :=
    .of_at fun c p hp => hp.sameClip_of_partSwept (by simp) hu.partSwept
  have h2 : AllReturned u w :=
    .of_at fun c p hp => hp.sameClip_of_partSwept (by simp) hw.partSwept
  obtain ⟨h3, hn'⟩ := reconciled_returned (fun p hp => by
      obtain ⟨s, hs, -⟩ := (mem_sidecars hl).mp (mem_sortPaths.mp hp)
      exact ⟨s, hs⟩)
    (h2.tidy (h1.tidy hfs)) ((hn.partSwept hu.partSwept).partSwept hw.partSwept) hr
  exact ⟨(h1.trans h2).trans h3, hn'⟩

end Operations

/-! ## The invariant -/

structure Inv (st : Station) : Prop where
  tidy : Tidy st.fs
  named : Named st.fs
  unused : ∀ c, c ∉ st.used → At st.fs c .gone
  awaiting : ∀ e, st.awaiting = some e → ∃ m ho, At st.fs e.clipId (.inflight m ⟨e, rfl, ho⟩)

variable {cfg : Config} {st st' : Station} {ev : Event} {t : Fs}

theorem Station.Initial.inv (h : st.Initial) : Inv st where
  tidy c := ⟨.gone, fun d x _ _ => h.empty d c x⟩
  named d c e he := by
    rw [h.empty] at he
    cases he
  unused c _ := fun d x _ _ => h.empty d c x
  awaiting e he := by
    rw [h.awaiting] at he
    cases he

theorem Inv.of_evolves {removed : ClipId → Prop} {aw : Option ClipQueueEntry}
    {seen : Finset ClipId} (hi : Inv st) (hev : Evolves st.fs t removed) (hn : Named t)
    (haw : ∀ e, aw = some e → ∃ m ho, At t e.clipId (.inflight m ⟨e, rfl, ho⟩)) :
    Inv ⟨t, aw, seen, st.used⟩ where
  tidy := hev.tidy hi.tidy
  named := hn
  unused c hc := by
    obtain ⟨q, hq, hmoves, -⟩ := hev c .gone (hi.unused c hc)
    obtain rfl := hmoves.of_gone
    exact hq
  awaiting := haw

/-- An operation that leaves the clips of `inflight/` alone leaves the awaited one. -/
theorem Inv.awaiting_of_inflight (hi : Inv st)
    (h : ∀ c m (o : OpenEntry c), At st.fs c (.inflight m o) → At t c (.inflight m o)) :
    ∀ e, st.awaiting = some e → ∃ m ho, At t e.clipId (.inflight m ⟨e, rfl, ho⟩) := by
  intro e he
  obtain ⟨m, ho, hat⟩ := hi.awaiting e he
  exact ⟨m, ho, h _ _ _ hat⟩

/-- What a step does to a clip that was enqueued before it. -/
def Moved (st : Station) (ev : Event) (st' : Station) : Prop :=
  ∀ c (p : Phase c), c ∈ st.used → At st.fs c p →
    ∃ q, At st'.fs c q ∧ p.Moves q ∧ (q = .gone → p = .gone ∨ ev.Names c)

theorem Evolves.moved (h : Evolves st.fs t fun c => ev.Names c) {aw : Option ClipQueueEntry}
    {seen used : Finset ClipId} : Moved st ev ⟨t, aw, seen, used⟩ :=
  fun c p _ hp => h c p hp

theorem Step.capture_inv (hi : Inv st) (name : String) (b : Blob) :
    Inv { st with fs := st.fs.put (.source name) b } ∧
      Moved st .captured { st with fs := st.fs.put (.source name) b } := by
  have hsame : ∀ c, SameClip st.fs (st.fs.put (.source name) b) c := by
    rintro c d x (rfl | rfl) <;> simp [FileMap.get_put]
  have hev : Evolves st.fs (st.fs.put (.source name) b) fun c => Event.captured.Names c :=
    .of_sameClip hsame
  have hn : Named (st.fs.put (.source name) b) := hi.named.put fun _ _ _ hp _ => by cases hp
  exact ⟨hi.of_evolves hev hn (hi.awaiting_of_inflight fun c _ _ h => h.of_sameClip (hsame c)),
    hev.moved⟩

theorem Step.enqueue_inv {c : ClipId} {name : String} {clipMeta : ClipMeta}
    {r : Except QueueError ClipQueueEntry} (hi : Inv st) (hc : c ∉ st.used)
    (h : Runs Nominal (enqueueWithId c (.source name) clipMeta) st.fs r t) :
    Inv { st with fs := t, used := insert c st.used } ∧
      Moved st (.enqueued c r) { st with fs := t, used := insert c st.used } ∧
      ∀ e, r = .ok e → ∃ m o, At t c (.pending m o) := by
  have hne : ∀ {s}, s ∈ st.used → s ≠ c := fun hs h => hc (h ▸ hs)
  rcases runs_enqueueWithId.mp h with ⟨-, rfl, rfl⟩ | ⟨m, len, at_, -, -, rfl, rfl⟩
  · refine ⟨⟨hi.tidy, hi.named, fun s hs => hi.unused s fun hm => hs (Finset.mem_insert_of_mem hm),
      hi.awaiting⟩, fun s p _ hp => ⟨p, hp, .refl, Or.inl⟩, fun _ h => by cases h⟩
  · have hnew := (hi.unused c hc).enqueued (n := name) (m := m)
      (e := ⟨.new c clipMeta.capturedAt at_ len, rfl, rfl⟩)
    have hsame : ∀ s, s ≠ c →
        SameClip st.fs (enqueued st.fs name m (.new c clipMeta.capturedAt at_ len)) s :=
      fun s hs => sameClip_enqueued hs
    refine ⟨⟨fun s => ?_, ?_, fun s hs => ?_, fun e he => ?_⟩, fun s p hs hp => ?_, fun _ _ =>
      ⟨m, _, hnew⟩⟩
    · by_cases hs : s = c
      · subst hs
        exact ⟨_, hnew⟩
      · obtain ⟨p, hp⟩ := hi.tidy s
        exact ⟨p, hp.of_sameClip (hsame s hs)⟩
    · exact ((hi.named.del _).put_media _ _ _).replaceSidecar _ _
    · rw [Finset.mem_insert, not_or] at hs
      exact (hi.unused s hs.2).of_sameClip (hsame s hs.1)
    · obtain ⟨m', ho, hat⟩ := hi.awaiting e he
      refine ⟨m', ho, hat.of_sameClip (hsame _ ?_)⟩
      rintro rfl
      have hgone := hat.unique (hi.unused _ hc)
      cases hgone
    · exact ⟨p, hp.of_sameClip (hsame s (hne hs)), .refl, Or.inl⟩

theorem Step.enforce_inv {policy : QueuePolicy} {incoming : UInt64} {outcome : PolicyOutcome}
    (hi : Inv st) (h : Runs Nominal (applyPolicy cfg.profile policy incoming) st.fs outcome t) :
    Inv { st with fs := t } ∧ Moved st (.enforced outcome) { st with fs := t } := by
  obtain ⟨heff, -⟩ := runs_applyPolicy h
  have hev : Evolves st.fs t fun c => (Event.enforced outcome).Names c := by
    intro c p hp
    rcases hp.policyEffect hi.named heff with ⟨hat, -⟩ | ⟨hat, hnext, hrec⟩
    · exact ⟨p, hat, .refl, Or.inl⟩
    · exact ⟨.gone, hat, .single hnext, fun _ => Or.inr hrec⟩
  refine ⟨hi.of_evolves hev (hi.named.of_subset fun _ _ _ => heff.subset _ _)
    (hi.awaiting_of_inflight fun c m o hat => ?_), hev.moved⟩
  rcases hat.policyEffect hi.named heff with ⟨hat', -⟩ | ⟨-, hnext, -⟩
  · exact hat'
  · cases hnext

theorem Step.poll_inv {v : Finset ClipId × Except PollerError ℕ} (hi : Inv st)
    (h : Runs Nominal (ClassifyPoller.pollRound cfg.client cfg.showUuid st.seen) st.fs v t) :
    Inv { st with fs := t, seen := v.1 } ∧ Moved st .polled { st with fs := t, seen := v.1 } := by
  have heff := runs_pollRound hi.named h
  have hev : Evolves st.fs t fun c => Event.polled.Names c := by
    intro c p hp
    rcases hp.pollEffect heff with hat | ⟨e, e', rfl, hu, hat⟩
    · exact ⟨p, hat, .refl, Or.inl⟩
    · exact ⟨_, hat, .single (.poll hu), fun h => by cases h⟩
  refine ⟨hi.of_evolves hev (heff.named hi.named)
    (hi.awaiting_of_inflight fun c m o hat => ?_), hev.moved⟩
  rcases hat.pollEffect heff with hat' | ⟨_, _, hp, -⟩
  · exact hat'
  · cases hp

theorem PruneEffect.named {fs : Fs} {before : DateTime} {pruned : List ClipId}
    (h : PruneEffect fs t before pruned) (hn : Named fs) : Named t := by
  refine hn.of_subset fun d c e he => ?_
  by_cases hp : d = .delivered ∧ PrunableAt fs before (.queue .delivered c .json)
  · rw [hp.1, h.gone c .json (Or.inr rfl) hp.2] at he
    cases he
  · rw [← he, h.same]
    rintro s x hpath - hpr
    obtain ⟨rfl, rfl, -⟩ := Path.queue.inj hpath
    exact hp ⟨rfl, hpr⟩

theorem Step.prune_inv {v : Finset ClipId × List ClipId} (hi : Inv st)
    (h : Runs Nominal (ClassifyPoller.pruneRound cfg.retentionHours st.seen) st.fs v t) :
    Inv { st with fs := t, seen := v.1 } ∧
      Moved st (.pruned v.2) { st with fs := t, seen := v.1 } := by
  obtain ⟨-, cutoff, -, heff⟩ := runs_pruneRound h
  have hev : Evolves st.fs t fun c => (Event.pruned v.2).Names c := by
    intro c p hp
    rcases hp.pruneEffect hi.named heff with ⟨hat, -⟩ | ⟨hat, hnext, hmem⟩
    · exact ⟨p, hat, .refl, Or.inl⟩
    · exact ⟨.gone, hat, .single hnext, fun _ => Or.inr hmem⟩
  refine ⟨hi.of_evolves hev (heff.named hi.named) (hi.awaiting_of_inflight fun c m o hat => ?_),
    hev.moved⟩
  rcases hat.pruneEffect hi.named heff with ⟨hat', -⟩ | ⟨-, hnext, -⟩
  · exact hat'
  · cases hnext

/-- A step keeps the invariant and moves every clip enqueued before it along its lifecycle. -/
theorem Step.spec (hi : Inv st) (h : Step cfg st ev st') : Inv st' ∧ Moved st ev st' := by
  cases h with
  | capture name b => exact Step.capture_inv hi name b
  | enqueue hc hr => exact ⟨(Step.enqueue_inv hi hc hr).1, (Step.enqueue_inv hi hc hr).2.1⟩
  | enforce hr => exact Step.enforce_inv hi hr
  | start hnone hr =>
    obtain ⟨hev, hn, haw⟩ := (runs_tryOnceHead hr).evolves hi.tidy hi.named
    exact ⟨hi.of_evolves hev hn haw, hev.moved⟩
  | finish he hr =>
    obtain ⟨m, ho, hat⟩ := hi.awaiting _ he
    obtain ⟨_, _, -, -, hfin⟩ := runs_tryOnceFinish hr
    obtain ⟨hev, hn⟩ := hfin.evolves ho hat hi.named
    exact ⟨hi.of_evolves hev hn (fun _ h => by cases h), hev.moved⟩
  | poll hr => exact Step.poll_inv hi hr
  | prune hr => exact Step.prune_inv hi hr
  | @restart e r t he hr =>
    obtain ⟨hret, hn⟩ := reconcileInflight_returned hi.tidy hi.named hr
    have hev : Evolves st.fs t fun c => (Event.restarted r).Names c := hret.evolves
    exact ⟨hi.of_evolves hev hn (fun _ h => by cases h), hev.moved⟩

theorem Inv.step (hi : Inv st) (h : Step cfg st ev st') : Inv st' := (h.spec hi).1

theorem Inv.moved (hi : Inv st) (h : Step cfg st ev st') : Moved st ev st' := (h.spec hi).2

theorem Step.used_subset (h : Step cfg st ev st') : st.used ⊆ st'.used := by
  cases h <;> first | exact Finset.Subset.refl _ | exact Finset.subset_insert _ _

/-! ## Runs -/

variable {tr : List (Event × Station)}

theorem Inv.exec (hi : Inv st) (h : Exec (Step cfg) st tr st') : Inv st' :=
  h.invariant hi fun _ _ _ hi hs => hi.step hs

theorem used_subset_of_exec (h : Exec (Step cfg) st tr st') : st.used ⊆ st'.used :=
  h.related (fun s => Finset.Subset.refl s.used) (fun _ _ _ h1 h2 => h1.trans h2)
    fun _ _ _ hs => hs.used_subset

/-- A run moves every clip enqueued before it along its lifecycle; a clip that is gone at its end
was gone before or was named on the way. -/
theorem Inv.moved_exec (hi : Inv st) (h : Exec (Step cfg) st tr st') {c : ClipId} {p : Phase c}
    (hc : c ∈ st.used) (hp : At st.fs c p) :
    ∃ q, At st'.fs c q ∧ p.Moves q ∧ (q = .gone → p = .gone ∨ ∃ s ∈ tr, s.1.Names c) := by
  induction h with
  | nil => exact ⟨p, hp, .refl, Or.inl⟩
  | @snoc tr t u l hrun hs ih =>
    obtain ⟨q, hq, hpq, hgone⟩ := ih
    obtain ⟨r, hr, hqr, hgone'⟩ := ((hi.exec hrun).moved hs) c q (used_subset_of_exec hrun hc) hq
    refine ⟨r, hr, hpq.trans hqr, fun hrg => ?_⟩
    rcases hgone' hrg with hqg | hnames
    · rcases hgone hqg with hpg | ⟨s, hs, hnames⟩
      · exact Or.inl hpg
      · exact Or.inr ⟨s, List.mem_append_left _ hs, hnames⟩
    · exact Or.inr ⟨_, List.mem_append_right _ (List.mem_singleton_self _), hnames⟩

theorem Step.finish_elim {e : ClipQueueEntry} {result : Except ClientError ClassifyTaskPublic}
    {readings : List DateTime} (h : Step cfg st (.finished e result readings) st') :
    st.awaiting = some e ∧ ∃ at_ rest, readings = at_ :: rest ∧
      FinishRun cfg.schedule st.fs e at_ result st'.fs := by
  cases h with
  | finish he hr =>
    obtain ⟨at_, rest, hread, -, hfin⟩ := runs_tryOnceFinish hr
    exact ⟨he, at_, rest, hread, hfin⟩

theorem Step.exists_finish {e : ClipQueueEntry} {result : Except ClientError ClassifyTaskPublic}
    {at_ : DateTime} (he : st.awaiting = some e) (h : FinishRun cfg.schedule st.fs e at_ result t) :
    ∃ rest, Step cfg st (.finished e result (at_ :: rest)) { st with fs := t, awaiting := none } := by
  obtain ⟨rest, hr⟩ := exists_runs_tryOnceFinish h
  exact ⟨rest, .finish he hr⟩

theorem Inv.settled {e e' : ClipQueueEntry} (hi : Inv st) (haw : st.awaiting = some e)
    (hid : e'.clipId = e.clipId) (hout : e'.outcome.isSome) :
    ∃ d : ClosedEntry e.clipId, At (movedDelivered st.fs e') e.clipId (.delivered d) ∧ d.1 = e' := by
  obtain ⟨m, ho, hat⟩ := hi.awaiting e haw
  have hd := hat.movedDelivered (e := ⟨e', hid, hout⟩)
  exact ⟨⟨e', hid, hout⟩, hd, rfl⟩

/-- A step that enqueues a clip puts it into `pending/`. -/
theorem Step.enqueued {c : ClipId} {e : ClipQueueEntry} (hi : Inv st)
    (h : Step cfg st (.enqueued c (.ok e)) st') : c ∈ st'.used ∧ ∃ m o, At st'.fs c (.pending m o) := by
  cases h with
  | enqueue hc hr =>
    exact ⟨Finset.mem_insert_self _ _, (Step.enqueue_inv hi hc hr).2.2 e rfl⟩

/-- A clip with files has been enqueued. -/
theorem Inv.mem_used (hi : Inv st) {c : ClipId} {p : Phase c} (hp : At st.fs c p) (hne : p ≠ .gone) :
    c ∈ st.used := by
  by_contra hc
  exact hne (hp.unique (hi.unused c hc))

/-- In every reachable state each clip is in exactly one phase, its record has an outcome exactly in
`delivered/`, and its files are in one directory.  In every continuation its attempts do not
decrease and its outcome does not change.  If it was enqueued and is gone, an eviction record or a
prune result has named it. -/
theorem lifecycle {st₀ : Station} {tr' : List (Event × Station)} (h₀ : st₀.Initial)
    (h : Exec (Step cfg) st₀ tr st) (h' : Exec (Step cfg) st tr' st') (c : ClipId) :
    (∃! p : Phase c, At st.fs c p) ∧
    (∀ d e, d ≠ .corrupt → st.fs.get (.queue d c .json) = some (.sidecar e) →
      (e.outcome.isSome ↔ d = .delivered)) ∧
    (∀ d d' x x', d ≠ .corrupt → d' ≠ .corrupt → Ext.IsMain x → Ext.IsMain x' →
      (st.fs.get (.queue d c x)).isSome → (st.fs.get (.queue d' c x')).isSome → d = d') ∧
    (∀ d d' e e', d ≠ .corrupt → d' ≠ .corrupt →
      st.fs.get (.queue d c .json) = some (.sidecar e) →
      st'.fs.get (.queue d' c .json) = some (.sidecar e') →
      e.attempts ≤ e'.attempts ∧ (e.outcome.isSome → e'.outcome = e.outcome)) ∧
    ((∃ s ∈ tr, ∃ e, s.1 = .enqueued c (.ok e)) → At st.fs c .gone → ∃ s ∈ tr, s.1.Names c) := by
  have hi : Inv st := h₀.inv.exec h
  obtain ⟨p, hp⟩ := hi.tidy c
  refine ⟨⟨p, hp, fun q hq => hq.unique hp⟩, fun d e hd he => ?_, fun d d' x x' hd hd' hx hx' hs hs' =>
    ?_, fun d d' e e' hd hd' he he' => ?_, ?_⟩
  · obtain ⟨e₁, he₁, hent, hcase⟩ := Phase.file_json_eq_some ((hp.sidecar hd).symm.trans he)
    obtain rfl := Blob.sidecar.inj he₁
    rcases hcase with ⟨rfl, m, o, rfl⟩ | ⟨rfl, m, o, rfl⟩ | ⟨rfl, o, rfl⟩ <;>
      obtain rfl : o.1 = e := Option.some.inj hent
    · simp [o.2.2]
    · simp [o.2.2]
    · simp [o.2.2]
  · rw [hp d x hd hx] at hs
    rw [hp d' x' hd' hx'] at hs'
    exact Phase.dir_unique hs hs'
  · have hused : c ∈ st.used := by
      refine hi.mem_used hp ?_
      rintro rfl
      cases (hp.sidecar hd).symm.trans he
    obtain ⟨q, hq, hpq, -⟩ := hi.moved_exec h' hused hp
    exact hpq.entry (hp.entry_of_get hd he) (hq.entry_of_get hd' he')
  · rintro ⟨⟨ev, s⟩, hmem, e, rfl⟩ hgone
    obtain ⟨tr₁, tr₂, a, rfl, h1, h2, h3⟩ := h.split hmem
    have ha : Inv a := h₀.inv.exec h1
    obtain ⟨hused, m, o, hat⟩ := Step.enqueued ha h2
    obtain ⟨q, hq, -, hnames⟩ := Inv.moved_exec (ha.step h2) h3 hused hat
    rcases hnames (hq.unique hgone) with hm | ⟨y, hy, hyn⟩
    · cases hm
    · exact ⟨y, by simp [hy], hyn⟩

/-! ## A first upload -/

namespace Station

/-- A station that starts with no files at all. -/
def blank : Station := ⟨.empty, none, ∅, ∅⟩

theorem blank_initial : blank.Initial := ⟨by simp [blank], rfl, rfl, rfl⟩

def epoch : DateTime := .ofSecs 0 DateTime.epoch_inRange

def footage : Blob := .bytes [0]

def firstEntry : ClipQueueEntry := .new "c1" epoch epoch 1

def captured : Station := { blank with fs := blank.fs.put (.source "in.mp4") footage }

def queued : Station :=
  ⟨Perchstation.enqueued captured.fs "in.mp4" footage firstEntry, none, ∅, {"c1"}⟩

/-- The station that awaits its first upload. -/
def uploading : Station :=
  ⟨movedInflight queued.fs footage (startAttempt firstEntry epoch),
    some (startAttempt firstEntry epoch), ∅, {"c1"}⟩

def firstTrace : List (Event × Station) :=
  [(.captured, captured), (.enqueued "c1" (.ok firstEntry), queued),
    (.started (.ok (.upload (startAttempt firstEntry epoch))), uploading)]

theorem step_captured : Step cfg blank .captured captured := .capture blank "in.mp4" footage

theorem step_queued : Step cfg captured (.enqueued "c1" (.ok firstEntry)) queued := by
  have hrun : Runs Nominal (enqueueWithId "c1" (.source "in.mp4") ⟨epoch⟩) captured.fs
      (.ok firstEntry) queued.fs := by
    refine runs_enqueueWithId.mpr (Or.inr ⟨footage, 1, epoch, ?_, rfl, rfl, rfl⟩)
    simp [captured, FileMap.get_put]
  exact .enqueue (by simp [captured, blank]) hrun

theorem get_queued_sidecar (d : Dir) (c : ClipId) :
    queued.fs.get (.queue d c .json) =
      if d = .pending ∧ c = "c1" then some (.sidecar firstEntry) else none := by
  simp [queued, get_enqueued, captured, blank, FileMap.get_put, firstEntry, ClipQueueEntry.new]

theorem get_queued_media (d : Dir) :
    queued.fs.get (.queue d "c1" .mp4) = if d = .pending then some footage else none := by
  simp [queued, get_enqueued, captured, blank, FileMap.get_put, firstEntry, ClipQueueEntry.new]

theorem step_uploading :
    Step cfg queued (.started (.ok (.upload (startAttempt firstEntry epoch)))) uploading := by
  have hlen : footage.HasLen 1 := rfl
  have hhead : Runs Nominal tryOnceHead queued.fs (.ok (.upload (startAttempt firstEntry epoch)))
      uploading.fs := by
    refine runs_tryOnceHead_single (fun c hc => ?_) ?_ rfl ?_ hlen (by decide) (by decide)
    · rw [get_queued_sidecar] at hc
      by_contra hne
      rw [if_neg fun h => hne h.2] at hc
      cases hc
    · exact get_queued_sidecar .pending "c1"
    · exact get_queued_media .pending
  exact .start rfl hhead

theorem exec_uploading : Exec (Step cfg) blank firstTrace uploading :=
  ((Exec.nil.snoc step_captured).snoc step_queued).snoc step_uploading

theorem uploading_inv : Inv uploading := by
  have h : Exec (Step Config.plain) blank firstTrace uploading := exec_uploading
  exact blank_initial.inv.exec h

end Station

theorem lifecycle_uploading :
    (∃! p : Phase "c1", At Station.uploading.fs "c1" p) ∧
      (At Station.uploading.fs "c1" .gone → ∃ s ∈ Station.firstTrace, s.1.Names "c1") := by
  have h : Exec (Step Config.plain) Station.blank Station.firstTrace Station.uploading :=
    Station.exec_uploading
  have hrun := lifecycle Station.blank_initial h .nil "c1"
  exact ⟨hrun.1, hrun.2.2.2.2 ⟨(.enqueued "c1" (.ok Station.firstEntry), Station.queued),
    by simp [Station.firstTrace], Station.firstEntry, rfl⟩⟩

end Perchstation
