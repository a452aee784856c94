import Perchstation.Attempts.Counts
import Perchstation.Delivery.Requests

/-!
# Tally — the attempts field of a record

In a run without a crash the record of a clip counts how often the clip has entered `inflight/`.
-/

namespace Perchstation

open Resumption QueueStore

/-! ## What enters `inflight/` -/

section Log

variable {fs t : Fs} {c : ClipId} {e : ClipQueueEntry} {at_ : DateTime} {l l' : List ClipId}

/-- The request moves no media into `inflight/`. -/
def LeavesInflight (r : Req) : Prop := ∀ v : Rep r, entersInflight r v = []

theorem log_of_within {α : Type} {p : Act α} {a : α} (hp : Within LeavesInflight p)
    (h : Runs Entering p (fs, l) a (t, l')) : l' = l := by
  refine hp.runs (I := fun s => s.2 = l) (fun s r v u hr henv hs => ?_) h rfl
  show u.2 = l
  rw [henv.2, hr v, List.append_nil]
  exact hs

theorem leavesInflight_of_ne {r : Req} (h : ∀ src s, r ≠ .rename src (.queue .inflight s .mp4)) :
    LeavesInflight r := by
  intro v
  unfold entersInflight
  split
  · exact absurd rfl (h _ _)
  · rfl

theorem allowsScan_leavesInflight : AllowsScan LeavesInflight := by
  refine ⟨fun d => ?_, fun p => ?_, fun d => ?_, fun p => ?_, fun p => ?_⟩
  · exact leavesInflight_of_ne (by simp)
  · exact leavesInflight_of_ne (by simp)
  · exact leavesInflight_of_ne (by simp)
  · exact leavesInflight_of_ne (by simp)
  · refine leavesInflight_of_ne fun src s h => ?_
    cases p <;> simp [Path.moveTo] at h

theorem allowsRecords_leavesInflight : AllowsRecords LeavesInflight := by
  refine ⟨fun p b => ?_, fun p => ?_, fun p d c => ?_⟩
  · exact leavesInflight_of_ne (by simp)
  · exact leavesInflight_of_ne (by simp)
  · exact leavesInflight_of_ne (by simp)

/-- A hand-off that succeeds is one entry of its clip. -/
theorem entering_transitionInflight {e' : ClipQueueEntry}
    (h : Runs Entering (transitionInflight e at_) (fs, l) (.ok e') (t, l')) :
    l' = l ++ [e.clipId] := by
  rw [transitionInflight, runs_bind] at h
  obtain ⟨v, ⟨u, l₁⟩, hmove, h⟩ := h
  obtain ⟨-, hlog⟩ := runs_request.mp hmove
  rcases v with (_ | _ | _) | _
  · cases h.1
  · cases h.1
  · cases h.1
  · have hl₁ : l₁ = l ++ [e.clipId] := hlog
    refine (log_of_within ?_ h).trans hl₁
    refine .bind allowsRecords_leavesInflight.within_writeSidecarAtomic fun v => ?_
    rcases v with _ | _
    · exact .bind (within_request (leavesInflight_of_ne (by simp))) fun _ => within_pure _
    · refine .bind (within_removeIfExists (allowsRecords_leavesInflight.removeFile _)) fun v => ?_
      rcases v with _ | _ <;> exact within_pure _

/-- A hand-off without media enters nothing. -/
theorem entering_transitionInflight_missing {v : Except QueueError ClipQueueEntry}
    (hm : fs.get (.queue .pending e.clipId .mp4) = none)
    (h : Runs Entering (transitionInflight e at_) (fs, l) v (t, l')) : l' = l := by
  rw [transitionInflight, runs_bind] at h
  obtain ⟨v, ⟨u, l₁⟩, hmove, h⟩ := h
  obtain ⟨hnom, hlog⟩ := runs_request.mp hmove
  simp only [Nominal, Path.media, hm] at hnom
  obtain ⟨rfl, -⟩ := hnom
  obtain rfl : l₁ = l := hlog.trans (List.append_nil l)
  obtain ⟨-, hend⟩ := h
  exact (Prod.mk.inj hend).2

/-- The first half of an attempt enters no clip into `inflight/`, or the one it has picked. -/
theorem entering_tryOnceHead {r : Except QueueError Head}
    (h : Runs Entering tryOnceHead (fs, []) r (t, l)) :
    (l = [] ∧ ∃ u o, Picked fs u o ∧ Head.awaiting r = none ∧
        (t = u ∨ ∃ e, o = some e ∧ u.get (.queue .pending e.clipId .mp4) = none ∧
          t = (u.del (.queue .pending e.clipId .json)).del (.queue .pending e.clipId .mp4))) ∨
      ∃ u e m at_, l = [e.clipId] ∧ Picked fs u (some e) ∧
        u.get (.queue .pending e.clipId .mp4) = some m ∧
        ((Head.awaiting r = some (startAttempt e at_) ∧ t = movedInflight u m (startAttempt e at_)) ∨
          ∃ at' reason, Head.awaiting r = none ∧
            t = movedDelivered (movedInflight u m (startAttempt e at_))
              (refusedRecord (startAttempt e at_) at' reason)) := by
  rw [tryOnceHead, runs_bind] at h
  obtain ⟨at_, ⟨w, l₁⟩, hw, h⟩ := h
  obtain ⟨hw, hl₁⟩ := runs_request.mp hw
  obtain rfl : w = fs := hw
  obtain rfl : l₁ = [] := hl₁
  rw [runs_bind] at h
  obtain ⟨v, ⟨u, l₂⟩, hu, h⟩ := h
  obtain rfl := log_of_within allowsScan_leavesInflight.within_pickOldestPending hu
  obtain ⟨o, rfl, hpick⟩ := runs_pickOldestPending (runs_of_entering hu)
  cases o with
  | none =>
    obtain ⟨rfl, hend⟩ := h
    obtain ⟨rfl, rfl⟩ := Prod.mk.inj hend
    exact Or.inl ⟨rfl, _, none, hpick, rfl, Or.inl rfl⟩
  | some e =>
    dsimp only at h
    rw [runs_bind] at h
    obtain ⟨v, ⟨w', l₃⟩, hmove, h⟩ := h
    rcases runs_transitionInflight.mp (runs_of_entering hmove) with
      ⟨hnone, rfl, rfl⟩ | ⟨m, hm, rfl, rfl⟩
    · -- the media is missing: the orphan is dropped
      obtain rfl := entering_transitionInflight_missing hnone hmove
      dsimp only at h
      rw [runs_bind] at h
      obtain ⟨v, ⟨w, l₄⟩, hdrop, h⟩ := h
      obtain rfl := log_of_within allowsRecords_leavesInflight.within_quarantineOrphan hdrop
      obtain ⟨rfl, rfl⟩ := runs_quarantineOrphan.mp (runs_of_entering hdrop)
      obtain ⟨rfl, hend⟩ := h
      obtain ⟨rfl, rfl⟩ := Prod.mk.inj hend
      exact Or.inl ⟨rfl, _, some e, hpick, rfl, Or.inr ⟨e, rfl, hnone, rfl⟩⟩
    · -- the hand-off writes the clip's sidecar into `inflight/`
      obtain rfl := entering_transitionInflight hmove
      obtain rfl := log_of_within (allowsRecords_leavesInflight.within_startUpload
        (fun _ => leavesInflight_of_ne (by simp)) (leavesInflight_of_ne (by simp))) h
      refine Or.inr ⟨u, e, m, at_, rfl, hpick, hm, ?_⟩
      rcases runs_startUpload get_movedInflight_media (runs_of_entering h) with
        ⟨rfl, rfl⟩ | ⟨len, reason, at', -, -, rfl, rfl⟩
      · exact Or.inl ⟨rfl, rfl⟩
      · exact Or.inr ⟨at', reason, rfl, rfl⟩

end Log

/-! ## The attempts field -/

section Tally

variable {schedule : BackoffSchedule} {limit : ℕ} {n : Option ℕ} {c : ClipId} {fs t : Fs}
  {aw : Option ClipQueueEntry} {w w' : Worker} {ev : WorkEvent}

/-- The record of `c`, where it has one, counts `n` attempts: fewer than the limit in `pending/`, at
most the limit while its upload is awaited.  Without a count there is no record. -/
inductive Tally (limit : ℕ) (n : Option ℕ) (c : ClipId) (fs : Fs) (aw : Option ClipQueueEntry) : Prop
  | gone : At fs c .gone → NotAwaited c aw → Tally limit n c fs aw
  | pending {m : Blob} {o : OpenEntry c} : At fs c (.pending m o) → NotAwaited c aw →
      n = some o.1.attempts.toNat → o.1.attempts.toNat < limit → Tally limit n c fs aw
  | inflight {m : Blob} {o : OpenEntry c} : At fs c (.inflight m o) → aw = some o.1 →
      n = some o.1.attempts.toNat → o.1.attempts.toNat ≤ limit → Tally limit n c fs aw
  | delivered {d : ClosedEntry c} : At fs c (.delivered d) → NotAwaited c aw →
      n = some d.1.attempts.toNat → Tally limit n c fs aw

theorem Tally.attempts (h : Tally limit n c fs aw) {d : Dir} {e : ClipQueueEntry}
    (hd : d ≠ .corrupt) (he : fs.get (.queue d c .json) = some (.sidecar e)) :
    n = some e.attempts.toNat := by
  cases h with
  | gone hat _ => cases hat.entry_of_get hd he
  | pending hat _ hn _ => exact Option.some.inj (hat.entry_of_get hd he) ▸ hn
  | inflight hat _ hn _ => exact Option.some.inj (hat.entry_of_get hd he) ▸ hn
  | delivered hat _ hn => exact Option.some.inj (hat.entry_of_get hd he) ▸ hn

/-- A clip without a count is gone. -/
theorem Tally.gone_of_none (h : Tally limit none c fs aw) : At fs c .gone ∧ NotAwaited c aw := by
  cases h with
  | gone hat hna => exact ⟨hat, hna⟩
  | pending _ _ hn _ => cases hn
  | inflight _ _ hn _ => cases hn
  | delivered _ _ hn => cases hn

theorem Tally.of_sameClip (h : Tally limit n c fs aw) (hs : SameClip fs t c)
    {aw' : Option ClipQueueEntry} (hna : NotAwaited c aw → NotAwaited c aw')
    (haw : ∀ e, e.clipId = c → aw = some e → aw' = some e) : Tally limit n c t aw' := by
  cases h with
  | gone hat hn => exact .gone (hat.of_sameClip hs) (hna hn)
  | pending hat hn ha hlt => exact .pending (hat.of_sameClip hs) (hna hn) ha hlt
  | @inflight m o hat he ha hle => exact .inflight (hat.of_sameClip hs) (haw _ o.2.1 he) ha hle
  | delivered hat hn ha => exact .delivered (hat.of_sameClip hs) (hna hn) ha

theorem Tally.not_undecodable (h : Tally limit n c fs aw) {d : Dir} (hd : d ≠ .corrupt) :
    ¬ Undecodable fs (.queue d c .json) := by
  cases h with
  | gone hat _ => exact hat.not_undecodable hd
  | pending hat _ _ _ => exact hat.not_undecodable hd
  | inflight hat _ _ _ => exact hat.not_undecodable hd
  | delivered hat _ _ => exact hat.not_undecodable hd

/-- What the scan of `pending/` picks of `c` is the record in hand. -/
theorem Tally.of_picked {u : Fs} {e : ClipQueueEntry} (h : Tally limit n c fs none)
    (hn : Named fs) (hp : Picked fs u (some e)) (hc : e.clipId = c) :
    ∃ m ho, At u c (.pending m ⟨e, hc, ho⟩) ∧ n = some e.attempts.toNat ∧
      e.attempts.toNat < limit := by
  obtain ⟨s, hs⟩ := hp.entry e rfl
  obtain rfl : e.clipId = s := hn _ _ _ hs
  subst hc
  have hsame := hp.sameClip _ (h.not_undecodable (d := .pending) (by simp))
  cases h with
  | @pending m o hat _ ha hlt =>
    obtain ⟨o, hid, ho⟩ := o
    obtain rfl : o = e := Option.some.inj (hat.entry_of_get (by simp) hs)
    exact ⟨m, ho, hat.of_sameClip hsame, ha, hlt⟩
  | gone hat _ =>
    obtain ⟨m, ho, hp⟩ := hat.pending_of_get hs
    cases hp
  | inflight hat haw _ _ => cases haw
  | delivered hat _ _ =>
    obtain ⟨m, ho, hp⟩ := hat.pending_of_get hs
    cases hp

/-- The first half of an attempt counts the clip it enters. -/
theorem Tally.start {r : Except QueueError Head} {entered : List ClipId}
    (h : Tally limit n c fs none) (hn : Named fs) (hlimit : limit < 2 ^ 32)
    (hr : Runs Entering tryOnceHead (fs, []) r (t, entered)) :
    Tally limit (n.map (· + entered.count c)) c t (Head.awaiting r) := by
  have hund := h.not_undecodable (d := .pending) (by simp)
  have hother : ∀ {aw' : Option ClipQueueEntry}, NotAwaited c aw' → SameClip fs t c →
      Tally limit (n.map (· + 0)) c t aw' := by
    intro aw' hna hs
    rw [show n.map (· + 0) = n by simp]
    exact h.of_sameClip hs (fun _ => hna) fun _ _ he => by cases he
  rcases entering_tryOnceHead hr with ⟨rfl, u, o, hp, haw, hcase⟩ | ⟨u, e, m, at_, rfl, hp, hm, hcase⟩
  · -- no clip is entered; the orphan that may be dropped is another one
    have hna : NotAwaited c (Head.awaiting r) := by
      rw [haw]
      rintro e ⟨⟩
    refine hother hna ?_
    rcases hcase with rfl | ⟨e, rfl, hm, rfl⟩
    · exact hp.sameClip c hund
    · have hc : c ≠ e.clipId := by
        rintro rfl
        obtain ⟨m, ho, hat, -, -⟩ := h.of_picked hn hp rfl
        rw [hat.media (d := .pending) (by simp)] at hm
        cases hm
      exact ((hp.sameClip c hund).trans (sameClip_del hc)).trans (sameClip_del hc)
  · by_cases hc : e.clipId = c
    · -- the clip itself is entered: one more entry, one more attempt in its sidecar
      obtain ⟨m', ho, hat, rfl, hlt⟩ := h.of_picked hn hp hc
      subst hc
      obtain rfl : m' = m := Option.some.inj ((hat.media (d := .pending) (by simp)).symm.trans hm)
      have hmoved := hat.movedInflight (e := OpenEntry.started ⟨e, rfl, ho⟩ at_)
      have hcount : [e.clipId].count e.clipId = 1 := by simp
      have hattempts : (startAttempt e at_).attempts.toNat = e.attempts.toNat + 1 := by
        rw [attempts_startAttempt_toNat]
        omega
      rw [hcount, Option.map_some, ← hattempts]
      rcases hcase with ⟨haw, rfl⟩ | ⟨at', reason, haw, rfl⟩
      · exact .inflight hmoved haw rfl (by show (startAttempt e at_).attempts.toNat ≤ limit; omega)
      · have hsettled := hmoved.movedDelivered
          (e := ⟨refusedRecord (startAttempt e at_) at' reason, by simp, by simp⟩)
        refine .delivered hsettled ?_ rfl
        rw [haw]
        rintro e ⟨⟩
    · -- another clip is entered
      have hcount : [e.clipId].count c = 0 := List.count_eq_zero.mpr (by simpa using Ne.symm hc)
      have hne : c ≠ e.clipId := Ne.symm hc
      have hmoved : SameClip u (movedInflight u m (startAttempt e at_)) c := sameClip_movedInflight hne
      rw [hcount]
      rcases hcase with ⟨haw, rfl⟩ | ⟨at', reason, haw, rfl⟩
      · refine hother ?_ ((hp.sameClip c hund).trans hmoved)
        rw [haw]
        intro e' he'
        obtain rfl := Option.some.inj he'
        exact hc
      · refine hother ?_ (((hp.sameClip c hund).trans hmoved).trans (sameClip_movedDelivered hne))
        rw [haw]
        rintro e ⟨⟩

/-- The second half counts nothing, and puts the clip back only below the limit. -/
theorem Tally.finish {e : ClipQueueEntry} {at_ : DateTime}
    {result : Except ClientError ClassifyTaskPublic} (h : Tally limit n c fs (some e))
    (hbound : schedule.perClipMaxAttempts.toNat ≤ limit)
    (hr : FinishRun schedule fs e at_ result t) : Tally limit n c t none := by
  have hnone : NotAwaited c none := by
    rintro e ⟨⟩
  by_cases hc : e.clipId = c
  · subst hc
    cases h with
    | gone _ hna => exact absurd rfl (hna e rfl)
    | pending _ hna _ _ => exact absurd rfl (hna e rfl)
    | delivered _ hna _ => exact absurd rfl (hna e rfl)
    | @inflight m o hat haw ha hle =>
      obtain ⟨o, hid, ho⟩ := o
      obtain rfl : e = o := Option.some.inj haw
      have hsettle : ∀ e' : ClipQueueEntry, e'.clipId = e.clipId → e'.attempts = e.attempts →
          e'.outcome.isSome → Tally limit n e.clipId (movedDelivered fs e') none := by
        intro e' hid' ha' hout
        exact .delivered (hat.movedDelivered (e := ⟨e', hid', hout⟩)) hnone (by rw [ha, ← ha'])
      -- four of the five ways settle the clip, with the attempts it has
      cases hr with
      | accepted => exact hsettle _ rfl rfl rfl
      | undecodable => exact hsettle _ rfl rfl rfl
      | exhausted => exact hsettle _ rfl rfl rfl
      | terminal => exact hsettle _ rfl rfl rfl
      | @retried err next _ hs =>
        -- only below the limit does the schedule give a next attempt
        have hlt := attempts_lt_of_schedule hs
        have hback := hat.movedBack
          (e := ⟨retryRecord e next (errorKind err) err.status err.display, rfl, ho⟩)
        exact .pending hback hnone ha (by show e.attempts.toNat < limit; omega)
  · -- the awaited clip is another one
    have hne : c ≠ e.clipId := Ne.symm hc
    have hsame : SameClip fs t c := by
      cases hr with
      | accepted => exact sameClip_movedDelivered hne
      | undecodable => exact sameClip_movedDelivered hne
      | exhausted => exact sameClip_movedDelivered hne
      | terminal => exact sameClip_movedDelivered hne
      | retried => exact sameClip_movedBack hne
    refine h.of_sameClip hsame (fun _ => hnone) fun e' hid he' => ?_
    obtain rfl := Option.some.inj he'
    exact absurd hid hc

/-- A reconciliation while no upload is awaited touches no counted clip. -/
theorem Tally.reconcile (h : Tally limit n c fs none) (hn : Named fs)
    (hr : Reaches Nominal reconcileInflight fs t) : Tally limit n c t none := by
  have hat : ∀ p : Phase c, At fs c p → p.file .inflight .json = none → At t c p := by
    intro p hat hnone
    cases reaches_reconcileInflight hr with
    | sweep hu hw =>
      exact (hat.sameClip_of_partSwept (by simp) hu).sameClip_of_partSwept (by simp) hw
    | @loop u w l hu hw hl hloop =>
      have hatw : At w c p :=
        (hat.sameClip_of_partSwept (by simp) hu.partSwept).sameClip_of_partSwept (by simp)
          hw.partSwept
      have hnw : Named w := (hn.partSwept hu.partSwept).partSwept hw.partSwept
      exact hatw.of_sameClip (sameClip_of_reaches_reconcileLoop hl hnw
        ((hatw.sidecar (by simp)).trans hnone) hloop)
  cases h with
  | gone h hna => exact .gone (hat _ h rfl) hna
  | pending h hna ha hlt => exact .pending (hat _ h rfl) hna ha hlt
  | inflight _ haw _ _ => cases haw
  | delivered h hna ha => exact .delivered (hat _ h rfl) hna ha

/-- The count of a clip, once it has been enqueued. -/
def tallied (c : ClipId) (tr : List (WorkEvent × Worker)) : Option ℕ :=
  if enqueues c tr = 0 then none else some (entries c tr)

theorem tallied_snoc {tr : List (WorkEvent × Worker)} {x : WorkEvent × Worker}
    (hev : x.1.enqueues c = false) :
    tallied c (tr ++ [x]) = (tallied c tr).map (· + x.1.enters c) := by
  unfold tallied
  rw [enqueues_snoc, entries, entries, sinceEnqueue_snoc, hev]
  simp only [Bool.false_eq_true, if_false, Nat.add_zero]
  split_ifs <;> rfl

/-- A step without a crash that enqueues `c` at most once keeps its tally. -/
theorem Tally.step {tr : List (WorkEvent × Worker)} (hn : Named fs)
    (h : Tally limit (tallied c tr) c fs aw) (hpos : 1 ≤ limit)
    (hbound : schedule.perClipMaxAttempts.toNat ≤ limit) (hlimit : limit < 2 ^ 32)
    (hs : WorkStep schedule (.up fs aw) ev w) (hcrash : ev.isCrash = false)
    (honce : ev.enqueues c = true → enqueues c tr = 0) :
    ∃ t aw', w = .up t aw' ∧ Named t ∧ Tally limit (tallied c (tr ++ [(ev, w)])) c t aw' := by
  have hsame : ∀ {ev : WorkEvent} {w : Worker}, ev.enqueues c = false → ev.enters c = 0 →
      tallied c (tr ++ [(ev, w)]) = tallied c tr := by
    intro ev w hev henters
    rw [tallied_snoc hev, henters]
    simp
  cases hs with
  | capture fs aw name b =>
    have hclip : SameClip fs (fs.put (.source name) b) c := by
      rintro d x (rfl | rfl) <;> simp [FileMap.get_put]
    refine ⟨_, _, rfl, hn.put fun _ _ _ hp _ => (by cases hp), ?_⟩
    rw [hsame rfl rfl]
    exact h.of_sameClip hclip id fun _ _ => id
  | @enqueue _ t _ s name clipMeta r hr =>
    -- the enqueue of `c` itself starts the count, any other leaves it
    rcases runs_enqueueWithId.mp hr with ⟨-, rfl, rfl⟩ | ⟨m, len, at_, -, -, rfl, rfl⟩
    · refine ⟨_, _, rfl, hn, ?_⟩
      rw [hsame rfl rfl]
      exact h
    · have hn' : Named (enqueued fs name m (.new s clipMeta.capturedAt at_ len)) :=
        ((hn.del _).put_media _ _ _).replaceSidecar _ _
      refine ⟨_, _, rfl, hn', ?_⟩
      by_cases hc : s = c
      · subst hc
        have hzero : enqueues s tr = 0 := honce (by simp [WorkEvent.enqueues])
        have hnone : tallied s tr = none := if_pos hzero
        rw [hnone] at h
        obtain ⟨hgone, hna⟩ := h.gone_of_none
        have hat := hgone.enqueued (n := name) (m := m)
          (e := ⟨.new s clipMeta.capturedAt at_ len, rfl, rfl⟩)
        refine .pending hat hna ?_ hpos
        unfold tallied
        rw [enqueues_snoc, entries, sinceEnqueue_snoc]
        simp [WorkEvent.enqueues, ClipQueueEntry.new]
      · rw [hsame (by simp [WorkEvent.enqueues, hc]) rfl]
        exact h.of_sameClip (sameClip_enqueued fun heq => hc heq.symm) id fun _ _ => id
  | @start _ t r entered hr =>
    have hrun := runs_tryOnceHead (runs_of_entering hr)
    refine ⟨_, _, rfl, ?_, ?_⟩
    · exact (reaches_tryOnceHead (runs_of_entering hr).reaches).named hn
    · rw [tallied_snoc rfl]
      exact h.start hn hlimit hr
  | @finish _ t e result r hr =>
    refine ⟨_, _, rfl, (reaches_tryOnceFinish hr.reaches).confined.named hn, ?_⟩
    rw [hsame rfl rfl]
    rw [tryOnceFinish_eq, runs_bind] at hr
    obtain ⟨at_, u, hnow, hr⟩ := hr
    obtain rfl : u = fs := runs_now.mp hnow
    exact h.finish hbound (runs_finishAt.mp hr).2
  | reconcile hr =>
    refine ⟨_, _, rfl, hn.stop_reconcileInflight hr.reaches, ?_⟩
    rw [hsame rfl rfl]
    exact h.reconcile hn hr.reaches
  | crashEnqueue => cases hcrash
    -- none of the crashes is a step of a run without them
  | crashStart => cases hcrash
  | crashFinish => cases hcrash
  | crashReconcile => cases hcrash

end Tally

end Perchstation
