import Perchstation.Attempts.Counts
import Perchstation.Delivery.AttemptRules

/-!
# Limit — how many uploads of a clip are started

An uploadable sidecar of a clip counts at least the uploads started since the enqueue, less the
crashes, and while one is left the limit has not been reached (`Ledger`).
-/

namespace Perchstation

open Resumption QueueStore

section Limit

variable {schedule : BackoffSchedule} {limit k n : ℕ} {c : ClipId} {fs t : Fs}
  {aw : Option ClipQueueEntry} {w w' : Worker} {ev : WorkEvent}

/-- The accounts of `c`, after `n` uploads and `k` crashes. -/
structure Ledger (limit n k : ℕ) (c : ClipId) (fs : Fs) (aw : Option ClipQueueEntry) : Prop where
  named : Named fs
  total : n ≤ limit + k
  floor : AllUploadable (fun e => n ≤ e.attempts.toNat + k) fs c
  held : ∀ e, aw = some e → e.clipId = c → n ≤ e.attempts.toNat + k
  /-- A sidecar in `pending/` may start a further upload. -/
  waiting : (∃ e, fs.get (.queue .pending c .json) = some (.sidecar e)) → n + 1 ≤ limit + k
  /-- So may one that a reconciliation takes back. -/
  left : NotAwaited c aw → (∃ e, Uploadable fs c e) → n + 1 ≤ limit + k

/-- What a crash leaves. -/
structure Ledger.Down (limit n k : ℕ) (c : ClipId) (fs : Fs) : Prop where
  named : Named fs
  spare : n + 1 ≤ limit + k
  floor : AllUploadable (fun e => n ≤ e.attempts.toNat + k) fs c

/-- The accounts of a worker. -/
def Worker.Balanced (limit n k : ℕ) (c : ClipId) : Worker → Prop
  | .up fs aw => Ledger limit n k c fs aw
  | .down fs => Ledger.Down limit n k c fs

/-- The sidecars of `c` in `pending/` and `inflight/` are among those of `fs`. -/
def NoNewSidecar (fs t : Fs) (c : ClipId) : Prop :=
  ∀ d e, d = .pending ∨ d = .inflight → t.get (.queue d c .json) = some (.sidecar e) →
    fs.get (.queue d c .json) = some (.sidecar e)

theorem NoNewSidecar.of_sameClip (h : SameClip fs t c) : NoNewSidecar fs t c :=
  fun d _ _ he => (h.sidecar d).symm.trans he

theorem NoNewSidecar.of_picked {o : Option ClipQueueEntry} (h : Picked fs t o) :
    NoNewSidecar fs t c :=
  fun d e _ he => h.subset d c e he

theorem NoNewSidecar.trans {u : Fs} (h : NoNewSidecar fs t c) (h' : NoNewSidecar t u c) :
    NoNewSidecar fs u c :=
  fun d e hd he => h d e hd (h' d e hd he)

theorem NoNewSidecar.del {p : Path} : NoNewSidecar fs (fs.del p) c := by
  intro d e _ he
  rw [FileMap.get_del] at he
  split_ifs at he
  exact he

theorem NoNewSidecar.uploadable {e : ClipQueueEntry} (h : NoNewSidecar fs t c)
    (he : Uploadable t c e) : Uploadable fs c e := by
  rcases he with he | ⟨he, hout⟩
  · exact Or.inl (h _ e (Or.inl rfl) he)
  · exact Or.inr ⟨h _ e (Or.inr rfl) he, hout⟩

theorem get_movedDelivered_sidecar {d : Dir} {e : ClipQueueEntry} (hd : d = .pending ∨ d = .inflight) :
    (movedDelivered fs e).get (.queue d c .json) =
      if d = .inflight ∧ c = e.clipId then none else fs.get (.queue d c .json) := by
  rcases hd with rfl | rfl <;> by_cases hc : c = e.clipId <;>
    simp [movedDelivered, FileMap.get_put, FileMap.get_del, get_replaceSidecar, hc]

theorem get_movedInflight_sidecar {d : Dir} {e : ClipQueueEntry} {m : Blob} :
    (movedInflight fs m e).get (.queue d c .json) =
      if d = .pending ∧ c = e.clipId then none
      else if d = .inflight ∧ c = e.clipId then some (.sidecar e)
      else fs.get (.queue d c .json) := by
  cases d <;> by_cases hc : c = e.clipId <;>
    simp [movedInflight, FileMap.get_del, get_replaceSidecar, get_moveMedia, hc]

theorem NoNewSidecar.movedDelivered {e : ClipQueueEntry} :
    NoNewSidecar fs (movedDelivered fs e) c := by
  intro d e' hd he
  rw [get_movedDelivered_sidecar hd] at he
  split_ifs at he
  exact he

/-- A clip that gets no new sidecar keeps its accounts. -/
theorem Ledger.of_noNewSidecar {aw' : Option ClipQueueEntry} (h : Ledger limit n k c fs aw)
    (hn : Named t) (hs : NoNewSidecar fs t c) (haw : NotAwaited c aw' → NotAwaited c aw)
    (hheld : ∀ e, aw' = some e → e.clipId = c → n ≤ e.attempts.toNat + k) :
    Ledger limit n k c t aw' where
  named := hn
  total := h.total
  floor := fun e he => h.floor e (hs.uploadable he)
  held := hheld
  waiting := by
    rintro ⟨e, he⟩
    exact h.waiting ⟨e, hs _ e (Or.inl rfl) he⟩
  left := by
    rintro hna ⟨e, he⟩
    exact h.left (haw hna) ⟨e, hs.uploadable he⟩

/-- A crash uses up the upload it may have interrupted. -/
theorem Ledger.crash (h : Ledger limit n k c fs aw) (hn : Named t)
    (hf : AllUploadable (fun e => n ≤ e.attempts.toNat + k) t c) :
    Ledger.Down limit n (k + 1) c t where
  named := hn
  spare := by
    have htotal := h.total
    omega
  floor := hf.mono fun e he => by omega

theorem Ledger.Down.crash (h : Ledger.Down limit n k c fs) (hn : Named t)
    (hf : AllUploadable (fun e => n ≤ e.attempts.toNat + k) t c) :
    Ledger.Down limit n (k + 1) c t where
  named := hn
  spare := by
    have hspare := h.spare
    omega
  floor := hf.mono fun e he => by omega

theorem requeued_floor {e : ClipQueueEntry} (h : n ≤ e.attempts.toNat + k) :
    n ≤ (requeued e).attempts.toNat + k := h

/-- A start after a crash. -/
theorem Ledger.Down.boot (h : Ledger.Down limit n k c fs)
    (hr : Reaches Nominal reconcileInflight fs t) : Ledger limit n k c t none where
  named := h.named.stop_reconcileInflight hr
  total := by
    have hspare := h.spare
    omega
  floor := h.floor.stop_reconcileInflight h.named (fun _ => requeued_floor) hr
  held := by
    rintro e ⟨⟩
  waiting := fun _ => h.spare
  left := fun _ _ => h.spare

/-- A reconciliation brings back no clip that has no uploadable sidecar. -/
theorem Ledger.reconcile (h : Ledger limit n k c fs none)
    (hr : Reaches Nominal reconcileInflight fs t) : Ledger limit n k c t none := by
  have hnone : NotAwaited c none := by
    rintro e ⟨⟩
  have hleft : (∃ e, Uploadable t c e) → n + 1 ≤ limit + k := by
    rintro ⟨e, he⟩
    by_contra hlt
    have hno : AllUploadable (fun _ => False) fs c := fun e he => hlt (h.left hnone ⟨e, he⟩)
    exact hno.stop_reconcileInflight h.named (fun _ => id) hr e he
  refine ⟨h.named.stop_reconcileInflight hr, h.total,
    h.floor.stop_reconcileInflight h.named (fun _ => requeued_floor) hr, ?_, ?_, fun _ => hleft⟩
  · rintro e ⟨⟩
  · rintro ⟨e, he⟩
    exact hleft ⟨e, Or.inl he⟩

theorem Ledger.capture (h : Ledger limit n k c fs aw) (name : String) (b : Blob) :
    Ledger limit n k c (fs.put (.source name) b) aw := by
  have hsame : SameClip fs (fs.put (.source name) b) c := by
    rintro d x (rfl | rfl) <;> simp [FileMap.get_put]
  exact h.of_noNewSidecar (h.named.put fun _ _ _ hp _ => by cases hp) (.of_sameClip hsame) id h.held

/-- An enqueued clip has its whole limit before it. -/
theorem Ledger.enqueued (h : Ledger limit n k c fs aw) (m : Blob) (name : String)
    (e : ClipQueueEntry) (hlimit : 1 ≤ limit) :
    Ledger limit (if e.clipId = c then 0 else n) k c (enqueued fs name m e) aw := by
  have hn : Named (Perchstation.enqueued fs name m e) :=
    ((h.named.del _).put_media _ _ _).replaceSidecar _ _
  by_cases hc : e.clipId = c
  · rw [if_pos hc]
    exact ⟨hn, by omega, fun _ _ => Nat.zero_le _, fun _ _ _ => Nat.zero_le _, fun _ => by omega,
      fun _ _ => by omega⟩
  · rw [if_neg hc]
    have hsame : SameClip fs (Perchstation.enqueued fs name m e) c :=
      sameClip_enqueued fun heq => hc heq.symm
    exact h.of_noNewSidecar hn (.of_sameClip hsame) id h.held

/-- The first half of an attempt starts an upload within the limit, or none. -/
theorem Ledger.start {r : Except QueueError Head} {entered : List ClipId}
    (h : Ledger limit n k c fs none) (hlimit : limit < 2 ^ 32) (hr : HeadRun fs r t) :
    Ledger limit (n + (WorkEvent.started r entered).uploads c) k c t (Head.awaiting r) := by
  have hnone : ∀ {aw' : Option ClipQueueEntry}, NotAwaited c aw' → NotAwaited c none := by
    rintro aw' - e ⟨⟩
  cases hr with
  | idle hp =>
    exact h.of_noNewSidecar (h.named.picked hp) (.of_picked hp) hnone (by rintro e ⟨⟩)
  | @missing u e hp hm =>
    -- the orphan is dropped; no sidecar is new
    exact h.of_noNewSidecar (((h.named.picked hp).del _).del _)
      (((NoNewSidecar.of_picked hp).trans .del).trans .del) hnone (by rintro e ⟨⟩)
  | @refused u e m len at_ at' reason hp hm hlen hreason =>
    -- the clip is settled without an upload
    have hn := (h.named.picked hp).movedInflight (m := m) (e := startAttempt e at_)
    refine h.of_noNewSidecar hn.movedDelivered ?_ hnone (by rintro e ⟨⟩)
    intro d e' hd he'
    refine hp.subset d c e' ?_
    rw [get_movedDelivered_sidecar hd, get_movedInflight_sidecar] at he'
    simp only [refusedRecord_clipId, startAttempt_clipId] at he'
    by_cases hc : c = e.clipId
    · rcases hd with rfl | rfl <;> simp [hc] at he'
    · simpa [hc] using he'
  | @upload u e m at_ hp hm =>
    have hn := (h.named.picked hp).movedInflight (m := m) (e := startAttempt e at_)
    by_cases hc : e.clipId = c
    · -- the clip's own upload takes one of the attempts left
      obtain ⟨s, hs⟩ := hp.entry e rfl
      obtain rfl : e.clipId = s := h.named _ _ _ hs
      subst hc
      have hroom : n + 1 ≤ limit + k := h.waiting ⟨e, hs⟩
      have hfloor : n ≤ e.attempts.toNat + k := h.floor e (Or.inl hs)
      have hattempts := attempts_startAttempt_toNat e at_
      have hnext : n + 1 ≤ (startAttempt e at_).attempts.toNat + k := by omega
      have hcount : (WorkEvent.started (.ok (.upload (startAttempt e at_))) entered).uploads
          e.clipId = 1 := if_pos rfl
      rw [hcount]
      refine ⟨hn, hroom, ?_, ?_, ?_, ?_⟩
      · rintro e' (he' | ⟨he', -⟩)
        · rw [get_movedInflight_sidecar, if_pos ⟨rfl, rfl⟩] at he'
          cases he'
        · rw [get_movedInflight_sidecar, if_neg (by simp), if_pos ⟨rfl, rfl⟩] at he'
          obtain rfl := Blob.sidecar.inj (Option.some.inj he')
          exact hnext
      · rintro e' he' -
        obtain rfl := Option.some.inj he'
        exact hnext
      · rintro ⟨e', he'⟩
        rw [get_movedInflight_sidecar, if_pos ⟨rfl, rfl⟩] at he'
        cases he'
      · exact fun hna _ => absurd rfl (hna (startAttempt e at_) rfl)
    · -- the upload is of another clip
      have hcount : (WorkEvent.started (.ok (.upload (startAttempt e at_))) entered).uploads c = 0 :=
        if_neg hc
      rw [hcount]
      have hsame : SameClip u (movedInflight u m (startAttempt e at_)) c :=
        sameClip_movedInflight fun heq => hc heq.symm
      refine h.of_noNewSidecar hn ((NoNewSidecar.of_picked hp).trans (.of_sameClip hsame)) hnone ?_
      intro e' he' hid
      obtain rfl := Option.some.inj he'
      exact absurd hid hc

/-- The second half puts a clip back only if its limit leaves it one more attempt. -/
theorem Ledger.finish {e : ClipQueueEntry} {at_ : DateTime}
    {result : Except ClientError ClassifyTaskPublic} (h : Ledger limit n k c fs (some e))
    (hlimit : schedule.perClipMaxAttempts.toNat ≤ limit)
    (hr : FinishRun schedule fs e at_ result t) : Ledger limit n k c t none := by
  -- a settled clip has no sidecar left to upload
  have hsettle : ∀ e' : ClipQueueEntry, e'.clipId = e.clipId →
      Ledger limit n k c (movedDelivered fs e') none := by
    intro e' hid
    have hs : NoNewSidecar fs (movedDelivered fs e') c := .movedDelivered
    refine ⟨h.named.movedDelivered, h.total, fun e'' he => h.floor e'' (hs.uploadable he),
      by rintro e ⟨⟩, ?_, ?_⟩
    · rintro ⟨e'', he⟩
      exact h.waiting ⟨e'', hs _ _ (Or.inl rfl) he⟩
    · rintro - ⟨e'', he⟩
      by_cases hc : c = e.clipId
      · rcases he with he | ⟨he, -⟩
        · exact h.waiting ⟨e'', hs _ _ (Or.inl rfl) he⟩
        · rw [get_movedDelivered_sidecar (Or.inr rfl), hid, if_pos ⟨rfl, hc⟩] at he
          cases he
      · refine h.left ?_ ⟨e'', hs.uploadable he⟩
        rintro e₀ he₀ rfl
        obtain rfl := Option.some.inj he₀
        exact hc rfl
  cases hr with
  | accepted => exact hsettle _ rfl
  | undecodable => exact hsettle _ rfl
  | exhausted => exact hsettle _ rfl
  | terminal => exact hsettle _ rfl
  | @retried err next _ hs =>
    -- only below the limit is the clip put back
    have hlt := attempts_lt_of_schedule hs
    have hn := h.named.movedBack (e := retryRecord e next (errorKind err) err.status err.display)
    by_cases hc : e.clipId = c
    · have hheld := h.held e rfl hc
      have hroom : n + 1 ≤ limit + k := by omega
      refine ⟨hn, h.total, h.floor.movedBack fun _ => hheld, by rintro e ⟨⟩, fun _ => hroom,
        fun _ _ => hroom⟩
    · have hsame : SameClip fs (movedBack fs (retryRecord e next (errorKind err) err.status
          err.display)) c := sameClip_movedBack fun heq => hc heq.symm
      refine h.of_noNewSidecar hn (.of_sameClip hsame) ?_ (by rintro e ⟨⟩)
      rintro - e₀ he₀ hid
      obtain rfl := Option.some.inj he₀
      exact hc hid

/-! ### Crashes -/

theorem Ledger.crashEnqueue {s : ClipId} {name : String} {clipMeta : ClipMeta}
    (h : Ledger limit n k c fs aw) (hlimit : 1 ≤ limit)
    (hr : Reaches Nominal (enqueueWithId s (.source name) clipMeta) fs t) :
    Ledger.Down limit (if (WorkEvent.crashed
        (if t.get (.queue .pending s .json) = fs.get (.queue .pending s .json) then none
          else some s)).enqueues c then 0 else n) (k + 1) c t := by
  have hkept : (∀ d c, t.get (.queue d c .json) = fs.get (.queue d c .json)) →
      Ledger.Down limit n (k + 1) c t := by
    intro hsame
    refine h.crash ?_ (h.floor.of_subset fun d e he => (hsame d c).symm.trans he)
    exact h.named.of_subset fun d c e he => (hsame d c).symm.trans he
  rcases sidecars_of_reaches_enqueueWithId hr with hsame | ⟨m, at_, len, rfl⟩
  · rw [if_pos (hsame _ _)]
    exact hkept hsame
  · have hget : ∀ d c', c' ≠ s ∨ d ≠ .pending → (Perchstation.enqueued fs name m
        (.new s clipMeta.capturedAt at_ len)).get (.queue d c' .json) =
          fs.get (.queue d c' .json) := by
      rintro d c' (hc | hd) <;> simp [get_enqueued, ClipQueueEntry.new, *]
    by_cases hP : (Perchstation.enqueued fs name m (.new s clipMeta.capturedAt at_ len)).get
        (.queue .pending s .json) = fs.get (.queue .pending s .json)
    · rw [if_pos hP]
      refine hkept fun d c' => ?_
      by_cases hc : c' = s ∧ d = .pending
      · obtain ⟨rfl, rfl⟩ := hc
        exact hP
      · exact hget d c' (by tauto)
    · rw [if_neg hP]
      have hdone := h.enqueued m name (.new s clipMeta.capturedAt at_ len) hlimit
      have hif : (if (WorkEvent.crashed (some s)).enqueues c then 0 else n) =
          if s = c then 0 else n := by simp [WorkEvent.enqueues]
      rw [hif]
      exact hdone.crash hdone.named hdone.floor

theorem Ledger.crashStart (h : Ledger limit n k c fs none) (hlimit : limit < 2 ^ 32)
    (hr : HeadStop fs t) : Ledger.Down limit n (k + 1) c t := by
  have hstarted : ∀ {u : Fs} {e : ClipQueueEntry} {at_ : DateTime}, Picked fs u (some e) →
      e.clipId = c → n ≤ (startAttempt e at_).attempts.toNat + k := by
    intro u e at_ hp hc
    obtain ⟨s, hs⟩ := hp.entry e rfl
    obtain rfl : e.clipId = s := h.named _ _ _ hs
    subst hc
    have hroom : n + 1 ≤ limit + k := h.waiting ⟨e, hs⟩
    have hfloor : n ≤ e.attempts.toNat + k := h.floor e (Or.inl hs)
    have hattempts := attempts_startAttempt_toNat e at_
    omega
  refine h.crash (hr.named h.named) ?_
  cases hr with
  | scan hp => exact h.floor.picked hp
  | move hp hr => exact (h.floor.picked hp).stop_transitionInflight (hstarted hp) hr
  | drop hp _ hr => exact (h.floor.picked hp).stop_quarantineOrphan hr
  | refuse hp hw _ hout hr =>
    have hmoved := (h.floor.picked hp).stop_transitionInflight (hstarted hp) hw.reaches
    exact hmoved.stop_transitionDelivered hout hr

/-- A crash in the second half writes back the attempts of the record in hand. -/
theorem Ledger.crashFinish {e : ClipQueueEntry} {result : Except ClientError ClassifyTaskPublic}
    (h : Ledger limit n k c fs (some e))
    (hr : Reaches Nominal (tryOnceFinish schedule e result) fs t) :
    Ledger.Down limit n (k + 1) c t := by
  refine h.crash ((reaches_tryOnceFinish hr).confined.named h.named) ?_
  rw [tryOnceFinish_eq, reaches_bind] at hr
  rcases hr with hr | ⟨at_, w, hw, hr⟩
  · have hsame : t = fs := (reaches_now.mp hr).elim id fun ⟨_, hv⟩ => hv
    exact hsame ▸ h.floor
  · obtain rfl : w = fs := runs_now.mp hw
    unfold finishAt at hr
    split at hr
    · exact h.floor.stop_transitionDelivered (by rw [deliveredRecord_outcome]; rfl) hr
    · exact h.floor.stop_transitionDelivered (by rw [undecodableRecord_outcome]; rfl) hr
    · split at hr
      · exact h.floor.stop_transitionDelivered (by rw [undeliverableRecord_outcome]; rfl) hr
      · split at hr
        · exact reaches_abort.mp hr ▸ h.floor
        · exact h.floor.stop_transitionBackToPending (e := retryRecord e _ _ _ _)
            (fun hc => h.held e rfl hc) hr
        · simp only [markAttemptsExhausted, markUndeliverable, reaches_bind, reaches_now, runs_now,
            Nominal] at hr
          rcases hr with (hr | ⟨_, hr⟩) | ⟨at', _, rfl, hr⟩
          · exact hr ▸ h.floor
          · exact hr ▸ h.floor
          · exact h.floor.stop_transitionDelivered (by rw [undeliverableRecord_outcome]; rfl) hr

/-! ### Runs -/

theorem Worker.Balanced.step (h : w.Balanced limit n k c) (hpos : 1 ≤ limit)
    (hbound : schedule.perClipMaxAttempts.toNat ≤ limit) (hlimit : limit < 2 ^ 32)
    (hs : WorkStep schedule w ev w') :
    w'.Balanced limit (if ev.enqueues c then 0 else n + ev.uploads c)
      (k + if ev.isCrash then 1 else 0) c := by
  cases hs with
  | capture fs aw name b => exact Ledger.capture h name b
  | @enqueue fs t aw s name clipMeta r hr =>
    rcases runs_enqueueWithId.mp hr with ⟨-, rfl, rfl⟩ | ⟨m, len, at_, -, -, rfl, rfl⟩
    · exact h
    · have hdone := Ledger.enqueued h m name (.new s clipMeta.capturedAt at_ len) hpos
      have hid : (ClipQueueEntry.new s clipMeta.capturedAt at_ len).clipId = s := rfl
      rw [hid] at hdone
      simpa [WorkEvent.enqueues, WorkEvent.uploads, WorkEvent.isCrash, Worker.Balanced] using hdone
  | start hr => exact Ledger.start h hlimit (runs_tryOnceHead (runs_of_entering hr))
  | @finish fs t e result r hr =>
    rw [tryOnceFinish_eq, runs_bind] at hr
    obtain ⟨at_, u, hnow, hr⟩ := hr
    obtain rfl : u = fs := runs_now.mp hnow
    exact Ledger.finish h hbound (runs_finishAt.mp hr).2
  | reconcile hr => exact Ledger.reconcile h hr.reaches
  | crashEnqueue hr => exact Ledger.crashEnqueue h hpos hr
  | crashStart hr => exact Ledger.crashStart h hlimit (reaches_tryOnceHead hr)
  | crashFinish hr => exact Ledger.crashFinish h hr
  | crashReconcile hr =>
    exact Ledger.crash h (h.named.stop_reconcileInflight hr)
      (h.floor.stop_reconcileInflight h.named (fun _ => requeued_floor) hr)
  | crashBoot hr =>
    exact Ledger.Down.crash h (h.named.stop_reconcileInflight hr)
      (h.floor.stop_reconcileInflight h.named (fun _ => requeued_floor) hr)
  | boot hr => exact Ledger.Down.boot h hr.reaches

end Limit

end Perchstation
