import Perchstation.Queue.StopRules
import Perchstation.Station

/-!
# Failure — a transition in which one file-system call fails

`transition_inflight` and `transition_back_to_pending` are run with exactly one failing request, any
of theirs, and what they leave is followed through every later sequence of picks, transitions and
reconciliations in which nothing fails.
-/

namespace Perchstation

open Resumption QueueStore

variable {fs t u : Fs} {c : ClipId} {d : Dir} {e : ClipQueueEntry} {m : Blob} {at_ : DateTime}
  {r : Req}

/-! ## One failing request -/

/-- The requests of `writeSidecarAtomic` for the sidecar of `c` in `d`. -/
def WritesSidecar (d : Dir) (c : ClipId) (e : ClipQueueEntry) (r : Req) : Prop :=
  r = .write (.queue d c .jsonTmp) (.sidecar e) ∨
    r = .rename (.queue d c .jsonTmp) (.queue d c .json)

/-- A failing sidecar write leaves the old sidecar, and perhaps a temporary with any contents. -/
theorem runsOnce_writeSidecarAtomic {v : Except QueueError Unit}
    (h : RunsOnce Nominal (FaultyAt r) (writeSidecarAtomic (.queue d c .json) e) fs v t) :
    (∃ err, v = .error err) ∧ WritesSidecar d c e r ∧
      (t = fs ∨ ∃ b, t = fs.put (.queue d c .jsonTmp) b) := by
  rw [writeSidecarAtomic, Path.withExtension, runsOnce_bind] at h
  rcases h with ⟨w, u, hbad, h⟩ | ⟨w, u, hok, h⟩
  · obtain ⟨rfl, ⟨err, rfl⟩, hu⟩ := runsOnce_write.mp hbad
    obtain ⟨rfl, rfl⟩ := h
    exact ⟨⟨_, rfl⟩, Or.inl rfl, hu⟩
  · obtain ⟨rfl, rfl⟩ := runs_write.mp hok
    dsimp only at h
    rw [runsOnce_bind] at h
    rcases h with ⟨w, u, hbad, h⟩ | ⟨w, u, hok, h⟩
    · obtain ⟨rfl, ⟨err, rfl⟩, rfl⟩ := runsOnce_rename.mp hbad
      obtain ⟨rfl, rfl⟩ := h
      exact ⟨⟨_, rfl⟩, Or.inr rfl, Or.inr ⟨_, rfl⟩⟩
    · cases w <;> exact h.elim

theorem runsOnce_removeIfExists {p : Path} {v : Except QueueError Unit}
    (h : RunsOnce Nominal (FaultyAt r) (removeIfExists p) fs v t) : r = .removeFile p ∧ t = fs := by
  rw [removeIfExists, runsOnce_bind] at h
  rcases h with ⟨w, u, hbad, h⟩ | ⟨w, u, hok, h⟩
  · obtain ⟨hr, ⟨err, rfl⟩, rfl⟩ := runsOnce_removeFile.mp hbad
    cases err <;> exact ⟨hr.symm, h.2⟩
  · cases w with
    | ok => exact h.elim
    | error err => cases err <;> exact h.elim

/-- `transition_inflight` fails before the media is moved, with the media moved back, or after the
sidecar is in place. -/
theorem runsOnce_transitionInflight {err : QueueError}
    (hm : fs.get (.queue .pending e.clipId .mp4) = some m)
    (h : RunsOnce Nominal (FaultyAt r) (transitionInflight e at_) fs (.error err) t) :
    t = fs ∨
      ∃ u, u = moveMedia fs .pending .inflight e.clipId m ∧
        ((∃ w, (w = u ∨ ∃ b, w = u.put (.queue .inflight e.clipId .jsonTmp) b) ∧
          t = moveMedia w .inflight .pending e.clipId m) ∨
        t = replaceSidecar u .inflight e.clipId (startAttempt e at_)) := by
  rw [transitionInflight, runsOnce_bind] at h
  rcases h with ⟨v, u, hbad, h⟩ | ⟨v, u, hok, h⟩
  · obtain ⟨-, ⟨err', rfl⟩, rfl⟩ := runsOnce_rename.mp hbad
    cases err' <;> exact Or.inl h.2
  · simp only [runs_rename, Nominal, hm] at hok
    obtain ⟨rfl, rfl⟩ := hok
    refine Or.inr ⟨_, rfl, ?_⟩
    dsimp only at h
    rw [runsOnce_bind] at h
    rcases h with ⟨v, w, hbad, h⟩ | ⟨v, w, hok, h⟩
    · obtain ⟨⟨err', rfl⟩, -, hw⟩ := runsOnce_writeSidecarAtomic hbad
      left
      refine ⟨w, hw, ?_⟩
      have hmedia : w.get (.queue .inflight e.clipId .mp4) = some m := by
        rcases hw with rfl | ⟨b, rfl⟩ <;> simp [FileMap.get_put]
      simp only [runs_bind, runs_rename, Nominal, hmedia] at h
      obtain ⟨_, _, ⟨rfl, rfl⟩, -, rfl⟩ := h
      rfl
    · obtain ⟨rfl, rfl⟩ := runs_writeSidecarAtomic.mp hok
      right
      dsimp only at h
      rw [runsOnce_bind] at h
      rcases h with ⟨v, w, hbad, h⟩ | ⟨v, w, hok, h⟩
      · obtain ⟨-, hw⟩ := runsOnce_removeIfExists hbad
        cases v <;> exact h.2.trans hw
      · cases v <;> exact h.elim

/-- A failing rename leaves the media where it is; a failing existence check is not noticed. -/
theorem runsOnce_returnMedia {v : Except QueueError Unit}
    (hm : fs.get (.queue .inflight c .mp4) = some m)
    (h : RunsOnce Nominal (FaultyAt r) (returnMedia (.queue .inflight c .mp4)
      (.queue .pending c .mp4)) fs v t) :
    t = fs ∧ (v = .ok () ∨
      (∃ err, v = .error err) ∧ r = .rename (.queue .inflight c .mp4) (.queue .pending c .mp4)) := by
  rw [returnMedia, runsOnce_bind] at h
  rcases h with ⟨w, u, hbad, h⟩ | ⟨w, u, hok, h⟩
  · obtain ⟨-, rfl, rfl⟩ := runsOnce_fileExists.mp hbad
    obtain ⟨rfl, rfl⟩ := h
    exact ⟨rfl, Or.inl rfl⟩
  · obtain ⟨rfl, rfl⟩ := runs_fileExists.mp hok
    simp only [hm, Option.isSome_some, if_true, runsOnce_bind] at h
    rcases h with ⟨w, u, hbad, h⟩ | ⟨w, u, hok, h⟩
    · obtain ⟨hr, ⟨err, rfl⟩, rfl⟩ := runsOnce_rename.mp hbad
      obtain ⟨rfl, rfl⟩ := h
      exact ⟨rfl, Or.inr ⟨⟨_, rfl⟩, hr.symm⟩⟩
    · cases w <;> exact h.elim

/-- `transition_back_to_pending` fails before the media is moved, at the sidecar write, or after it. -/
theorem runsOnce_transitionBackToPending {err : QueueError}
    (hm : fs.get (.queue .inflight e.clipId .mp4) = some m)
    (h : RunsOnce Nominal (FaultyAt r) (transitionBackToPending e) fs (.error err) t) :
    (t = fs ∧ ¬ WritesSidecar .pending e.clipId e r) ∨
      ∃ u, u = moveMedia fs .inflight .pending e.clipId m ∧
        ((WritesSidecar .pending e.clipId e r ∧
          (t = u ∨ ∃ b, t = u.put (.queue .pending e.clipId .jsonTmp) b)) ∨
        (t = replaceSidecar u .pending e.clipId e ∧ ¬ WritesSidecar .pending e.clipId e r)) := by
  rw [transitionBackToPending, runsOnce_bind] at h
  rcases h with ⟨v, u, hbad, h⟩ | ⟨v, u, hok, h⟩
  · obtain ⟨rfl, rfl | ⟨⟨err', rfl⟩, hr⟩⟩ := runsOnce_returnMedia hm hbad
    · -- the media is taken to be absent, and the rest succeeds
      simp only [runs_bind, runs_writeSidecarAtomic, and_assoc, exists_and_left, exists_eq_left,
        runs_removeIfExists] at h
      cases h.1
    · obtain ⟨-, rfl⟩ := h
      refine Or.inl ⟨rfl, ?_⟩
      rintro (hw | hw) <;> rw [hr] at hw <;> simp at hw
  · obtain ⟨rfl, rfl⟩ := runs_returnMedia.mp hok
    have hmoved : mediaReturned fs e.clipId = moveMedia fs .inflight .pending e.clipId m := by
      rw [mediaReturned, hm]
    rw [hmoved] at h
    refine Or.inr ⟨_, rfl, ?_⟩
    dsimp only at h
    rw [runsOnce_bind] at h
    rcases h with ⟨v, w, hbad, h⟩ | ⟨v, w, hok, h⟩
    · obtain ⟨⟨err', rfl⟩, hr, hw⟩ := runsOnce_writeSidecarAtomic hbad
      obtain ⟨-, rfl⟩ := h
      exact Or.inl ⟨hr, hw⟩
    · obtain ⟨rfl, rfl⟩ := runs_writeSidecarAtomic.mp hok
      obtain ⟨hr, ht⟩ := runsOnce_removeIfExists h
      refine Or.inr ⟨ht, ?_⟩
      rintro (hw | hw) <;> rw [hr] at hw <;> simp at hw

/-! ## What the caller finds -/

/-- The clip's media is in exactly one of `pending/` and `inflight/`, a decodable sidecar beside it. -/
def Complete (fs : Fs) (c : ClipId) : Prop :=
  ∃ d d', ((d = .pending ∧ d' = .inflight) ∨ (d = .inflight ∧ d' = .pending)) ∧
    (∃ m, fs.get (.queue d c .mp4) = some m) ∧ fs.get (.queue d' c .mp4) = none ∧
    ∃ e, fs.get (.queue d c .json) = some (.sidecar e)

theorem KeptIn.complete {d' : Dir} (h : KeptIn fs d d' c)
    (hd : (d = .pending ∧ d' = .inflight) ∨ (d = .inflight ∧ d' = .pending)) : Complete fs c := by
  obtain ⟨e, he, -⟩ := h.sidecar
  exact ⟨d, d', hd, h.media, h.noMedia, e, he⟩

theorem Kept.complete (h : Kept fs c) : Complete fs c := by
  rcases h with h | h
  · exact h.complete (Or.inl ⟨rfl, rfl⟩)
  · exact h.complete (Or.inr ⟨rfl, rfl⟩)

theorem not_complete_of_apart (hm : ∃ m, fs.get (.queue d c .mp4) = some m)
    (hj : fs.get (.queue d c .json) = none) (hd : d = .pending ∨ d = .inflight) :
    ¬ Complete fs c := by
  obtain ⟨m, hm⟩ := hm
  rintro ⟨a, b, hab, -, hb, e, he⟩
  have hcase : d = a ∨ d = b := by
    rcases hab with ⟨rfl, rfl⟩ | ⟨rfl, rfl⟩
    · exact hd
    · exact hd.symm
  rcases hcase with rfl | rfl
  · rw [hj] at he
    cases he
  · rw [hb] at hm
    cases hm

/-! ## What may happen later -/

/-- A later call that succeeds. -/
inductive Call
  | picked (entry : Option ClipQueueEntry)
  | toInflight (entry : ClipQueueEntry)
  | toPending (entry : ClipQueueEntry)
  | toDelivered (entry : ClipQueueEntry)
  | reconciled (entries : List ClipQueueEntry)

/-- The later calls, with entries as their callers pass them: only a record with its outcome goes to
`delivered/`. -/
inductive Later (fs : Fs) : Call → Fs → Prop
  | pick {t : Fs} {at_ : DateTime} {o : Option ClipQueueEntry} :
      Runs Nominal (pickOldestPending at_) fs (.ok o) t → Later fs (.picked o) t
  | inflight {t : Fs} {e e' : ClipQueueEntry} {at_ : DateTime} : e.outcome = none →
      Runs Nominal (transitionInflight e at_) fs (.ok e') t → Later fs (.toInflight e') t
  | back {t : Fs} {e : ClipQueueEntry} : e.outcome = none →
      Runs Nominal (transitionBackToPending e) fs (.ok ()) t → Later fs (.toPending e) t
  | deliver {t : Fs} {e : ClipQueueEntry} : e.outcome.isSome →
      Runs Nominal (transitionDelivered e) fs (.ok ()) t → Later fs (.toDelivered e) t
  | reconcile {t : Fs} {entries : List ClipQueueEntry} :
      Runs Nominal reconcileInflight fs (.ok entries) t → Later fs (.reconciled entries) t

theorem Later.named {call : Call} (h : Later fs call t) (hn : Named fs) : Named t := by
  cases h with
  | pick h =>
    obtain ⟨o, -, hp⟩ := runs_pickOldestPending h
    exact hn.picked hp
  | inflight _ h => exact (confined_transitionInflight h.reaches).named hn
  | back _ h => exact (confined_transitionBackToPending h.reaches).named hn
  | deliver _ h => exact (confined_transitionDelivered h.reaches).named hn
  | reconcile h => exact hn.stop_reconcileInflight h.reaches

/-- A later call keeps a kept clip or writes its outcome. -/
theorem Later.kept {call : Call} (h : Later fs call t) (hn : Named fs) (hk : Kept fs c) :
    Kept t c ∨ HasOutcome t c := by
  cases h with
  | pick h =>
    obtain ⟨o, -, hp⟩ := runs_pickOldestPending h
    exact Or.inl (hk.of_sameClip (hp.sameClip c (hk.not_undecodable (Or.inl rfl))))
  | @inflight _ e e' at_ hout h =>
    rcases runs_transitionInflight.mp h with ⟨-, hr, -⟩ | ⟨m, -, -, rfl⟩
    · cases hr
    · exact Or.inl (kept_movedInflight (e := startAttempt e at_) hk fun _ => hout)
  | back hout h =>
    obtain ⟨-, rfl⟩ := runs_transitionBackToPending.mp h
    exact Or.inl (kept_movedBack hk fun _ => hout)
  | @deliver _ e hout h =>
    obtain ⟨-, rfl⟩ := runs_transitionDelivered.mp h
    by_cases hc : c = e.clipId
    · exact Or.inr (hc ▸ hasOutcome_movedDelivered hout)
    · exact Or.inl (hk.of_sameClip (sameClip_movedDelivered hc))
  | reconcile h => exact Or.inl (kept_reconcileInflight hn hk h).2.1

/-- Through any later calls a kept clip stays kept until its outcome is written. -/
theorem Kept.later {calls : List (Call × Fs)} (hn : Named fs) (hk : Kept fs c)
    (h : Exec Later fs calls t) : Named t ∧ (Kept t c ∨ ∃ x ∈ calls, HasOutcome x.2 c) := by
  induction h with
  | nil => exact ⟨hn, Or.inl hk⟩
  | @snoc calls u t call _ hstep ih =>
    obtain ⟨hnu, hku | ⟨x, hx, hout⟩⟩ := ih
    · refine ⟨hstep.named hnu, ?_⟩
      rcases hstep.kept hnu hku with hkt | hout
      · exact Or.inl hkt
      · exact Or.inr ⟨(call, t), by simp, hout⟩
    · exact ⟨hstep.named hnu, Or.inr ⟨x, List.mem_append_left _ hx, hout⟩⟩

/-- The clip is complete, and no later calls delete its media before its outcome is written. -/
def StrandsNothing (fs : Fs) (c : ClipId) : Prop :=
  Complete fs c ∧ ∀ calls t, Exec Later fs calls t →
    (∃ d m, (d = .pending ∨ d = .inflight) ∧ t.get (.queue d c .mp4) = some m) ∨
      ∃ x ∈ calls, HasOutcome x.2 c

theorem Kept.media (hk : Kept fs c) :
    ∃ d m, (d = .pending ∨ d = .inflight) ∧ fs.get (.queue d c .mp4) = some m := by
  rcases hk with hk | hk
  · obtain ⟨m, hm⟩ := hk.media
    exact ⟨.pending, m, Or.inl rfl, hm⟩
  · obtain ⟨m, hm⟩ := hk.media
    exact ⟨.inflight, m, Or.inr rfl, hm⟩

theorem Kept.strandsNothing (hn : Named fs) (hk : Kept fs c) : StrandsNothing fs c := by
  refine ⟨hk.complete, fun calls t h => ?_⟩
  obtain ⟨-, hkt | hout⟩ := hk.later hn h
  · exact Or.inl hkt.media
  · exact Or.inr hout

/-! ## The two transitions -/

/-- A move of an entry between `pending/` and `inflight/`. -/
inductive Transition
  | toInflight (entry : ClipQueueEntry) (at_ : DateTime)
  | toPending (entry : ClipQueueEntry)

namespace Transition

def entry : Transition → ClipQueueEntry
  | .toInflight entry _ => entry
  | .toPending entry => entry

def source : Transition → Dir
  | .toInflight _ _ => .pending
  | .toPending _ => .inflight

def dest : Transition → Dir
  | .toInflight _ _ => .inflight
  | .toPending _ => .pending

def call : Transition → Act (Except QueueError Unit)
  | .toInflight entry at_ => do
    match ← transitionInflight entry at_ with
    | .error err => return .error err
    | .ok _ => return .ok ()
  | .toPending entry => transitionBackToPending entry

/-- A failure of `r` leaves media that has been moved where it is, before its sidecar is written. -/
def Exposes (r : Req) : Transition → Prop
  | .toInflight _ _ => False
  | .toPending entry => WritesSidecar .pending entry.clipId entry r

end Transition

/-- A transition to `inflight/` that fails keeps the clip. -/
theorem kept_of_failed_toInflight {err : QueueError} (hn : Named fs)
    (hk : KeptIn fs .pending .inflight e.clipId) (hopen : e.outcome = none)
    (h : RunsOnce Nominal (FaultyAt r) (transitionInflight e at_) fs (.error err) t) :
    Named t ∧ Kept t e.clipId := by
  obtain ⟨m, hm⟩ := hk.media
  rcases runsOnce_transitionInflight hm h with rfl | ⟨u, rfl, ⟨w, hw, rfl⟩ | rfl⟩
  · exact ⟨hn, Or.inl hk⟩
  · -- the media has been moved back: only a temporary may be new
    have hnw : Named w := by
      rcases hw with rfl | ⟨b, rfl⟩
      · exact hn.moveMedia
      · exact hn.moveMedia.put_tmp _ _ _
    have hsame : SameClip fs (moveMedia w .inflight .pending e.clipId m) e.clipId := by
      have hinfl := hk.noMedia
      rcases hw with rfl | ⟨b, rfl⟩ <;> rintro d x (rfl | rfl) <;> cases d <;>
        simp [get_moveMedia, FileMap.get_put, hm, hinfl]
    exact ⟨hnw.moveMedia, Kept.of_sameClip (Or.inl hk) hsame⟩
  · refine ⟨hn.moveMedia.replaceSidecar _ (startAttempt e at_), Or.inr ⟨⟨m, ?_⟩, ?_, ?_, Or.inr ?_⟩⟩
    · simp [get_replaceSidecar, get_moveMedia]
    · exact ⟨startAttempt e at_, by simp [get_replaceSidecar], hopen⟩
    · simp [get_replaceSidecar, get_moveMedia]
    · refine hk.sidecar.of_get ?_
      simp [get_replaceSidecar, get_moveMedia]

/-- A move back to `pending/` that fails keeps the clip, unless it fails at the sidecar's write and
there is no older sidecar. -/
theorem kept_of_failed_toPending {err : QueueError} (hn : Named fs)
    (hk : KeptIn fs .inflight .pending e.clipId) (hopen : e.outcome = none)
    (h : RunsOnce Nominal (FaultyAt r) (transitionBackToPending e) fs (.error err) t) :
    (Named t ∧ Kept t e.clipId ∧
        (¬ WritesSidecar .pending e.clipId e r ∨ OpenSidecar fs .pending e.clipId)) ∨
      (WritesSidecar .pending e.clipId e r ∧ fs.get (.queue .pending e.clipId .json) = none ∧
        (∃ m, t.get (.queue .pending e.clipId .mp4) = some m) ∧
        t.get (.queue .pending e.clipId .json) = none) := by
  obtain ⟨m, hm⟩ := hk.media
  rcases runsOnce_transitionBackToPending hm h with
    ⟨rfl, hr⟩ | ⟨u, rfl, ⟨hr, ht⟩ | ⟨rfl, hr⟩⟩
  · exact Or.inl ⟨hn, Or.inr hk, Or.inl hr⟩
  · have hu : Named t ∧ t.get (.queue .pending e.clipId .mp4) = some m ∧
        t.get (.queue .inflight e.clipId .mp4) = none ∧
        ∀ d, t.get (.queue d e.clipId .json) = fs.get (.queue d e.clipId .json) := by
      rcases ht with rfl | ⟨b, rfl⟩
      · refine ⟨hn.moveMedia, ?_, ?_, fun d => ?_⟩ <;> simp [get_moveMedia]
      · refine ⟨hn.moveMedia.put_tmp _ _ _, ?_, ?_, fun d => ?_⟩ <;>
          simp [get_moveMedia, FileMap.get_put]
    obtain ⟨hnt, hmedia, hno, hside⟩ := hu
    rcases hk.stale with hnone | hstale
    · exact Or.inr ⟨hr, hnone, ⟨m, hmedia⟩, (hside _).trans hnone⟩
    · have hkept : KeptIn t .pending .inflight e.clipId :=
        ⟨⟨m, hmedia⟩, hstale.of_get (hside _), hno, Or.inr (hk.sidecar.of_get (hside _))⟩
      exact Or.inl ⟨hnt, Or.inl hkept, Or.inr hstale⟩
  · refine Or.inl ⟨hn.moveMedia.replaceSidecar _ _, Or.inl ⟨⟨m, ?_⟩, ?_, ?_, Or.inr ?_⟩, Or.inl hr⟩
    · simp [get_replaceSidecar, get_moveMedia]
    · exact ⟨e, by simp [get_replaceSidecar], hopen⟩
    · simp [get_replaceSidecar, get_moveMedia]
    · refine hk.sidecar.of_get ?_
      simp [get_replaceSidecar, get_moveMedia]

/-- A transition that fails at one request `r` strands nothing, exactly if `r` does not write the
sidecar in `pending/` after the media has been moved back, or an older sidecar lies there. -/
theorem failed_transition_strands_nothing_iff {tr : Transition} {err : QueueError} (hn : Named fs)
    (hk : KeptIn fs tr.source tr.dest tr.entry.clipId) (hopen : tr.entry.outcome = none)
    (h : RunsOnce Nominal (FaultyAt r) tr.call fs (.error err) t) :
    StrandsNothing t tr.entry.clipId ↔
      ¬ tr.Exposes r ∨ (fs.get (.queue tr.dest tr.entry.clipId .json)).isSome := by
  cases tr with
  | toInflight e at_ =>
    have hrun : ∃ err, RunsOnce Nominal (FaultyAt r) (transitionInflight e at_) fs (.error err) t := by
      rw [Transition.call, runsOnce_bind] at h
      rcases h with ⟨v, u, hv, h⟩ | ⟨v, u, -, h⟩
      · cases v with
        | error err' =>
          obtain ⟨-, rfl⟩ := h
          exact ⟨err', hv⟩
        | ok e' => cases h.1
      · cases v <;> exact h.elim
    obtain ⟨err', hrun⟩ := hrun
    obtain ⟨hnt, hkt⟩ := kept_of_failed_toInflight hn hk hopen hrun
    exact iff_of_true (hkt.strandsNothing hnt) (Or.inl fun hexp => hexp)
  | toPending e =>
    dsimp only [Transition.entry, Transition.source, Transition.dest] at *
    rcases kept_of_failed_toPending hn hk hopen h with
      ⟨hnt, hkt, hcond⟩ | ⟨hr, hnone, hmedia, hj⟩
    · refine iff_of_true (hkt.strandsNothing hnt) (hcond.imp_right ?_)
      rintro ⟨e', he', -⟩
      rw [he']
      rfl
    · refine iff_of_false (fun hs => not_complete_of_apart hmedia hj (Or.inl rfl) hs.1) ?_
      rintro (hexp | hsome)
      · exact hexp hr
      · rw [hnone] at hsome
        cases hsome

/-! ## A disk that is full -/

section DiskFull

open Station

/-- The awaited first upload is complete in `inflight/`. -/
theorem keptIn_uploading : KeptIn uploading.fs .inflight .pending "c1" :=
  keptIn_movedInflight (e := startAttempt firstEntry epoch) rfl

theorem runsOnce_rename_uploading : RunsOnce Nominal
    (FaultyAt (.rename (.queue .inflight "c1" .mp4) (.queue .pending "c1" .mp4)))
    (transitionBackToPending (startAttempt firstEntry epoch)) uploading.fs
    (.error (.io (.queue .pending "c1" .mp4) (.other 5 "Input/output error"))) uploading.fs := by
  obtain ⟨m, hm⟩ := keptIn_uploading.media
  rw [transitionBackToPending, runsOnce_bind]
  refine Or.inl ⟨.error _, uploading.fs, ?_, rfl, rfl⟩
  rw [returnMedia, runsOnce_bind]
  refine Or.inr ⟨true, uploading.fs, runs_fileExists.mpr ⟨?_, rfl⟩, ?_⟩
  · exact (congrArg Option.isSome hm).symm
  · rw [if_pos rfl, runsOnce_bind]
    refine Or.inl ⟨.error (.other 5 "Input/output error"), uploading.fs, ?_, rfl, rfl⟩
    exact runsOnce_rename.mpr ⟨rfl, ⟨_, rfl⟩, rfl⟩

/-- The rename of the media fails, and nothing is stranded. -/
theorem failed_transition_strands_nothing_uploading : StrandsNothing uploading.fs "c1" := by
  have hk : KeptIn uploading.fs (Transition.toPending (startAttempt firstEntry epoch)).source
      (Transition.toPending (startAttempt firstEntry epoch)).dest "c1" := keptIn_uploading
  refine (failed_transition_strands_nothing_iff uploading_inv.named hk rfl
    runsOnce_rename_uploading).mpr (Or.inl ?_)
  rintro (hw | hw) <;> simp at hw

/-- The sidecar's write finds the disk full: the media is left in `pending/` without a sidecar, and
the next reconciliation deletes it. -/
theorem disk_full_strands_uploading :
    KeptIn uploading.fs .inflight .pending "c1" ∧
    ∃ t err, RunsOnce Nominal
        (FaultyAt (.write (.queue .pending "c1" .jsonTmp) (.sidecar (startAttempt firstEntry epoch))))
        (transitionBackToPending (startAttempt firstEntry epoch)) uploading.fs (.error err) t ∧
      ¬ StrandsNothing t "c1" ∧
      ∀ v t', Runs Nominal reconcileInflight t v t' →
        ∀ d, d = .pending ∨ d = .inflight → t'.get (.queue d "c1" .mp4) = none := by
  obtain ⟨m, hm⟩ := keptIn_uploading.media
  have hid : firstEntry.clipId = "c1" := rfl
  have hj : uploading.fs.get (.queue .pending "c1" .json) = none := by
    simp [uploading, movedInflight, FileMap.get_del, hid]
  let t := moveMedia uploading.fs .inflight .pending "c1" m
  have hmedia : t.get (.queue .pending "c1" .mp4) = some m := by simp [t, get_moveMedia]
  have hno : t.get (.queue .inflight "c1" .mp4) = none := by simp [t, get_moveMedia]
  have hjt : t.get (.queue .pending "c1" .json) = none := by simp [t, get_moveMedia, hj]
  refine ⟨keptIn_uploading, t, .diskFull (.queue .pending "c1" .jsonTmp), ?_, ?_, ?_⟩
  · have hret : Runs Nominal (returnMedia (.queue .inflight "c1" .mp4) (.queue .pending "c1" .mp4))
        uploading.fs (.ok ()) t := by
      refine runs_returnMedia.mpr ⟨rfl, ?_⟩
      rw [mediaReturned, hm]
    rw [transitionBackToPending, runsOnce_bind]
    refine Or.inr ⟨.ok (), t, hret, ?_⟩
    dsimp only
    rw [runsOnce_bind]
    refine Or.inl ⟨.error (.diskFull (.queue .pending "c1" .jsonTmp)), t, ?_, rfl, rfl⟩
    rw [writeSidecarAtomic, runsOnce_bind]
    exact Or.inl ⟨.error .storageFull, t, runsOnce_write.mpr ⟨rfl, ⟨_, rfl⟩, Or.inl rfl⟩, rfl, rfl⟩
  · exact fun hs => not_complete_of_apart ⟨m, hmedia⟩ hjt (Or.inl rfl) hs.1
  · intro v t' hr
    have hstranded : Stranded t "c1" := by
      rintro d (rfl | rfl)
      · exact Or.inr hjt
      · exact Or.inl hno
    exact hstranded.reconcileInflight hr

end DiskFull

end Perchstation
