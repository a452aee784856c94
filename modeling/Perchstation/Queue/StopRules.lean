import Perchstation.Queue.Kept

/-!
# Stop rules — what a process stop leaves of a clip

A transition stopped anywhere has touched its own clip only (`Confined`).  A kept clip is then still
kept, or its outcome is written, or the stop fell between the two renames and its media lies apart
from its sidecar (`Sheltered`).  Scans and reconciliation, stopped anywhere, do no more.
-/

namespace Perchstation

open Resumption QueueStore

variable {fs t u : Fs} {c s : ClipId} {d : Dir} {e : ClipQueueEntry} {m : Blob} {at_ : DateTime}

/-! ## Transitions -/

/-- From `fs` to `t` only files of the clip `s` have changed, and no sidecar is misnamed. -/
structure Confined (fs t : Fs) (s : ClipId) : Prop where
  named : Named fs → Named t
  others : ∀ c, c ≠ s → SameClip fs t c

theorem confined_transitionInflight (h : Reaches Nominal (transitionInflight e at_) fs t) :
    Confined fs t e.clipId := by
  rcases reaches_transitionInflight h with rfl | ⟨m, -, u, rfl, rfl | rfl | rfl | rfl⟩
  · exact ⟨fun hn => hn, fun c _ => .refl _ c⟩
  · exact ⟨fun hn => hn.moveMedia, fun c hc => sameClip_moveMedia hc⟩
  · exact ⟨fun hn => hn.moveMedia.put_tmp _ _ _, fun c hc =>
      (sameClip_moveMedia hc).trans sameClip_put_tmp⟩
  · exact ⟨fun hn => hn.moveMedia.replaceSidecar _ (startAttempt e at_), fun c hc =>
      (sameClip_moveMedia hc).trans (sameClip_replaceSidecar hc)⟩
  · exact ⟨fun hn => hn.movedInflight, fun c hc =>
      sameClip_movedInflight (e := startAttempt e at_) hc⟩

theorem confined_transitionBackToPending (h : Reaches Nominal (transitionBackToPending e) fs t) :
    Confined fs t e.clipId := by
  rcases reaches_transitionBackToPending h with rfl | ⟨u, rfl, rfl | rfl | rfl | rfl⟩
  · exact ⟨fun hn => hn, fun c _ => .refl _ c⟩
  · exact ⟨fun hn => hn.mediaReturned, fun c hc => sameClip_mediaReturned hc⟩
  · exact ⟨fun hn => hn.mediaReturned.put_tmp _ _ _, fun c hc =>
      (sameClip_mediaReturned hc).trans sameClip_put_tmp⟩
  · exact ⟨fun hn => hn.mediaReturned.replaceSidecar _ _, fun c hc =>
      (sameClip_mediaReturned hc).trans (sameClip_replaceSidecar hc)⟩
  · exact ⟨fun hn => hn.movedBack, fun c hc => sameClip_movedBack hc⟩

theorem confined_transitionDelivered (h : Reaches Nominal (transitionDelivered e) fs t) :
    Confined fs t e.clipId := by
  rcases reaches_transitionDelivered h with rfl | rfl | ⟨u, rfl, rfl | rfl | rfl⟩
  · exact ⟨fun hn => hn, fun c _ => .refl _ c⟩
  · exact ⟨fun hn => hn.put_tmp _ _ _, fun c _ => sameClip_put_tmp⟩
  · exact ⟨fun hn => hn.replaceSidecar _ _, fun c hc => sameClip_replaceSidecar hc⟩
  · exact ⟨fun hn => (hn.replaceSidecar _ _).del _, fun c hc =>
      (sameClip_replaceSidecar hc).trans (sameClip_del hc)⟩
  · exact ⟨fun hn => hn.movedDelivered, fun c hc => sameClip_movedDelivered hc⟩

/-- The media of `c` lies in `d`, without a sidecar beside it, and there is none in `d'`. -/
structure ApartIn (fs : Fs) (d d' : Dir) (c : ClipId) : Prop where
  media : ∃ m, fs.get (.queue d c .mp4) = some m
  noSidecar : fs.get (.queue d c .json) = none
  noMedia : fs.get (.queue d' c .mp4) = none

/-- What a stop can leave of a clip that was kept. -/
def Sheltered (fs : Fs) (c : ClipId) : Prop :=
  Kept fs c ∨ (ApartIn fs .pending .inflight c ∨ ApartIn fs .inflight .pending c) ∨ HasOutcome fs c

theorem ApartIn.of_sameClip {d d' : Dir} (h : ApartIn fs d d' c) (hs : SameClip fs t c) :
    ApartIn t d d' c where
  media := by
    obtain ⟨m, hm⟩ := h.media
    exact ⟨m, (hs.media d).trans hm⟩
  noSidecar := (hs.sidecar d).trans h.noSidecar
  noMedia := (hs.media d').trans h.noMedia

theorem Sheltered.of_sameClip (h : Sheltered fs c) (hs : SameClip fs t c) : Sheltered t c := by
  rcases h with hk | hap | ⟨d, e, he, hout⟩
  · exact Or.inl (hk.of_sameClip hs)
  · exact Or.inr (Or.inl (hap.imp (·.of_sameClip hs) (·.of_sameClip hs)))
  · exact Or.inr (Or.inr ⟨d, e, (hs.sidecar d).trans he, hout⟩)

/-- Media that has just been renamed into `d` lies beside an old sidecar or apart from any. -/
theorem sheltered_moved {d d' : Dir} (hd : (d = .inflight ∧ d' = .pending) ∨
      (d = .pending ∧ d' = .inflight))
    (hm : t.get (.queue d c .mp4) = some m) (hno : t.get (.queue d' c .mp4) = none)
    (hopen : OpenSidecar t d' c) (hstale : t.get (.queue d c .json) = none ∨ OpenSidecar t d c) :
    Sheltered t c := by
  rcases hstale with hnone | hside
  · have hap : ApartIn t d d' c := ⟨⟨m, hm⟩, hnone, hno⟩
    rcases hd with ⟨rfl, rfl⟩ | ⟨rfl, rfl⟩
    · exact Or.inr (Or.inl (Or.inr hap))
    · exact Or.inr (Or.inl (Or.inl hap))
  · have hkept : KeptIn t d d' c := ⟨⟨m, hm⟩, hside, hno, Or.inr hopen⟩
    rcases hd with ⟨rfl, rfl⟩ | ⟨rfl, rfl⟩
    · exact Or.inl (Or.inr hkept)
    · exact Or.inl (Or.inl hkept)

theorem Kept.stop_transitionInflight (hk : Kept fs c) (he : e.clipId = c → e.outcome = none)
    (h : Reaches Nominal (transitionInflight e at_) fs t) : Sheltered t c := by
  by_cases hc : c = e.clipId
  · subst hc
    rcases reaches_transitionInflight h with rfl | ⟨m, hm, u, rfl, hcase⟩
    · exact Or.inl hk
    · -- the media is in `pending/`, so that is where the clip is kept
      have hpend : KeptIn fs .pending .inflight e.clipId := by
        rcases hk with hk | hk
        · exact hk
        · rw [hk.noMedia] at hm
          cases hm
      have hside : ∀ d, (moveMedia fs .pending .inflight e.clipId m).get (.queue d e.clipId .json) =
          fs.get (.queue d e.clipId .json) := by
        intro d
        simp [get_moveMedia]
      have hmoved : Sheltered (moveMedia fs .pending .inflight e.clipId m) e.clipId := by
        refine sheltered_moved (d := .inflight) (m := m) (Or.inl ⟨rfl, rfl⟩)
          (by simp [get_moveMedia]) (by simp [get_moveMedia]) (hpend.sidecar.of_get (hside _)) ?_
        exact hpend.stale.imp (hside _).trans (OpenSidecar.of_get (hside _))
      rcases hcase with rfl | rfl | rfl | rfl
      · exact hmoved
      · exact hmoved.of_sameClip sameClip_put_tmp
      · refine Or.inl (Or.inr ⟨⟨m, by simp [get_replaceSidecar, get_moveMedia]⟩, ?_, ?_, ?_⟩)
        · exact ⟨startAttempt e at_, by simp [get_replaceSidecar], he rfl⟩
        · simp [get_replaceSidecar, get_moveMedia]
        · obtain ⟨e', he', hout⟩ := hpend.sidecar
          exact Or.inr ⟨e', by simp [get_replaceSidecar, get_moveMedia, he'], hout⟩
      · exact Or.inl (kept_movedInflight (e := startAttempt e at_) hk he)
  · exact Or.inl (hk.of_sameClip ((confined_transitionInflight h).others c hc))

theorem Kept.stop_transitionBackToPending (hk : Kept fs c) (he : e.clipId = c → e.outcome = none)
    (h : Reaches Nominal (transitionBackToPending e) fs t) : Sheltered t c := by
  by_cases hc : c = e.clipId
  · subst hc
    rcases reaches_transitionBackToPending h with rfl | ⟨u, rfl, hcase⟩
    · exact Or.inl hk
    · have hside : ∀ d, (mediaReturned fs e.clipId).get (.queue d e.clipId .json) =
          fs.get (.queue d e.clipId .json) := fun d => sidecar_mediaReturned
      have hmoved : Sheltered (mediaReturned fs e.clipId) e.clipId := by
        rcases hk with hpend | hinfl
        · -- there is no media in `inflight/`, so nothing has moved
          have hsame : mediaReturned fs e.clipId = fs := by
            rw [mediaReturned, hpend.noMedia]
          rw [hsame]
          exact Or.inl (Or.inl hpend)
        · obtain ⟨m, hm⟩ := Kept.media_mediaReturned (Or.inr hinfl)
          refine sheltered_moved (Or.inr ⟨rfl, rfl⟩) hm noMedia_mediaReturned
            (hinfl.sidecar.of_get (hside _)) ?_
          exact hinfl.stale.imp (hside _).trans (OpenSidecar.of_get (hside _))
      rcases hcase with rfl | rfl | rfl | rfl
      · exact hmoved
      · exact hmoved.of_sameClip sameClip_put_tmp
      · obtain ⟨m, hm⟩ := hk.media_mediaReturned
        refine Or.inl (Or.inl ⟨⟨m, by simp [get_replaceSidecar, hm]⟩, ?_, ?_, ?_⟩)
        · exact ⟨e, by simp [get_replaceSidecar], he rfl⟩
        · simp [get_replaceSidecar, noMedia_mediaReturned]
        · have hold : fs.get (.queue .inflight e.clipId .json) = none ∨
              OpenSidecar fs .inflight e.clipId := by
            rcases hk with hk | hk
            · exact hk.stale
            · exact Or.inr hk.sidecar
          have hget : (replaceSidecar (mediaReturned fs e.clipId) .pending e.clipId e).get
              (.queue .inflight e.clipId .json) = fs.get (.queue .inflight e.clipId .json) := by
            simp [get_replaceSidecar, hside]
          exact hold.imp hget.trans (OpenSidecar.of_get hget)
      · exact Or.inl (kept_movedBack hk he)
  · exact Or.inl (hk.of_sameClip ((confined_transitionBackToPending h).others c hc))

theorem Kept.stop_transitionDelivered (hk : Kept fs c) (he : e.outcome.isSome)
    (h : Reaches Nominal (transitionDelivered e) fs t) : Sheltered t c := by
  by_cases hc : c = e.clipId
  · subst hc
    rcases reaches_transitionDelivered h with rfl | rfl | ⟨u, rfl, rfl | rfl | rfl⟩
    · exact Or.inl hk
    · exact Or.inl (hk.of_sameClip sameClip_put_tmp)
    · exact Or.inr (Or.inr ⟨.inflight, e, by simp [get_replaceSidecar], he⟩)
    · exact Or.inr (Or.inr ⟨.inflight, e, by simp [FileMap.get_del, get_replaceSidecar], he⟩)
    · exact Or.inr (Or.inr (hasOutcome_movedDelivered he))
  · exact Or.inl (hk.of_sameClip ((confined_transitionDelivered h).others c hc))

/-! ## Dropping an orphaned sidecar -/

theorem reaches_quarantineOrphan (h : Reaches Nominal (quarantineOrphan s) fs t) :
    t = fs ∨ t = fs.del (.queue .pending s .json) ∨
      t = (fs.del (.queue .pending s .json)).del (.queue .pending s .mp4) := by
  rw [quarantineOrphan, reaches_bind, reaches_removeIfExists] at h
  rcases h with (h | h) | ⟨_, u, hu, h⟩
  · exact Or.inl h
  · exact Or.inr (Or.inl h)
  · obtain ⟨rfl, rfl⟩ := runs_removeIfExists.mp hu
    rcases reaches_removeIfExists.mp h with h | h
    · exact Or.inr (Or.inl h)
    · exact Or.inr (Or.inr h)

theorem confined_quarantineOrphan (h : Reaches Nominal (quarantineOrphan s) fs t) :
    Confined fs t s := by
  rcases reaches_quarantineOrphan h with rfl | rfl | rfl
  · exact ⟨fun hn => hn, fun c _ => .refl _ c⟩
  · exact ⟨fun hn => hn.del _, fun c hc => sameClip_del hc⟩
  · exact ⟨fun hn => (hn.del _).del _, fun c hc => (sameClip_del hc).trans (sameClip_del hc)⟩

/-- A clip kept in `inflight/` loses no more than its old sidecar in `pending/`. -/
theorem Kept.stop_quarantineOrphan (hk : Kept fs c)
    (hm : fs.get (.queue .pending s .mp4) = none)
    (h : Reaches Nominal (quarantineOrphan s) fs t) : Kept t c := by
  by_cases hc : c = s
  · subst hc
    have hinfl : KeptIn fs .inflight .pending c := by
      rcases hk with hk | hk
      · obtain ⟨m, hm'⟩ := hk.media
        rw [hm] at hm'
        cases hm'
      · exact hk
    obtain ⟨m, hmedia⟩ := hinfl.media
    obtain ⟨e, he, hout⟩ := hinfl.sidecar
    rcases reaches_quarantineOrphan h with rfl | rfl | rfl
    · exact hk
    · exact Or.inr ⟨⟨m, by simp [FileMap.get_del, hmedia]⟩, ⟨e, by simp [FileMap.get_del, he], hout⟩,
        by simp [FileMap.get_del, hm], Or.inl (by simp [FileMap.get_del])⟩
    · exact Or.inr ⟨⟨m, by simp [FileMap.get_del, hmedia]⟩, ⟨e, by simp [FileMap.get_del, he], hout⟩,
        by simp [FileMap.get_del], Or.inl (by simp [FileMap.get_del])⟩
  · exact hk.of_sameClip ((confined_quarantineOrphan h).others c hc)

/-! ## Picking -/

/-- The store between the two renames of a quarantine. -/
theorem Picked.quarantining {data : List UInt8}
    (hb : fs.get (.queue .pending s .json) = some (.bytes data)) :
    Picked fs
      ((fs.del (.queue .pending s .json)).put (.queue .corrupt s .json) (.bytes data)) none := by
  refine ⟨fun c hc => ?_, fun c d x hd hd' => ?_, fun c hc => ?_, fun d c e he => ?_, by simp⟩
  · have hne : c ≠ s := by
      rintro rfl
      exact hc ⟨data, hb⟩
    exact (sameClip_del hne).trans (sameClip_put hne)
  · simp [FileMap.get_put, FileMap.get_del, hd, hd']
  · simp [FileMap.get_put, FileMap.get_del, hc]
  · simp only [FileMap.get_put, FileMap.get_del] at he
    split_ifs at he <;> simp_all

theorem reaches_quarantineCorrupt {data : List UInt8}
    (hb : fs.get (.queue .pending s .json) = some (.bytes data))
    (h : Reaches Nominal (quarantineCorrupt (.queue .pending s .json)) fs t) : Picked fs t none := by
  have hfull : Picked fs (quarantined fs .pending s (.bytes data)) none :=
    (Picked.idle _).quarantined hb
  simp [quarantineCorrupt, reaches_bind, Nominal, hb, Path.moveTo, Path.withExtension] at h
  rcases h with h | (h | h) | h | h
  · exact h ▸ Picked.idle _
  · exact h ▸ Picked.idle _
  · exact h ▸ Picked.quarantining hb
  · exact h ▸ Picked.quarantining hb
  · unfold quarantined at hfull
    dsimp only at hfull
    cases hm : FileMap.get ((fs.del (.queue .pending s .json)).put (.queue .corrupt s .json)
        (.bytes data)) (.queue .pending s .mp4) with
    | none =>
      simp [hm] at h
      exact h ▸ Picked.quarantining hb
    | some m =>
      simp only [hm] at hfull
      simp [hm, reaches_bind, Nominal] at h
      rcases h with h | h
      · exact h ▸ Picked.quarantining hb
      · exact h ▸ hfull

/-- A stopped scan has quarantined some of the undecodable sidecars. -/
theorem reaches_scanPending {l : List Path} (hl : ∀ p ∈ l, ∃ c, p = .queue .pending c .json)
    (h : Reaches Nominal (scanPending at_ l) fs t) : Picked fs t none := by
  induction l generalizing fs with
  | nil => exact h ▸ Picked.idle _
  | cons p rest ih =>
    have hrest : ∀ q ∈ rest, ∃ c, q = .queue .pending c .json :=
      fun q hq => hl q (List.mem_cons_of_mem _ hq)
    obtain ⟨s, rfl⟩ := hl p List.mem_cons_self
    rw [scanPending, reaches_bind] at h
    rcases h with h | ⟨r, u, hr, h⟩
    · obtain rfl := reaches_readSidecar.mp h
      exact Picked.idle _
    · obtain ⟨rfl, rfl⟩ := runs_readSidecar.mp hr
      rcases sidecarAt_cases u (.queue .pending s .json) with
        ⟨-, hr⟩ | ⟨e, hb, hr⟩ | ⟨data, hb, hr⟩ <;> rw [hr] at h <;> dsimp only at h
      · exact ih hrest h
      · split at h
        · split_ifs at h
          · exact ih hrest h
          · exact h ▸ Picked.idle _
        · exact h ▸ Picked.idle _
      · rw [reaches_bind] at h
        rcases h with h | ⟨_, w, hq, h⟩
        · exact reaches_quarantineCorrupt hb h
        · obtain ⟨-, rfl⟩ := runs_quarantineCorrupt hb hq
          exact (ih hrest h).quarantined hb

theorem reaches_pickOldestPending (h : Reaches Nominal (pickOldestPending at_) fs t) :
    Picked fs t none := by
  simp only [pickOldestPending, reaches_bind, reaches_readDir, runs_readDir, Nominal] at h
  rcases h with (rfl | ⟨_, rfl, -⟩) | ⟨_, _, ⟨rfl, l, hl, rfl⟩, h⟩
  · exact Picked.idle _
  · exact Picked.idle _
  · refine reaches_scanPending (fun p hp => ?_) h
    obtain ⟨c, hc, -⟩ := (mem_sidecars hl).mp (mem_sortPaths.mp hp)
    exact ⟨c, hc⟩

/-! ## Reconciliation -/

/-- The reconciliation of one sidecar, stopped or complete. -/
inductive ReconcileStep (fs : Fs) (e : ClipQueueEntry) (t : Fs) : Prop
  | deliver : e.isTerminal = true → Reaches Nominal (transitionDelivered e) fs t →
      ReconcileStep fs e t
  | requeue : e.isTerminal = false →
      Reaches Nominal (transitionBackToPending (requeued e)) fs t → ReconcileStep fs e t

theorem ReconcileStep.confined (h : ReconcileStep fs e t) : Confined fs t e.clipId := by
  cases h with
  | deliver _ h => exact confined_transitionDelivered h
  | requeue _ h => exact confined_transitionBackToPending (e := requeued e) h

/-- What a sidecar's complete reconciliation leaves. -/
def reconciledOne (fs : Fs) (e : ClipQueueEntry) : Fs :=
  if e.isTerminal then movedDelivered fs e else movedBack fs (requeued e)

theorem reconcileStep_reconciledOne (fs : Fs) (e : ClipQueueEntry) :
    ReconcileStep fs e (reconciledOne fs e) := by
  unfold reconciledOne
  split
  · rename_i ht
    exact .deliver ht (runs_transitionDelivered.mpr ⟨rfl, rfl⟩).reaches
  · rename_i ht
    exact .requeue (by simpa using ht) (runs_transitionBackToPending.mpr ⟨rfl, rfl⟩).reaches

/-- The loop over `inflight/` is stopped at its next sidecar or later. -/
theorem reaches_reconcileLoop_cons {p : Path} {rest : List Path}
    (h : Reaches Nominal (reconcileLoop (p :: rest)) fs t) :
    t = fs ∨ ∃ e, fs.get p = some (.sidecar e) ∧
      (ReconcileStep fs e t ∨ Reaches Nominal (reconcileLoop rest) (reconciledOne fs e) t) := by
  rw [reconcileLoop, reaches_bind] at h
  rcases h with h | ⟨r, u, hr, h⟩
  · exact Or.inl (reaches_readSidecar.mp h)
  · obtain ⟨rfl, rfl⟩ := runs_readSidecar.mp hr
    cases hs : sidecarAt u p with
    | error err =>
      rw [hs] at h
      exact Or.inl h
    | ok e =>
      refine Or.inr ⟨e, sidecarAt_eq_ok_iff.mp hs, ?_⟩
      unfold reconciledOne
      rw [hs] at h
      dsimp only at h
      by_cases ht : e.isTerminal = true
      · simp only [ht, if_true, reaches_bind, runs_transitionDelivered] at h
        rcases h with h | ⟨_, w, ⟨rfl, rfl⟩, h⟩
        · exact Or.inl (.deliver ht h)
        · exact Or.inr (by rwa [if_pos ht])
      · simp only [ht, Bool.false_eq_true, if_false, reaches_bind,
          runs_transitionBackToPending] at h
        have hopen : e.isTerminal = false := by simpa using ht
        rcases h with h | ⟨_, w, ⟨rfl, rfl⟩, h⟩
        · exact Or.inl (.requeue hopen h)
        · refine Or.inr ?_
          rw [if_neg ht]
          dsimp only at h
          rw [reaches_bind] at h
          rcases h with h | ⟨r, w, hloop, h⟩
          · exact h
          · have hend : t = w := by
              cases r <;> exact h
            exact hend ▸ hloop.reaches

theorem Named.stop_reconcileLoop {l : List Path} (hn : Named fs)
    (h : Reaches Nominal (reconcileLoop l) fs t) : Named t := by
  induction l generalizing fs with
  | nil =>
    obtain rfl : t = fs := h
    exact hn
  | cons p rest ih =>
    rcases reaches_reconcileLoop_cons h with rfl | ⟨e, -, hstep | hloop⟩
    · exact hn
    · exact hstep.confined.named hn
    · exact ih ((reconcileStep_reconciledOne fs e).confined.named hn) hloop

/-- The loop does not touch a clip that has no sidecar in `inflight/`. -/
theorem sameClip_of_reaches_reconcileLoop {l : List Path}
    (hl : ∀ p ∈ l, ∃ s, p = .queue .inflight s .json) (hn : Named fs)
    (hnone : fs.get (.queue .inflight c .json) = none)
    (h : Reaches Nominal (reconcileLoop l) fs t) : SameClip fs t c := by
  induction l generalizing fs with
  | nil =>
    obtain rfl : t = fs := h
    exact .refl _ _
  | cons p rest ih =>
    have hrest : ∀ q ∈ rest, ∃ s, q = .queue .inflight s .json :=
      fun q hq => hl q (List.mem_cons_of_mem _ hq)
    obtain ⟨s, rfl⟩ := hl p List.mem_cons_self
    rcases reaches_reconcileLoop_cons h with rfl | ⟨e, he, hcase⟩
    · exact .refl _ _
    · obtain rfl := hn _ _ _ he
      have hc : c ≠ e.clipId := by
        rintro rfl
        rw [hnone] at he
        cases he
      rcases hcase with hstep | hloop
      · exact hstep.confined.others c hc
      · have hone := (reconcileStep_reconciledOne fs e).confined
        have hsame := hone.others c hc
        exact hsame.trans (ih hrest (hone.named hn) ((hsame.sidecar _).trans hnone) hloop)

theorem Kept.stop_reconcileLoop {l : List Path}
    (hl : ∀ p ∈ l, ∃ s, p = .queue .inflight s .json) (hn : Named fs) (hk : Kept fs c)
    (h : Reaches Nominal (reconcileLoop l) fs t) : Sheltered t c := by
  induction l generalizing fs with
  | nil =>
    obtain rfl : t = fs := h
    exact Or.inl hk
  | cons p rest ih =>
    have hrest : ∀ q ∈ rest, ∃ s, q = .queue .inflight s .json :=
      fun q hq => hl q (List.mem_cons_of_mem _ hq)
    obtain ⟨s, rfl⟩ := hl p List.mem_cons_self
    rcases reaches_reconcileLoop_cons h with rfl | ⟨e, he, hcase⟩
    · exact Or.inl hk
    · obtain rfl := hn _ _ _ he
      have hopen : e.isTerminal = false → e.outcome = none := by
        intro ht
        simpa [ClipQueueEntry.isTerminal] using ht
      -- the record of a kept clip has no outcome, so a terminal one is another clip's
      have hother : e.isTerminal = true → c ≠ e.clipId := by
        rintro ht rfl
        rw [ClipQueueEntry.isTerminal, hk.outcome_eq_none (Or.inr rfl) he] at ht
        cases ht
      rcases hcase with hstep | hloop
      · cases hstep with
        | deliver ht h => exact hk.stop_transitionDelivered ht h
        | requeue ht h =>
          exact hk.stop_transitionBackToPending (e := requeued e) (fun _ => hopen ht) h
      · refine ih hrest ((reconcileStep_reconciledOne fs e).confined.named hn) ?_ hloop
        unfold reconciledOne
        by_cases ht : e.isTerminal = true
        · rw [if_pos ht]
          exact hk.of_sameClip (sameClip_movedDelivered (hother ht))
        · rw [if_neg ht]
          exact kept_movedBack (e := requeued e) hk fun _ => hopen (by simpa using ht)

/-- The stops of a reconciliation: in one of the sweeps, or in the loop. -/
inductive ReconcileStop (fs t : Fs) : Prop
  | sweep {u : Fs} : PartSwept fs u .pending → PartSwept u t .inflight → ReconcileStop fs t
  | loop {u w : Fs} {l : List Path} : Swept fs u .pending → Swept u w .inflight →
      (∀ p ∈ l, ∃ s, p = .queue .inflight s .json) → Reaches Nominal (reconcileLoop l) w t →
      ReconcileStop fs t

theorem reaches_reconcileInflight (h : Reaches Nominal reconcileInflight fs t) :
    ReconcileStop fs t := by
  have hsame : PartSwept t t .inflight := fun p => Or.inl rfl
  rw [reconcileInflight, reaches_bind] at h
  rcases h with h | ⟨_, u, hu, h⟩
  · exact .sweep (reaches_sweepOrphanMedia h) hsame
  · obtain ⟨rfl, hfirst⟩ := runs_sweepOrphanMedia.mp hu
    dsimp only at h
    rw [reaches_bind] at h
    rcases h with h | ⟨_, w, hw, h⟩
    · exact .sweep hfirst.partSwept (reaches_sweepOrphanMedia h)
    · obtain ⟨rfl, hsecond⟩ := runs_sweepOrphanMedia.mp hw
      simp only [reaches_bind, reaches_readDir, runs_readDir, Nominal] at h
      rcases h with (rfl | ⟨_, rfl, -⟩) | ⟨_, _, ⟨rfl, l, hl, rfl⟩, h⟩
      · exact .sweep hfirst.partSwept hsecond.partSwept
      · exact .sweep hfirst.partSwept hsecond.partSwept
      · refine .loop hfirst hsecond (fun p hp => ?_) h
        obtain ⟨s, hs, -⟩ := (mem_sidecars hl).mp (mem_sortPaths.mp hp)
        exact ⟨s, hs⟩

theorem Named.stop_reconcileInflight (hn : Named fs) (h : Reaches Nominal reconcileInflight fs t) :
    Named t := by
  cases reaches_reconcileInflight h with
  | sweep hu hw => exact (hn.partSwept hu).partSwept hw
  | loop hu hw _ h =>
    exact ((hn.partSwept hu.partSwept).partSwept hw.partSwept).stop_reconcileLoop h

theorem Kept.stop_reconcileInflight (hn : Named fs) (hk : Kept fs c)
    (h : Reaches Nominal reconcileInflight fs t) : Sheltered t c := by
  have hswept : ∀ {u w}, PartSwept fs u .pending → PartSwept u w .inflight → Kept w c := by
    intro u w hu hw
    have hku : Kept u c := hk.of_sameClip (hk.sameClip_of_partSwept hu (Or.inl rfl))
    exact hku.of_sameClip (hku.sameClip_of_partSwept hw (Or.inr rfl))
  cases reaches_reconcileInflight h with
  | sweep hu hw => exact Or.inl (hswept hu hw)
  | loop hu hw hl h =>
    have hnw := (hn.partSwept hu.partSwept).partSwept hw.partSwept
    exact Kept.stop_reconcileLoop hl hnw (hswept hu.partSwept hw.partSwept) h

/-- The clip has no media or sidecar in `pending/` or `inflight/`. -/
def Absent (fs : Fs) (c : ClipId) : Prop :=
  ∀ d x, d = .pending ∨ d = .inflight → x.IsMain → fs.get (.queue d c x) = none

theorem Absent.of_sameLive (h : Absent fs c) (hs : SameLive fs t c) : Absent t c :=
  fun d x hd hx => (hs d x hd hx).trans (h d x hd hx)

theorem Absent.of_sameClip (h : Absent fs c) (hs : SameClip fs t c) : Absent t c :=
  h.of_sameLive hs.live

theorem Absent.sameClip_of_partSwept (h : Absent fs c) (hd : d = .pending ∨ d = .inflight)
    (ht : PartSwept fs t d) : SameClip fs t c := by
  intro d' x hx
  rcases ht (.queue d' c x) with hp | ⟨⟨c', hc', -⟩, hp⟩
  · exact hp
  · obtain ⟨rfl, rfl, rfl⟩ := Path.queue.inj hc'
    rw [hp, h d' .mp4 hd (Or.inl rfl)]

/-- Reconciliation, stopped or complete, does not touch a clip that is absent. -/
theorem Absent.stop_reconcileInflight (hn : Named fs) (ha : Absent fs c)
    (h : Reaches Nominal reconcileInflight fs t) : SameClip fs t c := by
  have hswept : ∀ {u w}, PartSwept fs u .pending → PartSwept u w .inflight → SameClip fs w c := by
    intro u w hu hw
    have hsu : SameClip fs u c := ha.sameClip_of_partSwept (Or.inl rfl) hu
    exact hsu.trans ((ha.of_sameClip hsu).sameClip_of_partSwept (Or.inr rfl) hw)
  cases reaches_reconcileInflight h with
  | sweep hu hw => exact hswept hu hw
  | loop hu hw hl h =>
    have hsw := hswept hu.partSwept hw.partSwept
    have hnw := (hn.partSwept hu.partSwept).partSwept hw.partSwept
    have hnone := ha.of_sameClip hsw .inflight .json (Or.inr rfl) (Or.inr rfl)
    exact hsw.trans (sameClip_of_reaches_reconcileLoop hl hnw hnone h)

/-! ## Footage that is lost -/

/-- There is no media of `c` in `pending/` or `inflight/`. -/
def NoFootage (fs : Fs) (c : ClipId) : Prop :=
  ∀ d, d = .pending ∨ d = .inflight → fs.get (.queue d c .mp4) = none

/-- What media of `c` there is has no sidecar beside it. -/
def Stranded (fs : Fs) (c : ClipId) : Prop :=
  ∀ d, d = .pending ∨ d = .inflight →
    fs.get (.queue d c .mp4) = none ∨ fs.get (.queue d c .json) = none

theorem stranded_of_apartIn
    (h : ApartIn fs .pending .inflight c ∨ ApartIn fs .inflight .pending c) : Stranded fs c := by
  rcases h with h | h <;> rintro d (rfl | rfl)
  · exact Or.inr h.noSidecar
  · exact Or.inl h.noMedia
  · exact Or.inl h.noMedia
  · exact Or.inr h.noSidecar

theorem apart_of_apartIn
    (h : ApartIn fs .pending .inflight c ∨ ApartIn fs .inflight .pending c) : Apart fs c := by
  rcases h with h | h
  · exact ⟨.pending, Or.inl rfl, h.media, h.noSidecar⟩
  · exact ⟨.inflight, Or.inr rfl, h.media, h.noSidecar⟩

theorem KeptIn.not_apart {d d' : Dir} (h : KeptIn fs d d' c)
    (hd : (d = .pending ∧ d' = .inflight) ∨ (d = .inflight ∧ d' = .pending)) : ¬ Apart fs c := by
  obtain ⟨e, he, -⟩ := h.sidecar
  have hno := h.noMedia
  rintro ⟨a, ha, ⟨m, hm⟩, hj⟩
  have hcase : a = d ∨ a = d' := by
    rcases hd with ⟨rfl, rfl⟩ | ⟨rfl, rfl⟩
    · exact ha
    · exact ha.symm
  rcases hcase with rfl | rfl
  · rw [hj] at he
    cases he
  · rw [hno] at hm
    cases hm

theorem Kept.not_apart (h : Kept fs c) : ¬ Apart fs c := by
  rcases h with h | h
  · exact h.not_apart (Or.inl ⟨rfl, rfl⟩)
  · exact h.not_apart (Or.inr ⟨rfl, rfl⟩)

theorem Absent.not_apart (h : Absent fs c) : ¬ Apart fs c := by
  rintro ⟨d, hd, ⟨m, hm⟩, -⟩
  rw [h d .mp4 hd (Or.inl rfl)] at hm
  cases hm

theorem NoFootage.stranded (h : NoFootage fs c) : Stranded fs c := fun d hd => Or.inl (h d hd)

theorem NoFootage.of_sameLive (h : NoFootage fs c) (hs : SameLive fs t c) : NoFootage t c :=
  fun d hd => (hs d .mp4 hd (Or.inl rfl)).trans (h d hd)

theorem NoFootage.of_sameClip (h : NoFootage fs c) (hs : SameClip fs t c) : NoFootage t c :=
  h.of_sameLive hs.live

namespace NoFootage

theorem stop_transitionInflight (hno : NoFootage fs c)
    (h : Reaches Nominal (transitionInflight e at_) fs t) : NoFootage t c := by
  by_cases hc : c = e.clipId
  · subst hc
    rcases reaches_transitionInflight h with rfl | ⟨m, hm, -⟩
    · exact hno
    · rw [hno .pending (Or.inl rfl)] at hm
      cases hm
  · exact hno.of_sameClip ((confined_transitionInflight h).others c hc)

theorem stop_transitionBackToPending (hno : NoFootage fs c)
    (h : Reaches Nominal (transitionBackToPending e) fs t) : NoFootage t c := by
  by_cases hc : c = e.clipId
  · subst hc
    have hsame : mediaReturned fs e.clipId = fs := by
      rw [mediaReturned, hno .inflight (Or.inr rfl)]
    rcases reaches_transitionBackToPending h with rfl | ⟨u, rfl, hcase⟩
    · exact hno
    · intro d hd
      have hd' := hno d hd
      rcases hcase with rfl | rfl | rfl | rfl <;>
        simp [movedBack, hsame, FileMap.get_put, FileMap.get_del, get_replaceSidecar, hd']
  · exact hno.of_sameClip ((confined_transitionBackToPending h).others c hc)

theorem stop_transitionDelivered (hno : NoFootage fs c)
    (h : Reaches Nominal (transitionDelivered e) fs t) : NoFootage t c := by
  intro d hd
  have hd' := hno d hd
  rcases reaches_transitionDelivered h with rfl | rfl | ⟨u, rfl, rfl | rfl | rfl⟩ <;>
    simp [movedDelivered, FileMap.get_put, FileMap.get_del, get_replaceSidecar, hd']

theorem stop_quarantineOrphan (hno : NoFootage fs c)
    (h : Reaches Nominal (quarantineOrphan s) fs t) : NoFootage t c := by
  intro d hd
  have hd' := hno d hd
  rcases reaches_quarantineOrphan h with rfl | rfl | rfl <;> simp [FileMap.get_del, hd']

theorem reconcileStep (hno : NoFootage fs c) (h : ReconcileStep fs e t) : NoFootage t c := by
  cases h with
  | deliver _ h => exact hno.stop_transitionDelivered h
  | requeue _ h => exact hno.stop_transitionBackToPending h

theorem stop_reconcileLoop {l : List Path} (hno : NoFootage fs c)
    (h : Reaches Nominal (reconcileLoop l) fs t) : NoFootage t c := by
  induction l generalizing fs with
  | nil =>
    obtain rfl : t = fs := h
    exact hno
  | cons p rest ih =>
    rcases reaches_reconcileLoop_cons h with rfl | ⟨e, -, hstep | hloop⟩
    · exact hno
    · exact hno.reconcileStep hstep
    · exact ih (hno.reconcileStep (reconcileStep_reconciledOne fs e)) hloop

end NoFootage

/-- A sweep, stopped or not, brings neither media nor sidecar. -/
theorem Stranded.of_partSwept (h : Stranded fs c) (ht : PartSwept fs t d) : Stranded t c := by
  have hgone : ∀ p, fs.get p = none → t.get p = none := by
    intro p hp
    rcases ht p with hsame | ⟨-, hnone⟩
    · exact hsame.trans hp
    · exact hnone
  exact fun d' hd' => (h d' hd').imp (hgone _) (hgone _)

/-- The sweeps of a reconciliation remove stranded media. -/
theorem Stranded.noFootage (h : Stranded fs c) (hu : Swept fs u .pending)
    (ht : Swept u t .inflight) : NoFootage t c := by
  have hswept : ∀ {a b : Fs} {d}, Stranded a c → d = .pending ∨ d = .inflight → Swept a b d →
      b.get (.queue d c .mp4) = none := by
    intro a b d ha hd hs
    by_cases ho : Orphan a d (.queue d c .mp4)
    · exact hs.gone _ ho
    · rw [hs.rest _ ho]
      rcases ha d hd with hm | hj
      · exact hm
      · exact absurd ⟨c, rfl, hj⟩ ho
  rintro d (rfl | rfl)
  · have hp := hswept h (Or.inl rfl) hu
    rcases ht.partSwept (.queue .pending c .mp4) with hsame | ⟨-, hnone⟩
    · exact hsame.trans hp
    · exact hnone
  · exact hswept (h.of_partSwept hu.partSwept) (Or.inr rfl) ht

/-- A stopped reconciliation leaves stranded media stranded, if it leaves it at all. -/
theorem Stranded.stop_reconcileInflight (hs : Stranded fs c)
    (h : Reaches Nominal reconcileInflight fs t) : Stranded t c := by
  cases reaches_reconcileInflight h with
  | sweep hu hw => exact (hs.of_partSwept hu).of_partSwept hw
  | loop hu hw _ h => exact ((hs.noFootage hu hw).stop_reconcileLoop h).stranded

/-- Reconciliation brings no media back. -/
theorem NoFootage.stop_reconcileInflight (hno : NoFootage fs c)
    (h : Reaches Nominal reconcileInflight fs t) : NoFootage t c := by
  have hgone : ∀ {a b : Fs} {d}, NoFootage a c → PartSwept a b d → NoFootage b c := by
    intro a b d ha hab d' hd'
    rcases hab (.queue d' c .mp4) with hsame | ⟨-, hnone⟩
    · exact hsame.trans (ha d' hd')
    · exact hnone
  cases reaches_reconcileInflight h with
  | sweep hu hw => exact hgone (hgone hno hu) hw
  | loop hu hw _ h => exact (hgone (hgone hno hu.partSwept) hw.partSwept).stop_reconcileLoop h

/-- A complete reconciliation removes stranded media. -/
theorem Stranded.reconcileInflight {v : Except QueueError (List ClipQueueEntry)}
    (hs : Stranded fs c) (h : Runs Nominal reconcileInflight fs v t) : NoFootage t c := by
  obtain ⟨u, w, l, hu, hw, -, hr⟩ := runs_reconcileInflight.mp h
  exact (hs.noFootage hu hw).stop_reconcileLoop (runs_reconcileLoop.mpr hr).reaches

end Perchstation
