import Perchstation.Queue.ScanRules

/-!
# Kept — the clips whose footage is safe

A clip is kept if its media is in exactly one of `pending/` and `inflight/`, with a sidecar beside
it that decodes and has no outcome yet.  A sidecar of an earlier attempt may still lie in the other
directory: a transition that was stopped, or whose last step failed, leaves one there.

Every operation of the store that does not settle or evict the clip keeps it, and a stop leaves it
kept unless it falls between the two renames of a transition.
-/

namespace Perchstation

open Resumption QueueStore

/-- Every sidecar names the clip it is filed under. -/
def Named (fs : Fs) : Prop :=
  ∀ d c e, fs.get (.queue d c .json) = some (.sidecar e) → e.clipId = c

/-- The sidecar of `c` in `d` decodes and has no outcome. -/
def OpenSidecar (fs : Fs) (d : Dir) (c : ClipId) : Prop :=
  ∃ e, fs.get (.queue d c .json) = some (.sidecar e) ∧ e.outcome = none

/-- The clip `c` is kept in `d`, perhaps with an old sidecar in `d'`. -/
structure KeptIn (fs : Fs) (d d' : Dir) (c : ClipId) : Prop where
  media : ∃ m, fs.get (.queue d c .mp4) = some m
  sidecar : OpenSidecar fs d c
  noMedia : fs.get (.queue d' c .mp4) = none
  stale : fs.get (.queue d' c .json) = none ∨ OpenSidecar fs d' c

def Kept (fs : Fs) (c : ClipId) : Prop :=
  KeptIn fs .pending .inflight c ∨ KeptIn fs .inflight .pending c

/-- Media of `c` in `pending/` or `inflight/` has no sidecar beside it. -/
def Apart (fs : Fs) (c : ClipId) : Prop :=
  ∃ d, (d = .pending ∨ d = .inflight) ∧ (∃ m, fs.get (.queue d c .mp4) = some m) ∧
    fs.get (.queue d c .json) = none

/-- A sidecar of `c` has an outcome. -/
def HasOutcome (fs : Fs) (c : ClipId) : Prop :=
  ∃ d e, fs.get (.queue d c .json) = some (.sidecar e) ∧ e.outcome.isSome

variable {fs t u : Fs} {c : ClipId} {d d' : Dir} {e : ClipQueueEntry} {m : Blob} {at_ : DateTime}

/-! ## Names -/

namespace Named

theorem of_subset (h : Named fs)
    (ht : ∀ d c e, t.get (.queue d c .json) = some (.sidecar e) →
      fs.get (.queue d c .json) = some (.sidecar e)) : Named t :=
  fun d c e he => h d c e (ht d c e he)

theorem del (h : Named fs) (p : Path) : Named (fs.del p) := by
  refine h.of_subset fun d c e he => ?_
  rw [FileMap.get_del] at he
  split_ifs at he
  exact he

theorem put (h : Named fs) {p : Path} {b : Blob}
    (hb : ∀ d c e, p = .queue d c .json → b = .sidecar e → e.clipId = c) : Named (fs.put p b) := by
  intro d c e he
  rw [FileMap.get_put] at he
  split_ifs at he with hp
  · exact hb d c e hp.symm (Option.some.inj he)
  · exact h d c e he

theorem put_media (h : Named fs) (d : Dir) (c : ClipId) (m : Blob) :
    Named (fs.put (.queue d c .mp4) m) :=
  h.put fun _ _ _ hp _ => by simp at hp

theorem put_tmp (h : Named fs) (d : Dir) (c : ClipId) (b : Blob) :
    Named (fs.put (.queue d c .jsonTmp) b) :=
  h.put fun _ _ _ hp _ => by simp at hp

theorem put_sidecar (h : Named fs) (d : Dir) (e : ClipQueueEntry) :
    Named (fs.put (.queue d e.clipId .json) (.sidecar e)) := by
  refine h.put fun d' c' e' hp hb => ?_
  obtain ⟨-, hc, -⟩ := Path.queue.inj hp
  rw [← Blob.sidecar.inj hb, hc]

theorem put_bytes (h : Named fs) (p : Path) (data : List UInt8) : Named (fs.put p (.bytes data)) :=
  h.put fun _ _ _ _ hb => by cases hb

theorem replaceSidecar (h : Named fs) (d : Dir) (e : ClipQueueEntry) :
    Named (replaceSidecar fs d e.clipId e) :=
  ((h.put_tmp _ _ _).del _).put_sidecar d e

theorem moveMedia (h : Named fs) : Named (moveMedia fs d d' c m) := (h.del _).put_media _ _ _

theorem mediaReturned (h : Named fs) : Named (mediaReturned fs c) := by
  unfold Perchstation.mediaReturned
  split
  · exact h
  · exact h.moveMedia

theorem movedInflight (h : Named fs) : Named (movedInflight fs m e) :=
  (h.moveMedia.replaceSidecar _ _).del _

theorem movedBack (h : Named fs) : Named (movedBack fs e) :=
  (h.mediaReturned.replaceSidecar _ _).del _

theorem movedDelivered (h : Named fs) : Named (movedDelivered fs e) :=
  (((h.replaceSidecar _ _).del _).del _).put_sidecar _ _

theorem partSwept (h : Named fs) (ht : PartSwept fs t d) : Named t := by
  refine h.of_subset fun d' c e he => ?_
  rcases ht (.queue d' c .json) with hp | ⟨-, hp⟩
  · rw [← hp, he]
  · rw [hp] at he
    cases he

theorem quarantined {data : List UInt8} (h : Named fs) :
    Named (quarantined fs d c (.bytes data)) := by
  unfold Perchstation.quarantined
  dsimp only
  split
  · exact (h.del _).put_bytes _ _
  · exact (((h.del _).put_bytes _ _).del _).put_media _ _ _

theorem picked {o : Option ClipQueueEntry} (h : Named fs) (ht : Picked fs t o) : Named t :=
  h.of_subset ht.subset

end Named

/-! ## What keeps a clip -/

theorem OpenSidecar.of_get (h : t.get (.queue d c .json) = fs.get (.queue d c .json))
    (ho : OpenSidecar fs d c) : OpenSidecar t d c := by
  obtain ⟨e, he, hout⟩ := ho
  exact ⟨e, h.trans he, hout⟩

/-- The two stores have the same media and sidecars of `c` in `pending/` and `inflight/`. -/
def SameLive (fs t : Fs) (c : ClipId) : Prop :=
  ∀ d x, d = .pending ∨ d = .inflight → x.IsMain → t.get (.queue d c x) = fs.get (.queue d c x)

theorem SameClip.live (h : SameClip fs t c) : SameLive fs t c := fun d x _ hx => h d x hx

theorem KeptIn.of_sameLive (h : KeptIn fs d d' c) (hd : d = .pending ∨ d = .inflight)
    (hd' : d' = .pending ∨ d' = .inflight) (hs : SameLive fs t c) : KeptIn t d d' c where
  media := by
    obtain ⟨m, hm⟩ := h.media
    exact ⟨m, (hs d .mp4 hd (Or.inl rfl)).trans hm⟩
  sidecar := h.sidecar.of_get (hs d .json hd (Or.inr rfl))
  noMedia := (hs d' .mp4 hd' (Or.inl rfl)).trans h.noMedia
  stale :=
    have hj := hs d' .json hd' (Or.inr rfl)
    h.stale.imp hj.trans (OpenSidecar.of_get hj)

theorem KeptIn.of_sameClip (h : KeptIn fs .pending .inflight c) (hs : SameClip fs t c) :
    KeptIn t .pending .inflight c :=
  h.of_sameLive (Or.inl rfl) (Or.inr rfl) hs.live

namespace Kept

theorem of_sameLive (h : Kept fs c) (hs : SameLive fs t c) : Kept t c := by
  rcases h with h | h
  · exact Or.inl (h.of_sameLive (Or.inl rfl) (Or.inr rfl) hs)
  · exact Or.inr (h.of_sameLive (Or.inr rfl) (Or.inl rfl) hs)

theorem of_sameClip (h : Kept fs c) (hs : SameClip fs t c) : Kept t c := h.of_sameLive hs.live

/-- A sidecar of a kept clip, in either directory, is an open one. -/
theorem outcome_eq_none (h : Kept fs c) (hd : d = .pending ∨ d = .inflight)
    (he : fs.get (.queue d c .json) = some (.sidecar e)) : e.outcome = none := by
  have hopen : OpenSidecar fs d c → e.outcome = none := by
    rintro ⟨e', he', hout⟩
    rw [he] at he'
    rwa [Blob.sidecar.inj (Option.some.inj he')]
  have hstale : fs.get (.queue d c .json) = none ∨ OpenSidecar fs d c → e.outcome = none :=
    fun h => h.elim (fun hn => by rw [he] at hn; cases hn) hopen
  rcases h with h | h <;> rcases hd with rfl | rfl
  · exact hopen h.sidecar
  · exact hstale h.stale
  · exact hstale h.stale
  · exact hopen h.sidecar

theorem not_undecodable (h : Kept fs c) (hd : d = .pending ∨ d = .inflight) :
    ¬ Undecodable fs (.queue d c .json) := by
  rintro ⟨data, hdata⟩
  have hopen : ¬ OpenSidecar fs d c := by
    rintro ⟨e, he, -⟩
    rw [hdata] at he
    cases he
  have hstale : ¬ (fs.get (.queue d c .json) = none ∨ OpenSidecar fs d c) := by
    rintro (hn | ho)
    · rw [hdata] at hn
      cases hn
    · exact hopen ho
  rcases h with h | h <;> rcases hd with rfl | rfl
  · exact hopen h.sidecar
  · exact hstale h.stale
  · exact hstale h.stale
  · exact hopen h.sidecar

/-- The sweeps leave the media of a kept clip alone. -/
theorem sameClip_of_partSwept (h : Kept fs c) (ht : PartSwept fs t d)
    (hd : d = .pending ∨ d = .inflight) : SameClip fs t c := by
  rintro d' x hx
  rcases ht (.queue d' c x) with hp | ⟨⟨c', hc', hj⟩, hp⟩
  · exact hp
  · obtain ⟨rfl, rfl, rfl⟩ := Path.queue.inj hc'
    rw [hp]
    -- an orphan's sidecar is gone, so this is the directory without the media
    have hside : ∀ a, KeptIn fs a d' c → fs.get (.queue d' c .mp4) = none := fun _ hk => hk.noMedia
    have hthis : ∀ a, KeptIn fs d' a c → False := by
      intro a hk
      obtain ⟨e, he, -⟩ := hk.sidecar
      rw [hj] at he
      cases he
    rcases h with h | h <;> rcases hd with rfl | rfl
    · exact (hthis _ h).elim
    · exact (hside _ h).symm
    · exact (hside _ h).symm
    · exact (hthis _ h).elim

end Kept

/-! ## The transitions -/

theorem keptIn_movedInflight (hout : e.outcome = none) :
    KeptIn (movedInflight fs m e) .inflight .pending e.clipId where
  media := ⟨m, by simp [movedInflight, FileMap.get_del, get_replaceSidecar, get_moveMedia]⟩
  sidecar := ⟨e, by simp [movedInflight, FileMap.get_del, get_replaceSidecar], hout⟩
  noMedia := by simp [movedInflight, FileMap.get_del, get_replaceSidecar, get_moveMedia]
  stale := Or.inl (by simp [movedInflight, FileMap.get_del])

theorem Kept.media_mediaReturned (h : Kept fs c) :
    ∃ m, (mediaReturned fs c).get (.queue .pending c .mp4) = some m := by
  unfold mediaReturned
  cases hm : fs.get (.queue .inflight c .mp4) with
  | none =>
    rcases h with h | h
    · exact h.media
    · obtain ⟨m, hm'⟩ := h.media
      rw [hm] at hm'
      cases hm'
  | some m => exact ⟨m, by simp [get_moveMedia]⟩

theorem noMedia_mediaReturned :
    (mediaReturned fs c).get (.queue .inflight c .mp4) = none := by
  unfold mediaReturned
  cases hm : fs.get (.queue .inflight c .mp4) with
  | none => exact hm
  | some m => simp [get_moveMedia]

theorem sidecar_mediaReturned :
    (mediaReturned fs c).get (.queue d c .json) = fs.get (.queue d c .json) := by
  unfold mediaReturned
  split
  · rfl
  · simp [get_moveMedia]

theorem Kept.keptIn_movedBack (h : Kept fs e.clipId) (hout : e.outcome = none) :
    KeptIn (movedBack fs e) .pending .inflight e.clipId where
  media := by
    obtain ⟨m, hm⟩ := h.media_mediaReturned
    exact ⟨m, by simp [movedBack, FileMap.get_del, get_replaceSidecar, hm]⟩
  sidecar := ⟨e, by simp [movedBack, FileMap.get_del, get_replaceSidecar], hout⟩
  noMedia := by
    simp [movedBack, FileMap.get_del, get_replaceSidecar, noMedia_mediaReturned]
  stale := Or.inl (by simp [movedBack, FileMap.get_del])

theorem hasOutcome_movedDelivered (hout : e.outcome.isSome) :
    HasOutcome (movedDelivered fs e) e.clipId :=
  ⟨.delivered, e, by simp [movedDelivered, FileMap.get_put], hout⟩

/-- A complete transition of an open entry keeps every clip that was kept. -/
theorem kept_movedInflight (h : Kept fs c)
    (he : e.clipId = c → e.outcome = none) : Kept (movedInflight fs m e) c := by
  by_cases hc : c = e.clipId
  · subst hc
    exact Or.inr (keptIn_movedInflight (he rfl))
  · exact h.of_sameClip (sameClip_movedInflight hc)

theorem kept_movedBack (h : Kept fs c) (he : e.clipId = c → e.outcome = none) :
    Kept (movedBack fs e) c := by
  by_cases hc : c = e.clipId
  · subst hc
    exact Or.inl (h.keptIn_movedBack (he rfl))
  · exact h.of_sameClip (sameClip_movedBack hc)

/-! ## Reconciliation -/

/-- The loop over `inflight/` keeps `c` and, if it comes to its end, has moved it to `pending/`. -/
theorem kept_reconciled {l : List Path} {v : Except QueueError (List ClipQueueEntry)}
    (hl : ∀ p ∈ l, ∃ s, p = .queue .inflight s .json) (hfs : Named fs) (hk : Kept fs c)
    (h : (v, t) = reconciled l fs) :
    Named t ∧ Kept t c ∧
      ((∃ r, v = .ok r) → Path.queue .inflight c .json ∈ l ∨ KeptIn fs .pending .inflight c →
        KeptIn t .pending .inflight c) := by
  induction l generalizing fs v t with
  | nil =>
    obtain ⟨rfl, rfl⟩ := Prod.mk.inj h
    exact ⟨hfs, hk, fun _ h => h.resolve_left (by simp)⟩
  | cons p rest ih =>
    have hrest : ∀ q ∈ rest, ∃ s, q = .queue .inflight s .json :=
      fun q hq => hl q (List.mem_cons_of_mem _ hq)
    obtain ⟨s, rfl⟩ := hl p List.mem_cons_self
    rw [reconciled] at h
    cases hr : sidecarAt fs (.queue .inflight s .json) with
    | error err =>
      -- the loop ends early, with the files as they are
      rw [hr] at h
      obtain ⟨rfl, rfl⟩ := Prod.mk.inj h
      refine ⟨hfs, hk, ?_⟩
      rintro ⟨_, hr⟩
      cases hr
    | ok e =>
      rw [hr] at h
      have hget := sidecarAt_eq_ok_iff.mp hr
      obtain rfl := hfs _ _ _ hget
      by_cases ht : e.isTerminal = true
      · -- a finished clip goes to `delivered/`, so it is another one
        simp only [ht, if_true] at h
        have hc : c ≠ e.clipId := by
          rintro rfl
          rw [ClipQueueEntry.isTerminal, hk.outcome_eq_none (Or.inr rfl) hget] at ht
          cases ht
        have hsame : SameClip fs (movedDelivered fs e) c := sameClip_movedDelivered hc
        obtain ⟨h1, h2, h3⟩ := ih hrest hfs.movedDelivered (hk.of_sameClip hsame) h
        refine ⟨h1, h2, fun hv hm => h3 hv ?_⟩
        rcases hm with hm | hm
        · rcases List.mem_cons.mp hm with hm | hm
          · exact absurd (Path.queue.inj hm).2.1 hc
          · exact Or.inl hm
        · exact Or.inr (hm.of_sameClip hsame)
      · -- the clip goes back to `pending/`, be it `c` or another
        simp only [ht, Bool.false_eq_true, if_false] at h
        have hout : (requeued e).outcome = none := by
          simpa [requeued, ClipQueueEntry.isTerminal] using ht
        rcases hrec : reconciled rest (movedBack fs (requeued e)) with ⟨r, u⟩
        rw [hrec] at h
        have hut : t = u ∧ ((∃ w, v = .ok w) → ∃ w, r = .ok w) := by
          cases r with
          | error err =>
            obtain ⟨rfl, rfl⟩ := Prod.mk.inj h
            refine ⟨rfl, ?_⟩
            rintro ⟨_, hw⟩
            cases hw
          | ok w => exact ⟨(Prod.mk.inj h).2, fun _ => ⟨w, rfl⟩⟩
        obtain ⟨rfl, hv⟩ := hut
        obtain ⟨h1, h2, h3⟩ :=
          ih hrest hfs.movedBack (kept_movedBack (e := requeued e) hk fun _ => hout) hrec.symm
        refine ⟨h1, h2, fun hok hm => h3 (hv hok) ?_⟩
        by_cases hc : c = e.clipId
        · subst hc
          exact Or.inr (Kept.keptIn_movedBack (e := requeued e) hk hout)
        · rcases hm with hm | hm
          · rcases List.mem_cons.mp hm with hm | hm
            · exact absurd (Path.queue.inj hm).2.1 hc
            · exact Or.inl hm
          · exact Or.inr (hm.of_sameClip (sameClip_movedBack (e := requeued e) hc))

/-- A complete reconciliation keeps `c`; if it succeeds, `c` is in `pending/`. -/
theorem kept_reconcileInflight {v : Except QueueError (List ClipQueueEntry)} (hfs : Named fs)
    (hk : Kept fs c) (h : Runs Nominal reconcileInflight fs v t) :
    Named t ∧ Kept t c ∧ ((∃ r, v = .ok r) → KeptIn t .pending .inflight c) := by
  obtain ⟨u, w, l, hu, hw, hl, hr⟩ := runs_reconcileInflight.mp h
  have hku : Kept u c := hk.of_sameClip (hk.sameClip_of_partSwept hu.partSwept (Or.inl rfl))
  have hkw : Kept w c := hku.of_sameClip (hku.sameClip_of_partSwept hw.partSwept (Or.inr rfl))
  have hpaths : ∀ p ∈ sortPaths (l.filter (·.hasExt .json)), ∃ s, p = .queue .inflight s .json := by
    intro p hp
    obtain ⟨s, hs, -⟩ := (mem_sidecars hl).mp (mem_sortPaths.mp hp)
    exact ⟨s, hs⟩
  obtain ⟨h1, h2, h3⟩ := kept_reconciled hpaths
    ((hfs.partSwept hu.partSwept).partSwept hw.partSwept) hkw hr
  refine ⟨h1, h2, fun hv => h3 hv ?_⟩
  rcases hkw with hkw | hkw
  · exact Or.inr hkw
  · obtain ⟨e, he, -⟩ := hkw.sidecar
    exact Or.inl (mem_sortPaths.mpr ((mem_sidecars hl).mpr ⟨c, rfl, by simp [he]⟩))

end Perchstation
