import Perchstation.Queue.Holdings
import Perchstation.Queue.Order
import Perchstation.Station

/-!
# Recovery — what a reconciliation leaves

A reconciliation sweeps the media without a sidecar and brings every clip of `inflight/` back to
`pending/`, or on to `delivered/` if it is terminal.  It does so clip by clip, and once done it finds
nothing more to do.
-/

namespace Perchstation

open Resumption QueueStore Sorting

variable {fs t : Fs} {c : ClipId} {e : ClipQueueEntry} {f g : Holdings}
  {entries : List ClipQueueEntry}

/-- The sidecar of `c` in `inflight/` is there to be requeued. -/
def Requeues (fs : Fs) (c : ClipId) (e : ClipQueueEntry) : Prop :=
  fs.get (.queue .inflight c .json) = some (.sidecar e) ∧ e.isTerminal = false

/-- The sidecar of `c` in `inflight/` is there to be finished. -/
def Finishes (fs : Fs) (c : ClipId) (e : ClipQueueEntry) : Prop :=
  fs.get (.queue .inflight c .json) = some (.sidecar e) ∧ e.isTerminal = true

/-- The media of a clip of `inflight/`: beside its sidecar, or in a pending pair of the same id where
a return to `pending/` was stopped on its way. -/
def HasMedia (fs : Fs) (c : ClipId) (m : Blob) : Prop :=
  fs.get (.queue .inflight c .mp4) = some m ∨
    fs.get (.queue .inflight c .mp4) = none ∧ (fs.get (.queue .pending c .json)).isSome ∧
      fs.get (.queue .pending c .mp4) = some m

/-- The store after a reconciliation that returned `entries`. -/
structure Recovered (fs t : Fs) (entries : List ClipQueueEntry) : Prop where
  requeued : ∀ c e m, Requeues fs c e → HasMedia fs c m →
    t.get (.queue .pending c .mp4) = some m ∧
      t.get (.queue .pending c .json) =
        some (.sidecar { e with nextAttemptAfter := none, lastError := none })
  finished : ∀ c e, Finishes fs c e →
    t.get (.queue .delivered c .json) = some (.sidecar e) ∧
      t.get (.queue .inflight c .mp4) = none ∧
      ∀ x, t.get (.queue .pending c x) = none ∨
        t.get (.queue .pending c x) = fs.get (.queue .pending c x)
  pending : ∀ c b m, (∀ e, ¬ Requeues fs c e) → fs.get (.queue .pending c .json) = some b →
    fs.get (.queue .pending c .mp4) = some m →
      t.get (.queue .pending c .json) = some b ∧ t.get (.queue .pending c .mp4) = some m
  delivered : ∀ c x, (∀ e, ¬ Finishes fs c e) →
    t.get (.queue .delivered c x) = fs.get (.queue .delivered c x)
  inflight : ∀ c, t.get (.queue .inflight c .json) = none ∧ t.get (.queue .inflight c .mp4) = none
  listed : ∀ e', e' ∈ entries ↔
    ∃ c e, Requeues fs c e ∧ e' = { e with nextAttemptAfter := none, lastError := none }
  sorted : Increasing (fun e => (Path.sidecar .inflight e.clipId).fileName) entries

/-! ## One clip -/

/-- The files of a clip after a reconciliation. -/
def recoveredFiles (f : Holdings) : Holdings :=
  finishedFiles (sweptFiles .inflight (sweptFiles .pending f))

theorem sweptFiles_json (d d' : Dir) : sweptFiles d f d' .json = f d' .json :=
  if_neg fun h => by cases h.2.1

theorem sweptFiles_of_ne {d d' : Dir} {x : Ext} (h : d' ≠ d ∨ x ≠ .mp4) :
    sweptFiles d f d' x = f d' x := by
  refine if_neg fun hp => ?_
  rcases h with h | h
  · exact h hp.1
  · exact h hp.2.1

theorem sweptFiles_media (d : Dir) :
    sweptFiles d f d .mp4 = if f d .json = none then none else f d .mp4 := by
  unfold sweptFiles
  simp

/-- A sweep leaves media with a sidecar alone. -/
theorem sweptFiles_eq_self {d : Dir} (h : f d .json = none → f d .mp4 = none) :
    sweptFiles d f = f := by
  funext d' x
  unfold sweptFiles
  split_ifs with hp
  · obtain ⟨rfl, rfl, hnone⟩ := hp
    exact (h hnone).symm
  · rfl

/-- The files of a clip without a sidecar in `inflight/`. -/
theorem recoveredFiles_of_none (h : f .inflight .json = none) :
    recoveredFiles f = sweptFiles .inflight (sweptFiles .pending f) := by
  rw [recoveredFiles, finishedFiles, sweptFiles_json, sweptFiles_json, h]

theorem recoveredFiles_of_terminal (h : f .inflight .json = some (.sidecar e))
    (hterm : e.isTerminal = true) :
    recoveredFiles f = deliveredFiles (sweptFiles .inflight (sweptFiles .pending f)) e := by
  rw [recoveredFiles, finishedFiles, sweptFiles_json, sweptFiles_json, h]
  exact if_pos hterm

theorem recoveredFiles_of_open (h : f .inflight .json = some (.sidecar e))
    (hterm : e.isTerminal = false) :
    recoveredFiles f =
      backFiles (sweptFiles .inflight (sweptFiles .pending f)) (requeued e) := by
  rw [recoveredFiles, finishedFiles, sweptFiles_json, sweptFiles_json, h]
  exact if_neg (by rw [hterm]; decide)

/-- The sidecar of the clip in `inflight/`, if there is one, decodes. -/
def LegibleInflight (f : Holdings) : Prop :=
  f .inflight .json = none ∨ ∃ e, f .inflight .json = some (.sidecar e)

/-- A clip is settled if it has no files in `inflight/` and no media without a sidecar. -/
structure Settled (f : Holdings) : Prop where
  sidecar : f .inflight .json = none
  media : f .inflight .mp4 = none
  paired : f .pending .json = none → f .pending .mp4 = none

/-- The clip stays as the sweeps leave it, is finished, or is requeued. -/
theorem LegibleInflight.recovered (h : LegibleInflight f) :
    (f .inflight .json = none ∧
        recoveredFiles f = sweptFiles .inflight (sweptFiles .pending f)) ∨
      ∃ e, f .inflight .json = some (.sidecar e) ∧
        (e.isTerminal = true ∧ recoveredFiles f =
            deliveredFiles (sweptFiles .inflight (sweptFiles .pending f)) e ∨
          e.isTerminal = false ∧ recoveredFiles f =
            backFiles (sweptFiles .inflight (sweptFiles .pending f)) (requeued e)) := by
  rcases h with hnone | ⟨e, he⟩
  · exact Or.inl ⟨hnone, recoveredFiles_of_none hnone⟩
  · refine Or.inr ⟨e, he, ?_⟩
    cases hterm : e.isTerminal with
    | true => exact Or.inl ⟨rfl, recoveredFiles_of_terminal he hterm⟩
    | false => exact Or.inr ⟨rfl, recoveredFiles_of_open he hterm⟩

/-- The sweep of `inflight/` does not touch `pending/`. -/
theorem swept_pending (f : Holdings) (x : Ext) :
    sweptFiles .inflight (sweptFiles .pending f) .pending x = sweptFiles .pending f .pending x :=
  sweptFiles_of_ne (Or.inl (by decide))

/-- The sweeps leave no media in `pending/` without a sidecar. -/
theorem swept_paired (hp : sweptFiles .inflight (sweptFiles .pending f) .pending .json = none) :
    sweptFiles .inflight (sweptFiles .pending f) .pending .mp4 = none := by
  rw [swept_pending, sweptFiles_json] at hp
  rw [swept_pending, sweptFiles_media, if_pos hp]

/-- A reconciliation settles a clip. -/
theorem LegibleInflight.settled (h : LegibleInflight f) : Settled (recoveredFiles f) := by
  rcases h.recovered with ⟨hnone, hf⟩ | ⟨e, he, ⟨-, hf⟩ | ⟨-, hf⟩⟩
  · rw [hf]
    refine ⟨?_, ?_, swept_paired⟩
    · rw [sweptFiles_json, sweptFiles_json, hnone]
    · rw [sweptFiles_media, sweptFiles_json, if_pos hnone]
  · rw [hf]
    exact ⟨rfl, rfl, swept_paired⟩
  · rw [hf]
    exact ⟨rfl, rfl, fun hp => by cases hp⟩

/-- A requeued clip has its media, cleared of its failure, in `pending/`. -/
theorem recoveredFiles_requeued {m : Blob} (hs : f .inflight .json = some (.sidecar e))
    (hterm : e.isTerminal = false)
    (hm : f .inflight .mp4 = some m ∨
      f .inflight .mp4 = none ∧ (f .pending .json).isSome ∧ f .pending .mp4 = some m) :
    recoveredFiles f .pending .mp4 = some m ∧
      recoveredFiles f .pending .json = some (.sidecar (requeued e)) := by
  rw [recoveredFiles_of_open hs hterm]
  refine ⟨?_, rfl⟩
  -- the media has a sidecar beside it, so it is no orphan
  have hinflight : sweptFiles .inflight (sweptFiles .pending f) .inflight .mp4 =
      f .inflight .mp4 := by
    rw [sweptFiles_media, sweptFiles_json, sweptFiles_of_ne (Or.inl (by decide)), hs]
    exact if_neg (by simp)
  show (sweptFiles .inflight (sweptFiles .pending f) .inflight .mp4).or
    (sweptFiles .inflight (sweptFiles .pending f) .pending .mp4) = some m
  rw [hinflight]
  rcases hm with hm | ⟨hnone, hsome, hm⟩
  · rw [hm, Option.some_or]
  · rw [hnone, Option.none_or, swept_pending, sweptFiles_media]
    exact (if_neg (Option.isSome_iff_ne_none.mp hsome)).trans hm

/-- A finished clip is in `delivered/`, and nothing of it has come to `pending/`. -/
theorem recoveredFiles_finished (hs : f .inflight .json = some (.sidecar e))
    (hterm : e.isTerminal = true) :
    recoveredFiles f .delivered .json = some (.sidecar e) ∧
      recoveredFiles f .inflight .mp4 = none ∧
      ∀ x, recoveredFiles f .pending x = none ∨ recoveredFiles f .pending x = f .pending x := by
  rw [recoveredFiles_of_terminal hs hterm]
  refine ⟨rfl, rfl, fun x => ?_⟩
  show sweptFiles .inflight (sweptFiles .pending f) .pending x = none ∨
    sweptFiles .inflight (sweptFiles .pending f) .pending x = f .pending x
  rw [swept_pending]
  unfold sweptFiles
  split_ifs
  · exact Or.inl rfl
  · exact Or.inr rfl

/-- A pair in `pending/` stays, unless the clip is requeued. -/
theorem recoveredFiles_pending (h : LegibleInflight f)
    (hnone : ∀ e, ¬(f .inflight .json = some (.sidecar e) ∧ e.isTerminal = false))
    (hs : f .pending .json ≠ none) (x : Ext) : recoveredFiles f .pending x = f .pending x := by
  have hkept : sweptFiles .inflight (sweptFiles .pending f) .pending x = f .pending x := by
    rw [swept_pending, sweptFiles_eq_self]
    exact fun hgone => absurd hgone hs
  rcases h.recovered with ⟨-, hf⟩ | ⟨e, he, ⟨-, hf⟩ | ⟨hterm, -⟩⟩
  · rw [hf, hkept]
  · rw [hf]
    exact hkept
  · exact absurd ⟨he, hterm⟩ (hnone e)

/-- A record in `delivered/` stays, unless the clip is finished. -/
theorem recoveredFiles_delivered (h : LegibleInflight f)
    (hnone : ∀ e, ¬(f .inflight .json = some (.sidecar e) ∧ e.isTerminal = true)) (x : Ext) :
    recoveredFiles f .delivered x = f .delivered x := by
  have hkept : sweptFiles .inflight (sweptFiles .pending f) .delivered x = f .delivered x := by
    rw [sweptFiles_of_ne (Or.inl (by decide)), sweptFiles_of_ne (Or.inl (by decide))]
  rcases h.recovered with ⟨-, hf⟩ | ⟨e, he, ⟨hterm, -⟩ | ⟨-, hf⟩⟩
  · rw [hf, hkept]
  · exact absurd ⟨he, hterm⟩ (hnone e)
  · rw [hf]
    exact hkept

/-! ## The whole store -/

theorem Legible.legibleInflight (h : Legible fs) (c : ClipId) : LegibleInflight (holdings fs c) := by
  by_cases hs : (fs.get (.queue .inflight c .json)).isSome
  · exact Or.inr (h .inflight c (by decide) hs)
  · rw [Option.not_isSome_iff_eq_none] at hs
    exact Or.inl hs

/-- The entries of a listing of `inflight/` that are requeued, in file-name order. -/
theorem requeued_sorted {l : List Path} (hl : ∀ p ∈ l, NamedSidecar fs p)
    (hsorted : Increasing Path.fileName l) :
    Increasing (fun e => (Path.sidecar .inflight e.clipId).fileName)
      (l.filterMap (requeuedAt fs)) := by
  unfold Increasing
  rw [List.pairwise_filterMap]
  have hname : ∀ p ∈ l, ∀ e, requeuedAt fs p = some e →
      (Path.sidecar .inflight e.clipId).fileName = p.fileName := by
    intro p hp e he
    obtain ⟨e', rfl, hget⟩ := hl p hp
    rw [requeuedAt, entryAt_sidecar.mpr hget] at he
    dsimp only at he
    split_ifs at he
    rw [← Option.some.inj he]
    rfl
  refine hsorted.imp_of_mem ?_
  intro p q hp hq hlt e he e' he'
  show (Path.sidecar .inflight e.clipId).fileName < (Path.sidecar .inflight e'.clipId).fileName
  rw [hname _ hp e he, hname _ hq e' he']
  exact hlt

/-- A reconciliation of a store with proper names, clip by clip. -/
theorem runs_reconcileInflight_files (h : Legible fs) (hn : Named fs)
    {v : Except QueueError (List ClipQueueEntry)} (hrun : Runs Nominal reconcileInflight fs v t) :
    SameOutside fs t ∧ (∀ c, holdings t c = recoveredFiles (holdings fs c)) ∧
      ∃ entries, v = .ok entries ∧
        (∀ e', e' ∈ entries ↔ ∃ c e, Requeues fs c e ∧ e' = requeued e) ∧
        Increasing (fun e => (Path.sidecar .inflight e.clipId).fileName) entries := by
  obtain ⟨u, w, l, hu, hw, hl, hr⟩ := runs_reconcileInflight.mp hrun
  -- the two sweeps leave the sidecars of `inflight/` alone
  have hside : ∀ c, w.get (.queue .inflight c .json) = fs.get (.queue .inflight c .json) :=
    fun c => hw.sidecar.trans hu.sidecar
  have hmem : ∀ p, p ∈ sortPaths (l.filter (·.hasExt .json)) ↔
      ∃ c, p = .queue .inflight c .json ∧ (w.get p).isSome := by
    intro p
    rw [mem_sortPaths, mem_sidecars hl]
  have hnamed : ∀ p ∈ sortPaths (l.filter (·.hasExt .json)), NamedSidecar w p := by
    intro p hp
    obtain ⟨c, rfl, hs⟩ := (hmem p).mp hp
    rw [hside] at hs
    obtain ⟨e, he⟩ := h .inflight c (by decide) hs
    obtain rfl := hn _ c e he
    exact ⟨e, rfl, (hside _).trans he⟩
  have hnd := nodup_sortPaths (hl.nodup.filter (·.hasExt .json))
  -- so the listing has each file name once, and the loop's order is strict
  have hnames : ((l.filter (·.hasExt .json)).map Path.fileName).Nodup := by
    refine List.Nodup.map_on (fun p hp q hq heq => ?_) (hl.nodup.filter _)
    obtain ⟨c, rfl, -⟩ := (hmem p).mp (mem_sortPaths.mpr hp)
    obtain ⟨c', rfl, -⟩ := (hmem q).mp (mem_sortPaths.mpr hq)
    rw [fileName_queue_inj heq]
  have hsorted : Increasing Path.fileName (sortPaths (l.filter (·.hasExt .json))) :=
    increasing_insertionSort (fun _ _ => Iff.rfl) hnames
  obtain ⟨hv, hout, hclips⟩ := reconciled_files hnamed hnd
  obtain ⟨rfl, rfl⟩ := Prod.mk.inj hr
  refine ⟨(hu.sameOutside.trans hw.sameOutside).trans hout, fun c => ?_, _, hv, fun e' => ?_,
    requeued_sorted hnamed hsorted⟩
  · have hswept : holdings w c = sweptFiles .inflight (sweptFiles .pending (holdings fs c)) := by
      rw [hw.holdings, hu.holdings]
    rw [hclips, hswept]
    split_ifs with hc
    · rfl
    · -- no sidecar, nothing to finish
      rw [recoveredFiles_of_none]
      by_contra hsome
      refine hc ((hmem _).mpr ⟨c, rfl, ?_⟩)
      rw [hside, Option.isSome_iff_ne_none]
      exact hsome
  · rw [List.mem_filterMap]
    constructor
    · rintro ⟨p, hp, he'⟩
      obtain ⟨e, rfl, hget⟩ := hnamed p hp
      rw [requeuedAt, entryAt_sidecar.mpr hget] at he'
      dsimp only at he'
      split_ifs at he' with hterm
      exact ⟨_, e, ⟨(hside _).symm.trans hget, Bool.not_eq_true _ ▸ hterm⟩,
        (Option.some.inj he').symm⟩
    · rintro ⟨c, e, ⟨hget, hterm⟩, rfl⟩
      have hget' := (hside c).trans hget
      refine ⟨_, (hmem _).mpr ⟨c, rfl, by rw [hget']; rfl⟩, ?_⟩
      rw [requeuedAt, entryAt_sidecar.mpr hget']
      exact if_neg (by rw [hterm]; decide)

/-- The files of each clip, read as what the reconciliation did. -/
theorem recovered_of_files (h : Legible fs)
    (hclips : ∀ c, holdings t c = recoveredFiles (holdings fs c))
    (hlisted : ∀ e', e' ∈ entries ↔ ∃ c e, Requeues fs c e ∧ e' = requeued e)
    (hsorted : Increasing (fun e => (Path.sidecar .inflight e.clipId).fileName) entries) :
    Recovered fs t entries := by
  have hget : ∀ d c x, t.get (.queue d c x) = recoveredFiles (holdings fs c) d x :=
    fun d c x => congrFun (congrFun (hclips c) d) x
  refine ⟨?_, ?_, ?_, ?_, ?_, hlisted, hsorted⟩
  · rintro c e m ⟨hs, hterm⟩ hm
    rw [hget, hget]
    exact recoveredFiles_requeued (f := holdings fs c) hs hterm hm
  · rintro c e ⟨hs, hterm⟩
    simp only [hget]
    exact recoveredFiles_finished (f := holdings fs c) hs hterm
  · intro c b m hnone hs hm
    have hsome : holdings fs c .pending .json ≠ none := by
      rw [holdings, hs]
      simp
    rw [hget, hget, recoveredFiles_pending (h.legibleInflight c) hnone hsome,
      recoveredFiles_pending (h.legibleInflight c) hnone hsome]
    exact ⟨hs, hm⟩
  · intro c x hnone
    rw [hget, recoveredFiles_delivered (h.legibleInflight c) hnone]
    rfl
  · intro c
    obtain ⟨hs, hm, -⟩ := (h.legibleInflight c).settled
    rw [hget, hget]
    exact ⟨hs, hm⟩

/-- A store whose clips are settled is left as it is, and nothing is returned. -/
theorem runs_reconcileInflight_settled (hsettled : ∀ c, Settled (holdings fs c))
    {v : Except QueueError (List ClipQueueEntry)} (hrun : Runs Nominal reconcileInflight fs v t) :
    v = .ok [] ∧ t = fs := by
  obtain ⟨u, w, l, hu, hw, hl, hr⟩ := runs_reconcileInflight.mp hrun
  obtain rfl : u = fs := eq_of_holdings hu.sameOutside fun c => by
    rw [hu.holdings, sweptFiles_eq_self (hsettled c).paired]
  obtain rfl : w = u := eq_of_holdings hw.sameOutside fun c => by
    rw [hw.holdings, sweptFiles_eq_self fun _ => (hsettled c).media]
  have hnone : l.filter (·.hasExt .json) = [] := by
    refine List.filter_eq_nil_iff.mpr fun p hp hx => ?_
    obtain ⟨c, rfl, hs⟩ := (mem_sidecars hl).mp (List.mem_filter.mpr ⟨hp, hx⟩)
    have hgone : w.get (.queue .inflight c .json) = none := (hsettled c).sidecar
    rw [hgone] at hs
    cases hs
  rw [hnone] at hr
  exact Prod.mk.inj hr

/-! ## A whole reconciliation -/

/-- On a store whose sidecars decode and bear their own names a reconciliation succeeds, leaves every
clip recovered and returns what it requeued; a second one does nothing. -/
theorem reconcileInflight_recovers (h : Legible fs) (hn : Named fs) :
    (∃ v t, Runs Nominal reconcileInflight fs v t) ∧
      ∀ v t, Runs Nominal reconcileInflight fs v t →
        ∃ entries, v = .ok entries ∧ Recovered fs t entries ∧
          ∀ v' t', Runs Nominal reconcileInflight t v' t' → v' = .ok [] ∧ t' = t := by
  refine ⟨exists_runs_reconcileInflight fs, fun v t hrun => ?_⟩
  obtain ⟨-, hclips, entries, rfl, hlisted, hsorted⟩ := runs_reconcileInflight_files h hn hrun
  refine ⟨entries, rfl, recovered_of_files h hclips hlisted hsorted, fun v' t' hrun' => ?_⟩
  refine runs_reconcileInflight_settled (fun c => ?_) hrun'
  rw [hclips]
  exact (h.legibleInflight c).settled

/-- A clip that was being uploaded when the station stopped. -/
def stopped : Fs :=
  (FileMap.empty.put (.queue .inflight "c1" .json) (.sidecar Station.firstEntry)).put
    (.queue .inflight "c1" .mp4) Station.footage

theorem reconcileInflight_recovers_stopped :
    (∃ v t, Runs Nominal reconcileInflight stopped v t) ∧
      ∀ v t, Runs Nominal reconcileInflight stopped v t →
        ∃ entries, v = .ok entries ∧ Recovered stopped t entries ∧
          ∀ v' t', Runs Nominal reconcileInflight t v' t' → v' = .ok [] ∧ t' = t := by
  have hempty : Named FileMap.empty := fun _ _ _ he => by simp at he
  have hnamed : Named stopped :=
    (hempty.put_sidecar .inflight Station.firstEntry).put_media .inflight "c1" Station.footage
  have hlegible : Legible stopped := by
    intro d c hd hs
    rw [stopped, FileMap.get_put, if_neg (by simp)] at hs ⊢
    exact Legible.empty.put_sidecar _ _ _ d c hd hs
  exact reconcileInflight_recovers hlegible hnamed

end Perchstation
