import Perchstation.Queue.ScanRules

/-!
# Recovery rules — when a reconciliation succeeds

The loop over `inflight/` comes to its end unless it meets a sidecar that does not decode, or one that
an earlier sidecar has removed by carrying its clip-id.
-/

namespace Perchstation

open Resumption QueueStore

variable {fs t u w : Fs} {l : List Path} {c s : ClipId} {e : ClipQueueEntry}

/-- Finishing or returning an entry takes one sidecar out of `inflight/`, the one of its clip-id. -/
theorem inflight_movedDelivered :
    (movedDelivered fs e).get (.queue .inflight s .json) =
      if s = e.clipId then none else fs.get (.queue .inflight s .json) := by
  by_cases hs : s = e.clipId
  · subst hs
    simp [movedDelivered, FileMap.get_put, FileMap.get_del]
  · rw [if_neg hs]
    exact (sameClip_movedDelivered hs).sidecar _

theorem inflight_movedBack :
    (movedBack fs e).get (.queue .inflight s .json) =
      if s = e.clipId then none else fs.get (.queue .inflight s .json) := by
  by_cases hs : s = e.clipId
  · subst hs
    simp [movedBack, FileMap.get_del]
  · rw [if_neg hs]
    exact (sameClip_movedBack hs).sidecar _

/-- The sidecar `p` does not name the clip that `q` is filed under. -/
def Spares (fs : Fs) (p q : Path) : Prop :=
  ∀ e, fs.get p = some (.sidecar e) → Path.queue .inflight e.clipId .json ≠ q

/-- The loop comes to its end exactly if every sidecar decodes and none names one that follows. -/
theorem reconciled_ok_iff (hl : ∀ p ∈ l, ∃ s, p = .queue .inflight s .json) :
    (∃ r, (reconciled l fs).1 = .ok r) ↔
      (∀ p ∈ l, ∃ e, fs.get p = some (.sidecar e)) ∧ l.Pairwise (Spares fs) := by
  induction l generalizing fs with
  | nil => simp [reconciled]
  | cons p rest ih =>
    have hrest : ∀ q ∈ rest, ∃ s, q = .queue .inflight s .json :=
      fun q hq => hl q (List.mem_cons_of_mem _ hq)
    rw [reconciled, List.pairwise_cons]
    cases hr : sidecarAt fs p with
    | error err =>
      -- the loop stops at a sidecar that does not decode
      constructor
      · rintro ⟨r, ⟨⟩⟩
      · rintro ⟨hdec, -⟩
        obtain ⟨e, he⟩ := hdec p List.mem_cons_self
        rw [sidecarAt_eq_ok_iff.mpr he] at hr
        cases hr
    | ok e =>
      have hget := sidecarAt_eq_ok_iff.mp hr
      -- the rest is read from a store that lacks the sidecar of `e.clipId`
      have hstep : ∀ fs' : Fs, (∀ s, fs'.get (.queue .inflight s .json) =
            if s = e.clipId then none else fs.get (.queue .inflight s .json)) →
          ((∃ r, (reconciled rest fs').1 = .ok r) ↔
            (∀ q ∈ p :: rest, ∃ e, fs.get q = some (.sidecar e)) ∧
              (∀ q ∈ rest, Spares fs p q) ∧ rest.Pairwise (Spares fs)) := by
        intro fs' hfs'
        rw [ih hrest]
        have hsame : (∀ q ∈ rest, Path.queue .inflight e.clipId .json ≠ q) →
            ∀ q ∈ rest, fs'.get q = fs.get q := by
          intro hne q hq
          obtain ⟨s, rfl⟩ := hrest q hq
          rw [hfs', if_neg]
          rintro rfl
          exact hne _ hq rfl
        have hspares : ∀ (hq : ∀ q ∈ rest, fs'.get q = fs.get q),
            rest.Pairwise (Spares fs') ↔ rest.Pairwise (Spares fs) := by
          intro hq
          apply List.Pairwise.iff_of_mem
          intro a b ha _
          rw [Spares, Spares, hq a ha]
        constructor
        · -- what follows decodes in the later store, so none of it is the sidecar that is gone
          rintro ⟨hdec, hpair⟩
          have hne : ∀ q ∈ rest, Path.queue .inflight e.clipId .json ≠ q := by
            rintro q hq rfl
            obtain ⟨e', he'⟩ := hdec _ hq
            rw [hfs', if_pos rfl] at he'
            cases he'
          have hq := hsame hne
          refine ⟨fun q hmem => ?_, fun q hmem e' he' => ?_, (hspares hq).mp hpair⟩
          · rcases List.mem_cons.mp hmem with rfl | hmem
            · exact ⟨e, hget⟩
            · rw [← hq q hmem]
              exact hdec q hmem
          · obtain rfl := sidecar_unique hget he'
            exact hne q hmem
        · rintro ⟨hdec, hp, hpair⟩
          have hq := hsame fun q hmem => hp q hmem e hget
          refine ⟨fun q hmem => ?_, (hspares hq).mpr hpair⟩
          rw [hq q hmem]
          exact hdec q (List.mem_cons_of_mem _ hmem)
      dsimp only
      split_ifs with ht
      · -- a finished clip goes to `delivered/`, any other back to `pending/`
        exact hstep _ fun s => inflight_movedDelivered
      · rw [← hstep (movedBack fs (requeued e)) fun s => by
          rw [inflight_movedBack, requeued_clipId]]
        rcases reconciled rest (movedBack fs (requeued e)) with ⟨_ | r, u⟩
        · simp
        · simp

/-- A sweep of a directory always has a result. -/
theorem exists_swept (fs : Fs) (d : Dir) : ∃ t, Swept fs t d := by
  obtain ⟨l, hl⟩ := fs.exists_lists fun p => p.inDir d
  have hrun : Runs Nominal (sweepOrphanMedia d) fs (.ok ()) (fs.delAll (orphansOf fs l)) := by
    simp only [sweepOrphanMedia, runs_bind, runs_readDir, Nominal]
    exact ⟨.ok l, fs, ⟨rfl, l, hl, rfl⟩, runs_sweepLoop.mpr ⟨rfl, rfl⟩⟩
  exact ⟨_, (runs_sweepOrphanMedia.mp hrun).2⟩

theorem exists_runs_reconcileInflight (fs : Fs) :
    ∃ v t, Runs Nominal reconcileInflight fs v t := by
  obtain ⟨u, hu⟩ := exists_swept fs .pending
  obtain ⟨w, hw⟩ := exists_swept u .inflight
  obtain ⟨l, hl⟩ := w.exists_lists fun p => p.inDir .inflight
  exact ⟨_, _, runs_reconcileInflight.mpr ⟨u, w, l, hu, hw, hl, rfl⟩⟩

/-- A sweep leaves every sidecar alone. -/
theorem Swept.sidecar {d d' : Dir} (h : Swept fs t d) :
    t.get (.queue d' s .json) = fs.get (.queue d' s .json) := by
  apply h.rest
  rintro ⟨c, hc, -⟩
  cases (Path.queue.inj hc).2.2

/-- No sidecar of `inflight/` names a clip whose sidecar sorts after it. -/
def NamesInOrder (fs : Fs) : Prop :=
  ∀ s e, fs.get (.queue .inflight s .json) = some (.sidecar e) →
    (fs.get (.queue .inflight e.clipId .json)).isSome →
    ¬ (Path.queue .inflight s .json).fileName < (Path.queue .inflight e.clipId .json).fileName

/-- In a sorted list of sidecars, sparing what follows is sparing what has a greater name. -/
theorem pairwise_spares_iff (hl : ∀ p ∈ l, ∃ s, p = .queue .inflight s .json) (hnd : l.Nodup)
    (hsorted : l.Pairwise fun p q => p.fileName ≤ q.fileName) :
    l.Pairwise (Spares fs) ↔ ∀ p ∈ l, ∀ q ∈ l, p.fileName < q.fileName → Spares fs p q := by
  constructor
  · intro h
    let after : Path → Path → Prop := fun p q => p.fileName < q.fileName → Spares fs p q
    have hrefl : ∀ p ∈ l, after p p := fun p _ hlt => absurd hlt (lt_irrefl _)
    have hforth : l.Pairwise after := by
      apply h.imp
      intro p q hspares _
      exact hspares
    have hback : l.Pairwise (flip after) := hsorted.imp fun hle hlt => absurd hlt (not_lt.mpr hle)
    intro p hp q hq
    exact List.Pairwise.forall_of_forall_of_flip hrefl hforth hback hp hq
  · intro h
    apply (hsorted.and hnd).imp_of_mem
    rintro p q hp hq ⟨hle, hne⟩
    apply h p hp q hq
    apply lt_of_le_of_ne hle
    intro hname
    obtain ⟨s, rfl⟩ := hl p hp
    obtain ⟨s', rfl⟩ := hl q hq
    exact hne (by rw [fileName_queue_inj hname])

/-- Reconciliation succeeds exactly if every sidecar of `inflight/` decodes and none names a clip
whose sidecar sorts after it. -/
theorem reconcileInflight_ok_iff {v : Except QueueError (List ClipQueueEntry)}
    (h : Runs Nominal reconcileInflight fs v t) :
    (∃ r, v = .ok r) ↔
      (∀ s, ¬ Undecodable fs (.queue .inflight s .json)) ∧ NamesInOrder fs := by
  obtain ⟨u, w, l, hu, hw, hl, hr⟩ := runs_reconcileInflight.mp h
  have hside : ∀ s, w.get (.queue .inflight s .json) = fs.get (.queue .inflight s .json) :=
    fun s => hw.sidecar.trans hu.sidecar
  have hmem : ∀ p, p ∈ sortPaths (l.filter (·.hasExt .json)) ↔
      ∃ s, p = .queue .inflight s .json ∧ (fs.get p).isSome := by
    intro p
    rw [mem_sortPaths, mem_sidecars hl]
    constructor
    · rintro ⟨s, rfl, hs⟩
      exact ⟨s, rfl, hside s ▸ hs⟩
    · rintro ⟨s, rfl, hs⟩
      exact ⟨s, rfl, (hside s).symm ▸ hs⟩
  have hpaths : ∀ p ∈ sortPaths (l.filter (·.hasExt .json)), ∃ s, p = .queue .inflight s .json := by
    intro p hp
    obtain ⟨s, hs, -⟩ := (hmem p).mp hp
    exact ⟨s, hs⟩
  obtain rfl : v = (reconciled (sortPaths (l.filter (·.hasExt .json))) w).1 := congrArg Prod.fst hr
  rw [reconciled_ok_iff hpaths, pairwise_spares_iff hpaths (nodup_sortPaths (hl.nodup.filter _))
    (List.pairwise_insertionSort _ _)]
  constructor
  · -- what the loop read was there before the sweeps
    rintro ⟨hdec, hspares⟩
    refine ⟨?_, ?_⟩
    · rintro s ⟨data, hdata⟩
      obtain ⟨e, he⟩ := hdec _ ((hmem _).mpr ⟨s, rfl, by rw [hdata]; rfl⟩)
      rw [hside, hdata] at he
      cases he
    · intro s e he hs hlt
      have hp := (hmem _).mpr ⟨s, rfl, by rw [he]; rfl⟩
      have hq := (hmem _).mpr ⟨e.clipId, rfl, hs⟩
      exact hspares _ hp _ hq hlt e ((hside s).trans he) rfl
  · -- what is listed decodes, and no name is of a sidecar that follows
    rintro ⟨hund, horder⟩
    refine ⟨?_, ?_⟩
    · intro p hp
      obtain ⟨s, rfl, hs⟩ := (hmem p).mp hp
      rw [hside]
      rcases hg : fs.get (.queue .inflight s .json) with _ | e | data
      · rw [hg] at hs
        cases hs
      · exact ⟨e, rfl⟩
      · exact absurd ⟨data, hg⟩ (hund s)
    · intro p hp q hq hlt e he heq
      obtain ⟨s, rfl, -⟩ := (hmem p).mp hp
      subst heq
      obtain ⟨s', hs', hsome⟩ := (hmem _).mp hq
      rw [hside] at he
      exact horder s e he hsome hlt

end Perchstation
