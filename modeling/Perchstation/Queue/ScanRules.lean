import Perchstation.Queue.StoreRules

/-!
# Scan rules — listing, picking, quarantine, sweeping, reconciling

What the loops over a directory listing do, for stores of any contents.  A sidecar is undecodable if
it is there and holds no entry.
-/

namespace Perchstation

open Resumption QueueStore

/-- The file is there and does not decode to a sidecar. -/
def Undecodable (fs : Fs) (p : Path) : Prop := ∃ data, fs.get p = some (.bytes data)

section Listing

variable {fs t : Fs} {d : Dir} {l : List Path} {p : Path}

theorem inDir_and_hasExt_iff {x : Ext} :
    (p.inDir d = true ∧ p.hasExt x = true) ↔ ∃ c, p = .queue d c x := by
  cases p with
  | source name => simp [Path.inDir]
  | directory dir => simp [Path.inDir]
  | queue dir stem ext => simp [Path.inDir, Path.hasExt, eq_comm]

theorem mem_sortPaths {ps : List Path} : p ∈ sortPaths ps ↔ p ∈ ps :=
  List.mem_insertionSort _

/-- The sidecars of a listed directory. -/
theorem mem_sidecars (hl : fs.Lists (fun p => p.inDir d) l) :
    p ∈ l.filter (·.hasExt .json) ↔ ∃ c, p = .queue d c .json ∧ (fs.get p).isSome := by
  rw [List.mem_filter, hl.mem, and_right_comm, inDir_and_hasExt_iff]
  constructor
  · rintro ⟨⟨c, hc⟩, hs⟩
    exact ⟨c, hc, hs⟩
  · rintro ⟨c, hc, hs⟩
    exact ⟨⟨c, hc⟩, hs⟩

instance : Std.Total fun p q : Path => p.fileName ≤ q.fileName :=
  ⟨fun p q => le_total p.fileName q.fileName⟩

instance : IsTrans Path fun p q => p.fileName ≤ q.fileName :=
  ⟨fun _ _ _ => le_trans⟩

theorem fileName_queue_inj {c c' : ClipId} {x : Ext}
    (h : (Path.queue d c x).fileName = (Path.queue d c' x).fileName) : c = c' := by
  simpa [Path.fileName] using h

/-- The sorted sidecars do not depend on the order of the listing. -/
theorem sortPaths_sidecars_unique {l' : List Path} (hl : fs.Lists (fun p => p.inDir d) l)
    (hl' : fs.Lists (fun p => p.inDir d) l') :
    sortPaths (l.filter (·.hasExt .json)) = sortPaths (l'.filter (·.hasExt .json)) := by
  refine List.Perm.eq_of_pairwise (fun p q hp hq hpq hqp => ?_)
    (List.pairwise_insertionSort _ _) (List.pairwise_insertionSort _ _) ?_
  · obtain ⟨c, rfl, -⟩ := (mem_sidecars hl).mp (mem_sortPaths.mp hp)
    obtain ⟨c', rfl, -⟩ := (mem_sidecars hl').mp (mem_sortPaths.mp hq)
    rw [fileName_queue_inj (le_antisymm hpq hqp)]
  · exact (List.perm_insertionSort _ _).trans
      (((hl.perm hl').filter _).trans (List.perm_insertionSort _ _).symm)

theorem nodup_sortPaths {ps : List Path} (h : ps.Nodup) : (sortPaths ps).Nodup :=
  (List.perm_insertionSort _ ps).nodup_iff.mpr h

end Listing

/-! ## Quarantine -/

section Quarantine

variable {fs t : Fs} {c s : ClipId} {d d' : Dir}

/-- The store after `quarantineCorrupt` of a file holding `b`. -/
def quarantined (fs : Fs) (d : Dir) (s : ClipId) (b : Blob) : Fs :=
  let u := (fs.del (.queue d s .json)).put (.queue .corrupt s .json) b
  match u.get (.queue d s .mp4) with
  | none => u
  | some m => (u.del (.queue d s .mp4)).put (.queue .corrupt s .mp4) m

theorem runs_quarantineCorrupt {b : Blob} {v : Except QueueError Unit}
    (hb : fs.get (.queue d s .json) = some b)
    (h : Runs Nominal (quarantineCorrupt (.queue d s .json)) fs v t) :
    v = .ok () ∧ t = quarantined fs d s b := by
  simp [quarantineCorrupt, runs_bind, Nominal, hb, Path.moveTo, Path.withExtension] at h
  unfold quarantined
  dsimp only
  cases hm : FileMap.get ((fs.del (.queue d s .json)).put (.queue .corrupt s .json) b)
      (.queue d s .mp4) with
  | none => simpa [hm] using h
  | some m => simpa [hm, runs_bind, Nominal, and_comm] using h

theorem sameClip_quarantined {b : Blob} (h : c ≠ s) : SameClip fs (quarantined fs d s b) c := by
  unfold quarantined
  dsimp only
  split
  · exact (sameClip_del h).trans (sameClip_put h)
  · exact ((sameClip_del h).trans (sameClip_put h)).trans ((sameClip_del h).trans (sameClip_put h))

/-- A quarantine touches its own directory and `corrupt/` only. -/
theorem get_quarantined_of_ne {b : Blob} {x : Ext} (hd : d' ≠ d) (hc : d' ≠ .corrupt) :
    (quarantined fs d s b).get (.queue d' c x) = fs.get (.queue d' c x) := by
  unfold quarantined
  dsimp only
  split <;> simp [FileMap.get_put, FileMap.get_del, hd, hc]

/-- A quarantine of bytes that do not decode brings no sidecar. -/
theorem sidecar_of_quarantined {data : List UInt8} {e : ClipQueueEntry}
    (h : (quarantined fs d s (.bytes data)).get (.queue d' c .json) = some (.sidecar e)) :
    fs.get (.queue d' c .json) = some (.sidecar e) := by
  unfold quarantined at h
  dsimp only at h
  split at h <;> simp only [FileMap.get_put, FileMap.get_del] at h <;> split_ifs at h <;>
    simp_all

/-- A quarantine brings no media into `pending/`. -/
theorem media_quarantined {b : Blob} (h : fs.get (.queue .pending c .mp4) = none) :
    (quarantined fs .pending s b).get (.queue .pending c .mp4) = none := by
  by_cases hc : c = s
  · subst hc
    unfold quarantined
    dsimp only
    split
    · assumption
    · simp [FileMap.get_put, FileMap.get_del]
  · exact ((sameClip_quarantined hc).media .pending).trans h

end Quarantine

/-! ## Picking -/

section Pick

variable {fs t u : Fs} {at_ : DateTime} {o : Option ClipQueueEntry}

/-- What a scan of `pending/` that came to `o` may have changed. -/
structure Picked (fs t : Fs) (o : Option ClipQueueEntry) : Prop where
  sameClip : ∀ c, ¬ Undecodable fs (.queue .pending c .json) → SameClip fs t c
  elsewhere : ∀ c d x, d ≠ .pending → d ≠ .corrupt →
    t.get (.queue d c x) = fs.get (.queue d c x)
  media : ∀ c, fs.get (.queue .pending c .mp4) = none → t.get (.queue .pending c .mp4) = none
  subset : ∀ d c e, t.get (.queue d c .json) = some (.sidecar e) →
    fs.get (.queue d c .json) = some (.sidecar e)
  entry : ∀ e, o = some e → ∃ c, fs.get (.queue .pending c .json) = some (.sidecar e)

theorem Picked.idle (fs : Fs) : Picked fs fs none :=
  ⟨fun _ _ => SameClip.refl _ _, fun _ _ _ _ _ => rfl, fun _ h => h, fun _ _ _ h => h, by simp⟩

theorem Picked.picked {s : ClipId} {e : ClipQueueEntry}
    (h : fs.get (.queue .pending s .json) = some (.sidecar e)) : Picked fs fs (some e) := by
  refine ⟨fun _ _ => SameClip.refl _ _, fun _ _ _ _ _ => rfl, fun _ h => h, fun _ _ _ h => h,
    fun e' he => ⟨s, ?_⟩⟩
  rw [h, Option.some.inj he]

/-- A quarantine before the scan. -/
theorem Picked.quarantined {s : ClipId} {data : List UInt8}
    (hb : fs.get (.queue .pending s .json) = some (.bytes data))
    (h : Picked (quarantined fs .pending s (.bytes data)) t o) : Picked fs t o := by
  have hne : ∀ c, ¬ Undecodable fs (.queue .pending c .json) → c ≠ s := by
    rintro c hc rfl
    exact hc ⟨data, hb⟩
  refine ⟨fun c hc => ?_, fun c d x hd hd' => ?_, fun c hc => h.media c (media_quarantined hc),
    fun d c e he => sidecar_of_quarantined (h.subset d c e he), fun e he => ?_⟩
  · have hu : SameClip fs (Perchstation.quarantined fs .pending s (.bytes data)) c :=
      sameClip_quarantined (hne c hc)
    refine hu.trans (h.sameClip c ?_)
    rintro ⟨data', hd⟩
    exact hc ⟨data', by rw [← hu.sidecar, hd]⟩
  · rw [h.elsewhere c d x hd hd', get_quarantined_of_ne hd hd']
  · obtain ⟨c, hc⟩ := h.entry e he
    exact ⟨c, sidecar_of_quarantined hc⟩

/-- The scan leaves every clip with a readable (or no) sidecar alone and picks one of the entries of
`pending/`. -/
theorem runs_scanPending {l : List Path} {v : Except QueueError (Option ClipQueueEntry)}
    (hl : ∀ p ∈ l, ∃ c, p = .queue .pending c .json)
    (h : Runs Nominal (scanPending at_ l) fs v t) : ∃ o, v = .ok o ∧ Picked fs t o := by
  induction l generalizing fs with
  | nil =>
    obtain ⟨rfl, rfl⟩ := h
    exact ⟨none, rfl, Picked.idle _⟩
  | cons p rest ih =>
    have hrest : ∀ q ∈ rest, ∃ c, q = .queue .pending c .json :=
      fun q hq => hl q (List.mem_cons_of_mem _ hq)
    obtain ⟨s, rfl⟩ := hl p List.mem_cons_self
    rw [scanPending, runs_bind] at h
    obtain ⟨r, u, hr, h⟩ := h
    obtain ⟨rfl, hu⟩ := runs_readSidecar.mp hr
    subst u
    rcases sidecarAt_cases fs (.queue .pending s .json) with ⟨-, hr⟩ | ⟨e, hb, hr⟩ | ⟨data, hb, hr⟩ <;>
      rw [hr] at h <;> dsimp only at h
    · exact ih hrest h
    · have hpick : Runs Nominal (pure (.ok (some e)) : Act (Except QueueError _)) fs v t →
          ∃ o, v = .ok o ∧ Picked fs t o := by
        rintro ⟨rfl, rfl⟩
        exact ⟨some e, rfl, Picked.picked hb⟩
      split at h
      · split_ifs at h
        · exact ih hrest h
        · exact hpick h
      · exact hpick h
    · rw [runs_bind] at h
      obtain ⟨r, w, hq, h⟩ := h
      obtain ⟨-, rfl⟩ := runs_quarantineCorrupt hb hq
      obtain ⟨o, rfl, hpick⟩ := ih hrest h
      exact ⟨o, rfl, hpick.quarantined hb⟩

/-- A scan stops at the first entry whose backoff is over. -/
theorem runs_scanPending_cons {s : ClipId} {e : ClipQueueEntry} {rest : List Path}
    (he : fs.get (.queue .pending s .json) = some (.sidecar e))
    (hdue : ∀ next, e.nextAttemptAfter = some next → next ≤ at_) :
    Runs Nominal (scanPending at_ (.queue .pending s .json :: rest)) fs (.ok (some e)) fs := by
  rw [scanPending, runs_bind]
  refine ⟨.ok e, fs, runs_readSidecar.mpr ⟨(sidecarAt_eq_ok_iff.mpr he).symm, rfl⟩, ?_⟩
  cases hn : e.nextAttemptAfter with
  | none => simp [hn]
  | some next => simp [hn, not_lt.mpr (hdue next hn)]

theorem runs_pickOldestPending_due {s : ClipId} {e : ClipQueueEntry}
    (hone : ∀ c, (fs.get (.queue .pending c .json)).isSome → c = s)
    (he : fs.get (.queue .pending s .json) = some (.sidecar e))
    (hdue : ∀ next, e.nextAttemptAfter = some next → next ≤ at_) :
    Runs Nominal (pickOldestPending at_) fs (.ok (some e)) fs := by
  obtain ⟨l, hl⟩ := fs.exists_lists fun p => p.inDir .pending
  have hsort : sortPaths (l.filter (·.hasExt .json)) = [.queue .pending s .json] := by
    have hmem : ∀ p, p ∈ l.filter (·.hasExt .json) ↔ p ∈ [Path.queue .pending s .json] := by
      intro p
      rw [mem_sidecars hl, List.mem_singleton]
      constructor
      · rintro ⟨c, rfl, hc⟩
        rw [hone c hc]
      · rintro rfl
        exact ⟨s, rfl, by rw [he]; rfl⟩
    have hperm := (List.perm_ext_iff_of_nodup (hl.nodup.filter _) (List.nodup_singleton _)).mpr hmem
    rw [List.perm_singleton.mp hperm]
    rfl
  simp only [pickOldestPending, runs_bind, runs_readDir, Nominal]
  refine ⟨.ok l, fs, ⟨rfl, l, hl, rfl⟩, ?_⟩
  dsimp only
  rw [hsort]
  exact runs_scanPending_cons he hdue

theorem runs_pickOldestPending_single {s : ClipId} {e : ClipQueueEntry}
    (hone : ∀ c, (fs.get (.queue .pending c .json)).isSome → c = s)
    (he : fs.get (.queue .pending s .json) = some (.sidecar e)) (hn : e.nextAttemptAfter = none) :
    Runs Nominal (pickOldestPending at_) fs (.ok (some e)) fs :=
  runs_pickOldestPending_due hone he (by simp [hn])

theorem runs_pickOldestPending {v : Except QueueError (Option ClipQueueEntry)}
    (h : Runs Nominal (pickOldestPending at_) fs v t) : ∃ o, v = .ok o ∧ Picked fs t o := by
  simp only [pickOldestPending, runs_bind, runs_readDir, Nominal] at h
  obtain ⟨_, _, ⟨rfl, l, hl, rfl⟩, h⟩ := h
  refine runs_scanPending (fun p hp => ?_) h
  obtain ⟨c, hc, -⟩ := (mem_sidecars hl).mp (mem_sortPaths.mp hp)
  exact ⟨c, hc⟩

end Pick

/-! ## Sweeping orphan media -/

section Sweep

variable {fs t u : Fs} {d : Dir} {c : ClipId}

/-- Media in `d` without a sidecar beside it. -/
def Orphan (fs : Fs) (d : Dir) (p : Path) : Prop :=
  ∃ c, p = .queue d c .mp4 ∧ fs.get (.queue d c .json) = none

/-- The store after a sweep of `d`: the orphans are gone, nothing else is touched. -/
structure Swept (fs t : Fs) (d : Dir) : Prop where
  gone : ∀ p, Orphan fs d p → t.get p = none
  rest : ∀ p, ¬ Orphan fs d p → t.get p = fs.get p

theorem Swept.unique (h : Swept fs t d) (h' : Swept fs u d) : t = u := by
  ext1 p
  by_cases hp : Orphan fs d p
  · rw [h.gone p hp, h'.gone p hp]
  · rw [h.rest p hp, h'.rest p hp]

/-- The media among the paths without a sidecar beside them. -/
def orphansOf (fs : Fs) (l : List Path) : List Path :=
  l.filter fun p => p.hasExt .mp4 && (fs.get (p.withExtension .json)).isNone

theorem orphansOf_del {p : Path} (hp : p.hasExt .mp4 = true) (l : List Path) :
    orphansOf (fs.del p) l = orphansOf fs l := by
  refine List.filter_congr fun q _ => ?_
  rw [FileMap.get_del, if_neg]
  rintro rfl
  cases q <;> simp [Path.hasExt, Path.withExtension] at hp

theorem runs_sweepLoop {l : List Path} {v : Except QueueError Unit} :
    Runs Nominal (sweepLoop l) fs v t ↔ v = .ok () ∧ t = fs.delAll (orphansOf fs l) := by
  induction l generalizing fs with
  | nil => simp [sweepLoop, orphansOf, FileMap.delAll]
  | cons p rest ih =>
    rw [sweepLoop]
    by_cases hp : p.hasExt .mp4 = true
    · cases hj : fs.get (p.withExtension .json) with
      | none =>
        simp [hp, hj, runs_bind, Nominal, runs_removeIfExists, ih, orphansOf_del hp]
        simp [orphansOf, hp, hj, FileMap.delAll]
      | some b =>
        simp [hp, hj, runs_bind, Nominal, ih]
        simp [orphansOf, hj]
    · simp only [hp, Bool.false_eq_true, if_false]
      rw [ih]
      simp [orphansOf, hp]

/-- A stopped sweep has removed some of the orphans. -/
theorem reaches_sweepLoop {l : List Path} (h : Reaches Nominal (sweepLoop l) fs t) :
    ∃ ps, (∀ p ∈ ps, p ∈ orphansOf fs l) ∧ t = fs.delAll ps := by
  induction l generalizing fs with
  | nil => exact ⟨[], by simp, h⟩
  | cons p rest ih =>
    have hsub : ∀ q, q ∈ orphansOf fs rest → q ∈ orphansOf fs (p :: rest) := by
      intro q hq
      simp only [orphansOf, List.mem_filter, List.mem_cons] at hq ⊢
      exact ⟨Or.inr hq.1, hq.2⟩
    have hskip : Reaches Nominal (sweepLoop rest) fs t →
        ∃ ps, (∀ q ∈ ps, q ∈ orphansOf fs (p :: rest)) ∧ t = fs.delAll ps := by
      intro h
      obtain ⟨ps, hps, rfl⟩ := ih h
      exact ⟨ps, fun q hq => hsub q (hps q hq), rfl⟩
    rw [sweepLoop] at h
    by_cases hp : p.hasExt .mp4 = true
    · cases hj : fs.get (p.withExtension .json) with
      | none =>
        simp [hp, hj, reaches_bind, Nominal, runs_removeIfExists, reaches_removeIfExists] at h
        rcases h with h | (h | h) | h
        · exact ⟨[], by simp, h⟩
        · exact ⟨[], by simp, h⟩
        · exact ⟨[p], by simp [orphansOf, hp, hj], h⟩
        · obtain ⟨ps, hps, rfl⟩ := ih h
          rw [orphansOf_del hp] at hps
          refine ⟨p :: ps, fun q hq => ?_, rfl⟩
          rcases List.mem_cons.mp hq with rfl | hq
          · simp [orphansOf, hp, hj]
          · exact hsub q (hps q hq)
      | some b =>
        simp [hp, hj, reaches_bind, Nominal] at h
        rcases h with h | h
        · exact ⟨[], by simp, h⟩
        · exact hskip h
    · simp only [hp, Bool.false_eq_true, if_false] at h
      exact hskip h

theorem mem_orphansOf {l : List Path} {p : Path} (hl : fs.Lists (fun p => p.inDir d) l) :
    p ∈ orphansOf fs l ↔ Orphan fs d p ∧ (fs.get p).isSome := by
  rw [orphansOf, List.mem_filter, hl.mem, Bool.and_eq_true, Option.isNone_iff_eq_none]
  constructor
  · rintro ⟨⟨hd, hs⟩, hx, hj⟩
    obtain ⟨c, rfl⟩ := inDir_and_hasExt_iff.mp ⟨hd, hx⟩
    exact ⟨⟨c, rfl, hj⟩, hs⟩
  · rintro ⟨⟨c, rfl, hj⟩, hs⟩
    exact ⟨⟨by simp [Path.inDir], hs⟩, by simp [Path.hasExt], hj⟩

theorem runs_sweepOrphanMedia {v : Except QueueError Unit} :
    Runs Nominal (sweepOrphanMedia d) fs v t ↔ v = .ok () ∧ Swept fs t d := by
  simp only [sweepOrphanMedia, runs_bind, runs_readDir, Nominal]
  have hswept : ∀ l, fs.Lists (fun p => p.inDir d) l → Swept fs (fs.delAll (orphansOf fs l)) d := by
    intro l hl
    refine ⟨fun p hp => ?_, fun p hp => ?_⟩
    · rw [FileMap.get_delAll]
      split_ifs with hmem
      · rfl
      · rw [mem_orphansOf hl] at hmem
        simpa using fun hs => hmem ⟨hp, hs⟩
    · rw [FileMap.get_delAll, if_neg]
      exact fun hmem => hp ((mem_orphansOf hl).mp hmem).1
  constructor
  · rintro ⟨_, _, ⟨rfl, l, hl, rfl⟩, h⟩
    obtain ⟨rfl, rfl⟩ := runs_sweepLoop.mp h
    exact ⟨rfl, hswept l hl⟩
  · rintro ⟨rfl, h⟩
    obtain ⟨l, hl⟩ := fs.exists_lists fun p => p.inDir d
    exact ⟨.ok l, fs, ⟨rfl, l, hl, rfl⟩, runs_sweepLoop.mpr ⟨rfl, h.unique (hswept l hl)⟩⟩

/-- Whatever a sweep, stopped or not, has removed was an orphan. -/
def PartSwept (fs t : Fs) (d : Dir) : Prop :=
  ∀ p, t.get p = fs.get p ∨ Orphan fs d p ∧ t.get p = none

theorem Swept.partSwept (h : Swept fs t d) : PartSwept fs t d := by
  intro p
  by_cases hp : Orphan fs d p
  · exact Or.inr ⟨hp, h.gone p hp⟩
  · exact Or.inl (h.rest p hp)

theorem reaches_sweepOrphanMedia (h : Reaches Nominal (sweepOrphanMedia d) fs t) :
    PartSwept fs t d := by
  intro p
  simp only [sweepOrphanMedia, reaches_bind, reaches_readDir, runs_readDir, Nominal] at h
  rcases h with (rfl | ⟨_, rfl, -⟩) | ⟨_, _, ⟨rfl, l, hl, rfl⟩, h⟩
  · exact Or.inl rfl
  · exact Or.inl rfl
  · obtain ⟨ps, hps, rfl⟩ := reaches_sweepLoop h
    rw [FileMap.get_delAll]
    split_ifs with hmem
    · exact Or.inr ⟨((mem_orphansOf hl).mp (hps p hmem)).1, rfl⟩
    · exact Or.inl rfl

end Sweep

/-! ## Reconciling -/

section Reconcile

variable {fs t : Fs}

/-- What `reconcileLoop` answers and leaves. -/
def reconciled : List Path → Fs → Except QueueError (List ClipQueueEntry) × Fs
  | [], fs => (.ok [], fs)
  | p :: rest, fs =>
    match sidecarAt fs p with
    | .error err => (.error err, fs)
    | .ok e =>
      if e.isTerminal then reconciled rest (movedDelivered fs e)
      else
        match reconciled rest (movedBack fs (requeued e)) with
        | (.error err, u) => (.error err, u)
        | (.ok recovered, u) => (.ok (requeued e :: recovered), u)

theorem runs_reconcileLoop {l : List Path} {v : Except QueueError (List ClipQueueEntry)} :
    Runs Nominal (reconcileLoop l) fs v t ↔ (v, t) = reconciled l fs := by
  induction l generalizing fs v t with
  | nil => simp [reconcileLoop, reconciled]
  | cons p rest ih =>
    rw [reconcileLoop, reconciled, runs_bind]
    simp only [runs_readSidecar, and_assoc, exists_and_left, exists_eq_left]
    cases hr : sidecarAt fs p with
    | error err => simp
    | ok e =>
      by_cases ht : e.isTerminal = true
      · simp [ht, runs_bind, runs_transitionDelivered, ih]
      · simp only [ht, Bool.false_eq_true, if_false, runs_bind, runs_transitionBackToPending,
          and_assoc, exists_and_left, exists_eq_left]
        constructor
        · rintro ⟨r, u, h1, h2⟩
          rw [← ih.mp h1]
          cases r <;> simpa using h2
        · intro h
          rcases hrec : reconciled rest (movedBack fs (requeued e)) with ⟨r, u⟩
          refine ⟨r, u, ih.mpr hrec.symm, ?_⟩
          rw [hrec] at h
          cases r <;> simpa using h

/-- A complete reconciliation sweeps the two directories and then goes through the sidecars of
`inflight/` in order. -/
theorem runs_reconcileInflight {v : Except QueueError (List ClipQueueEntry)} :
    Runs Nominal reconcileInflight fs v t ↔
      ∃ u w l, Swept fs u .pending ∧ Swept u w .inflight ∧
        w.Lists (fun p => p.inDir .inflight) l ∧
        (v, t) = reconciled (sortPaths (l.filter (·.hasExt .json))) w := by
  simp only [reconcileInflight, runs_bind, runs_sweepOrphanMedia, and_assoc, exists_and_left,
    exists_eq_left, runs_readDir, Nominal]
  constructor
  · rintro ⟨u, hu, w, hw, _, ⟨l, hl, rfl⟩, h⟩
    exact ⟨u, hu, w, hw, l, hl, runs_reconcileLoop.mp h⟩
  · rintro ⟨u, hu, w, hw, l, hl, h⟩
    exact ⟨u, hu, w, hw, .ok l, ⟨l, hl, rfl⟩, runs_reconcileLoop.mpr h⟩

/-- Without faults a reconciliation has one result. -/
theorem reconcileInflight_unique {t' : Fs} {v v' : Except QueueError (List ClipQueueEntry)}
    (h : Runs Nominal reconcileInflight fs v t) (h' : Runs Nominal reconcileInflight fs v' t') :
    v = v' ∧ t = t' := by
  obtain ⟨u, w, l, hu, hw, hl, hr⟩ := runs_reconcileInflight.mp h
  obtain ⟨u', w', l', hu', hw', hl', hr'⟩ := runs_reconcileInflight.mp h'
  obtain rfl := hu.unique hu'
  obtain rfl := hw.unique hw'
  rw [sortPaths_sidecars_unique hl hl', ← hr'] at hr
  exact Prod.mk.inj hr

end Reconcile

end Perchstation
