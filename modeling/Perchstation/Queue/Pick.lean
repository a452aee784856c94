import Perchstation.Queue.Holdings

/-!
# Pick — the oldest eligible clip

The scan goes through the sidecars of `pending/` in the order of their file names.  It stops at the
first that decodes and is not backing off, and has by then put away those that did not decode.
-/

namespace Perchstation

open Resumption QueueStore

variable {fs t u : Fs} {at_ : DateTime} {c s : ClipId} {e : ClipQueueEntry} {l : List Path}
  {o : Option ClipQueueEntry}

/-- The sidecar of `c` in `pending/` holds `e`, whose backoff is over. -/
def Eligible (fs : Fs) (at_ : DateTime) (c : ClipId) (e : ClipQueueEntry) : Prop :=
  fs.get (.queue .pending c .json) = some (.sidecar e) ∧
    ∀ next, e.nextAttemptAfter = some next → next ≤ at_

/-- The place of the clip in the order of the scan. -/
def pendingName (c : ClipId) : String := (Path.sidecar .pending c).fileName

/-- Only sidecars that do not decode have been moved, with their media, and only to `corrupt/`. -/
structure OnlyCorrupt (fs t : Fs) : Prop where
  outside : SameOutside fs t
  files : ∀ s, holdings t s = holdings fs s ∨
    Undecodable fs (.queue .pending s .json) ∧ holdings t s = quarantinedFiles (holdings fs s)

/-- What a scan of the sidecars `l` comes to. -/
structure ScannedPending (fs t : Fs) (at_ : DateTime) (l : List Path) (o : Option ClipQueueEntry) :
    Prop where
  only : OnlyCorrupt fs t
  entry : ∀ e, o = some e → ∃ c, .queue .pending c .json ∈ l ∧ Eligible fs at_ c e ∧
    ∀ c' e', .queue .pending c' .json ∈ l → Eligible fs at_ c' e' → pendingName c ≤ pendingName c'
  idle : o = none → ∀ c e, .queue .pending c .json ∈ l → ¬ Eligible fs at_ c e

theorem OnlyCorrupt.refl (fs : Fs) : OnlyCorrupt fs fs := ⟨fun _ _ => rfl, fun _ => Or.inl rfl⟩

/-- A quarantine before the rest of the scan. -/
theorem OnlyCorrupt.quarantined {data : List UInt8}
    (hb : fs.get (.queue .pending s .json) = some (.bytes data))
    (h : OnlyCorrupt (quarantined fs .pending s (.bytes data)) t) : OnlyCorrupt fs t := by
  refine ⟨sameOutside_quarantined.trans h.outside, fun s' => ?_⟩
  have hfiles := @holdings_quarantined fs s' (.bytes data) s hb
  by_cases hs : s' = s
  · subst hs
    rw [if_pos rfl] at hfiles
    rcases h.files s' with hkeep | ⟨⟨data', hd⟩, -⟩
    · exact Or.inr ⟨⟨data, hb⟩, hkeep.trans hfiles⟩
    · -- its sidecar is gone from `pending/`
      have hgone := congrFun (congrFun hfiles .pending) .json
      rw [holdings, hd] at hgone
      cases hgone
  · rw [if_neg hs] at hfiles
    rcases h.files s' with hkeep | ⟨⟨data', hd⟩, hmoved⟩
    · exact Or.inl (hkeep.trans hfiles)
    · refine Or.inr ⟨⟨data', ?_⟩, by rw [hmoved, hfiles]⟩
      exact (congrFun (congrFun hfiles .pending) .json).symm.trans hd

/-- The rest of the scan, seen from before its first sidecar. -/
theorem ScannedPending.cons (h : ScannedPending u t at_ l o) (honly : OnlyCorrupt fs t)
    (hsame : ∀ c, .queue .pending c .json ∈ l →
      u.get (.queue .pending c .json) = fs.get (.queue .pending c .json))
    (hskip : ∀ e, ¬ Eligible fs at_ s e) :
    ScannedPending fs t at_ (.queue .pending s .json :: l) o := by
  have helig : ∀ c e, .queue .pending c .json ∈ l → (Eligible u at_ c e ↔ Eligible fs at_ c e) := by
    intro c e hc
    rw [Eligible, Eligible, hsame c hc]
  have htail : ∀ c e, Path.queue .pending c .json ∈ Path.queue .pending s .json :: l →
      Eligible fs at_ c e → Path.queue .pending c .json ∈ l := by
    intro c e hc he
    rcases List.mem_cons.mp hc with heq | hc
    · obtain ⟨-, rfl, -⟩ := Path.queue.inj heq
      exact absurd he (hskip e)
    · exact hc
  refine ⟨honly, fun e he => ?_, fun hnone c e hc he => ?_⟩
  · obtain ⟨c, hc, hel, hleast⟩ := h.entry e he
    refine ⟨c, List.mem_cons_of_mem _ hc, (helig c e hc).mp hel, fun c' e' hc' he' => ?_⟩
    have htl := htail c' e' hc' he'
    exact hleast c' e' htl ((helig c' e' htl).mpr he')
  · have htl := htail c e hc he
    exact h.idle hnone c e htl ((helig c e htl).mpr he)

/-- An eligible entry whose name comes first is the one to pick. -/
theorem ScannedPending.first (hel : Eligible fs at_ s e)
    (hfirst : ∀ q ∈ l, (Path.queue .pending s .json).fileName ≤ q.fileName) :
    ScannedPending fs fs at_ (.queue .pending s .json :: l) (some e) := by
  refine ⟨OnlyCorrupt.refl _, fun e' he' => ?_, by rintro ⟨⟩⟩
  obtain rfl := Option.some.inj he'
  refine ⟨s, List.mem_cons_self, hel, fun c' e' hc' _ => ?_⟩
  rcases List.mem_cons.mp hc' with heq | hc'
  · obtain ⟨-, rfl, -⟩ := Path.queue.inj heq
    exact le_refl _
  · exact hfirst _ hc'

/-- A scan of sidecars in order stops at the first that is eligible. -/
theorem scannedPending_of_runs {v : Except QueueError (Option ClipQueueEntry)}
    (hl : ∀ p ∈ l, ∃ c, p = .queue .pending c .json) (hnd : l.Nodup)
    (hsorted : l.Pairwise fun p q => p.fileName ≤ q.fileName)
    (h : Runs Nominal (scanPending at_ l) fs v t) :
    ∃ o, v = .ok o ∧ ScannedPending fs t at_ l o := by
  induction l generalizing fs with
  | nil =>
    obtain ⟨rfl, rfl⟩ := h
    refine ⟨none, rfl, OnlyCorrupt.refl _, ?_, ?_⟩
    · rintro e ⟨⟩
    · rintro - c e ⟨⟩
  | cons p rest ih =>
    obtain ⟨s, rfl⟩ := hl p List.mem_cons_self
    obtain ⟨hfirst, hpair⟩ := List.pairwise_cons.mp hsorted
    obtain ⟨hnew, hrest⟩ := List.nodup_cons.mp hnd
    replace ih := fun {fs} => @ih fs (fun q hq => hl q (List.mem_cons_of_mem _ hq)) hrest hpair
    rw [scanPending, runs_bind] at h
    obtain ⟨r, u, hr, h⟩ := h
    obtain ⟨rfl, hu⟩ := runs_readSidecar.mp hr
    subst u
    -- a sidecar that is not eligible is passed over
    have hpass : (∀ e, ¬ Eligible fs at_ s e) → Runs Nominal (scanPending at_ rest) fs v t →
        ∃ o, v = .ok o ∧ ScannedPending fs t at_ (.queue .pending s .json :: rest) o := by
      intro hskip hrun
      obtain ⟨o, rfl, hscan⟩ := ih hrun
      exact ⟨o, rfl, hscan.cons hscan.only (fun _ _ => rfl) hskip⟩
    rcases sidecarAt_cases fs (.queue .pending s .json) with ⟨hn, hr⟩ | ⟨e, hb, hr⟩ | ⟨data, hb, hr⟩
    · -- the sidecar vanished
      rw [hr] at h
      refine hpass (fun e he => ?_) h
      rw [he.1] at hn
      cases hn
    · -- it decodes, and is due or waits for its next attempt
      rw [hr] at h
      dsimp only at h
      have hpick : Eligible fs at_ s e →
          Runs Nominal (pure (.ok (some e)) : Act (Except QueueError _)) fs v t →
          ∃ o, v = .ok o ∧ ScannedPending fs t at_ (.queue .pending s .json :: rest) o := by
        rintro hel ⟨rfl, rfl⟩
        exact ⟨some e, rfl, .first hel hfirst⟩
      cases hnext : e.nextAttemptAfter with
      | none =>
        rw [hnext] at h
        exact hpick ⟨hb, by simp [hnext]⟩ h
      | some next =>
        rw [hnext] at h
        dsimp only at h
        split_ifs at h with hlt
        · refine hpass (fun e' he' => ?_) h
          obtain rfl := sidecar_unique hb he'.1
          exact absurd (he'.2 next hnext) (not_le.mpr hlt)
        · refine hpick ⟨hb, fun next' hnext' => ?_⟩ h
          obtain rfl := Option.some.inj (hnext.symm.trans hnext')
          exact not_lt.mp hlt
    · -- it is corrupt and quarantined
      rw [hr] at h
      dsimp only at h
      rw [runs_bind] at h
      obtain ⟨r, w, hq, h⟩ := h
      obtain ⟨-, rfl⟩ := runs_quarantineCorrupt hb hq
      obtain ⟨o, rfl, hscan⟩ := ih h
      refine ⟨o, rfl, hscan.cons (hscan.only.quarantined hb) (fun c hc => ?_) fun e he => ?_⟩
      · have hne : c ≠ s := by
          rintro rfl
          exact hnew hc
        have hfiles := @holdings_quarantined fs c (.bytes data) s hb
        rw [if_neg hne] at hfiles
        exact congrFun (congrFun hfiles .pending) .json
      · have hget := he.1
        rw [hb] at hget
        cases hget

/-- `pick_oldest_pending` returns the eligible entry with the least file name. -/
structure PickedLeast (fs t : Fs) (at_ : DateTime) (o : Option ClipQueueEntry) : Prop where
  only : OnlyCorrupt fs t
  entry : ∀ e, o = some e → ∃ c, Eligible fs at_ c e ∧
    ∀ c' e', Eligible fs at_ c' e' → pendingName c ≤ pendingName c'
  idle : o = none → ∀ c e, ¬ Eligible fs at_ c e

theorem pickedLeast_of_runs {v : Except QueueError (Option ClipQueueEntry)}
    (h : Runs Nominal (pickOldestPending at_) fs v t) :
    ∃ o, v = .ok o ∧ PickedLeast fs t at_ o := by
  simp only [pickOldestPending, runs_bind, runs_readDir, Nominal] at h
  obtain ⟨_, u, ⟨hu, l, hl, rfl⟩, h⟩ := h
  subst u
  have hmem : ∀ c e, Eligible fs at_ c e →
      Path.queue .pending c .json ∈ sortPaths (l.filter (·.hasExt .json)) := fun c e he =>
    mem_sortPaths.mpr ((mem_sidecars hl).mpr ⟨c, rfl, by rw [he.1]; rfl⟩)
  have hpaths : ∀ p ∈ sortPaths (l.filter (·.hasExt .json)), ∃ c, p = .queue .pending c .json := by
    intro p hp
    obtain ⟨c, hc, -⟩ := (mem_sidecars hl).mp (mem_sortPaths.mp hp)
    exact ⟨c, hc⟩
  obtain ⟨o, rfl, hscan⟩ := scannedPending_of_runs hpaths (nodup_sortPaths (hl.nodup.filter _))
    (List.pairwise_insertionSort _ _) h
  refine ⟨o, rfl, hscan.only, fun e he => ?_, fun hnone c e he => ?_⟩
  · obtain ⟨c, -, hel, hleast⟩ := hscan.entry e he
    exact ⟨c, hel, fun c' e' he' => hleast c' e' (hmem c' e' he') he'⟩
  · exact hscan.idle hnone c e (hmem c e he) he

end Perchstation
