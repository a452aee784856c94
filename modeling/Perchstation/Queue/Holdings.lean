import Perchstation.Queue.Accounting
import Perchstation.Queue.RecoveryRules

/-!
# Holdings — the queue, one clip at a time

The files of a clip in the four directories, as one value.  A transition changes the files of its own
clip, by a function of these files; so does the reconciliation at boot, for every clip at once.
-/

namespace Perchstation

open Resumption QueueStore

/-- The files of one clip. -/
abbrev Holdings : Type := Dir → Ext → Option Blob

def holdings (fs : Fs) (c : ClipId) : Holdings := fun d x => fs.get (.queue d c x)

/-- The path is no file of the queue. -/
def Outside (p : Path) : Prop := ∀ d c x, p ≠ .queue d c x

/-- Nothing outside the queue has changed. -/
def SameOutside (fs t : Fs) : Prop := ∀ p, Outside p → t.get p = fs.get p

variable {fs t u w : Fs} {c : ClipId} {d : Dir} {e : ClipQueueEntry} {f : Holdings} {l : List Path}

theorem SameOutside.trans (h : SameOutside fs t) (h' : SameOutside t u) : SameOutside fs u :=
  fun p hp => (h' p hp).trans (h p hp)

/-- Stores with the same files outside the queue and of each clip are the same. -/
theorem eq_of_holdings (hout : SameOutside fs t) (hclips : ∀ c, holdings t c = holdings fs c) :
    t = fs := by
  ext1 p
  cases p with
  | source name => exact hout _ fun _ _ _ h => by cases h
  | directory dir => exact hout _ fun _ _ _ h => by cases h
  | queue d c x => exact congrFun (congrFun (hclips c) d) x

/-! ## The steps of a reconciliation -/

/-- The files of a clip after its return to `pending/` with the sidecar `e`. -/
def backFiles (f : Holdings) (e : ClipQueueEntry) : Holdings
  | .pending, .json => some (.sidecar e)
  | .pending, .jsonTmp => none
  | .pending, .mp4 => (f .inflight .mp4).or (f .pending .mp4)
  | .inflight, .json => none
  | .inflight, .mp4 => none
  | d, x => f d x

/-- The files of a clip after its move to `delivered/` with the sidecar `e`. -/
def deliveredFiles (f : Holdings) (e : ClipQueueEntry) : Holdings
  | .inflight, .json => none
  | .inflight, .jsonTmp => none
  | .inflight, .mp4 => none
  | .delivered, .json => some (.sidecar e)
  | d, x => f d x

/-- The files of a clip after a sweep of `d`. -/
def sweptFiles (d : Dir) (f : Holdings) : Holdings := fun d' x =>
  if d' = d ∧ x = .mp4 ∧ f d .json = none then none else f d' x

/-- The files of a clip after the loop over `inflight/`. -/
def finishedFiles (f : Holdings) : Holdings :=
  match f .inflight .json with
  | some (.sidecar e) => if e.isTerminal then deliveredFiles f e else backFiles f (requeued e)
  | _ => f

theorem holdings_movedBack :
    holdings (movedBack fs e) c =
      if c = e.clipId then backFiles (holdings fs c) e else holdings fs c := by
  funext d x
  split_ifs with hc
  · subst hc
    unfold holdings movedBack mediaReturned moveMedia
    rw [FileMap.get_del, get_replaceSidecar]
    cases hm : fs.get (.queue .inflight e.clipId .mp4) with
    | none => cases d <;> cases x <;> simp [backFiles, hm]
    | some m => cases d <;> cases x <;> simp [backFiles, hm, FileMap.get_put, FileMap.get_del]
  · unfold holdings movedBack mediaReturned moveMedia
    rw [FileMap.get_del, get_replaceSidecar]
    cases fs.get (.queue .inflight e.clipId .mp4) with
    | none => simp [hc]
    | some m => simp [hc, FileMap.get_put, FileMap.get_del]

theorem holdings_movedDelivered :
    holdings (movedDelivered fs e) c =
      if c = e.clipId then deliveredFiles (holdings fs c) e else holdings fs c := by
  funext d x
  split_ifs with hc
  · subst hc
    unfold holdings movedDelivered
    rw [FileMap.get_put, FileMap.get_del, FileMap.get_del, get_replaceSidecar]
    cases d <;> cases x <;> simp [deliveredFiles]
  · unfold holdings movedDelivered
    rw [FileMap.get_put, FileMap.get_del, FileMap.get_del, get_replaceSidecar]
    simp [hc]

theorem sameOutside_movedBack : SameOutside fs (movedBack fs e) := by
  intro p hp
  unfold movedBack mediaReturned moveMedia
  rw [FileMap.get_del, if_neg (hp _ _ _), get_replaceSidecar, if_neg (hp _ _ _), if_neg (hp _ _ _)]
  cases fs.get (.queue .inflight e.clipId .mp4) with
  | none => rfl
  | some m =>
    dsimp only
    rw [FileMap.get_put, if_neg (hp _ _ _), FileMap.get_del, if_neg (hp _ _ _)]

theorem sameOutside_movedDelivered : SameOutside fs (movedDelivered fs e) := by
  intro p hp
  unfold movedDelivered
  rw [FileMap.get_put, if_neg (hp _ _ _), FileMap.get_del, if_neg (hp _ _ _), FileMap.get_del,
    if_neg (hp _ _ _), get_replaceSidecar, if_neg (hp _ _ _), if_neg (hp _ _ _)]

theorem Swept.holdings (h : Swept fs t d) : holdings t c = sweptFiles d (holdings fs c) := by
  funext d' x
  unfold sweptFiles Perchstation.holdings
  split_ifs with hp
  · obtain ⟨rfl, rfl, hnone⟩ := hp
    exact h.gone _ ⟨c, rfl, hnone⟩
  · refine h.rest _ ?_
    rintro ⟨c', heq, hnone⟩
    obtain ⟨rfl, rfl, rfl⟩ := Path.queue.inj heq
    exact hp ⟨rfl, rfl, hnone⟩

theorem Swept.sameOutside (h : Swept fs t d) : SameOutside fs t := by
  intro p hp
  refine h.rest p ?_
  rintro ⟨c, rfl, -⟩
  exact hp d c .mp4 rfl

/-! ## The loop -/

/-- What the loop returns for a sidecar it requeues. -/
def requeuedAt (fs : Fs) (p : Path) : Option ClipQueueEntry :=
  match entryAt fs p with
  | some e => if e.isTerminal then none else some (requeued e)
  | none => none

/-- The path is the sidecar in `inflight/` of the clip it records. -/
def NamedSidecar (fs : Fs) (p : Path) : Prop :=
  ∃ e, p = .queue .inflight e.clipId .json ∧ fs.get p = some (.sidecar e)

theorem entryAt_congr {p : Path} (h : t.get p = fs.get p) : entryAt t p = entryAt fs p := by
  rw [entryAt, entryAt, h]

/-- One step of the loop, with the clip's files done and the others as they were. -/
theorem reconciled_cons {p : Path} (hp : NamedSidecar fs p) :
    ∃ u, SameOutside fs u ∧
      (∀ c, holdings u c =
        if Path.queue .inflight c .json = p then finishedFiles (holdings fs c) else holdings fs c) ∧
      reconciled (p :: l) fs =
        ((reconciled l u).1.map ((requeuedAt fs p).toList ++ ·), (reconciled l u).2) := by
  obtain ⟨e, rfl, hget⟩ := hp
  have hentry : entryAt fs (.queue .inflight e.clipId .json) = some e := entryAt_sidecar.mpr hget
  have hfiles : holdings fs e.clipId .inflight .json = some (.sidecar e) := hget
  have hiff : ∀ c, Path.queue .inflight c .json = Path.queue .inflight e.clipId .json ↔
      c = e.clipId := by simp
  rw [reconciled, sidecarAt_eq_ok_iff.mpr hget]
  dsimp only
  unfold requeuedAt
  rw [hentry]
  dsimp only
  by_cases hterm : e.isTerminal = true
  · rw [if_pos hterm, if_pos hterm]
    refine ⟨movedDelivered fs e, sameOutside_movedDelivered, fun c => ?_, ?_⟩
    · rw [holdings_movedDelivered]
      simp only [hiff]
      split_ifs with hc
      · subst hc
        rw [finishedFiles, hfiles]
        exact (if_pos hterm).symm
      · rfl
    · cases reconciled l (movedDelivered fs e) with
      | mk v u => cases v <;> rfl
  · rw [if_neg hterm, if_neg hterm]
    refine ⟨movedBack fs (requeued e), sameOutside_movedBack, fun c => ?_, ?_⟩
    · rw [holdings_movedBack, requeued_clipId]
      simp only [hiff]
      split_ifs with hc
      · subst hc
        rw [finishedFiles, hfiles]
        exact (if_neg hterm).symm
      · rfl
    · cases reconciled l (movedBack fs (requeued e)) with
      | mk v u => cases v <;> rfl

/-- The loop over sidecars that bear their own names finishes each clip on its own. -/
theorem reconciled_files (hl : ∀ p ∈ l, NamedSidecar fs p) (hnd : l.Nodup) :
    (reconciled l fs).1 = .ok (l.filterMap (requeuedAt fs)) ∧
      SameOutside fs (reconciled l fs).2 ∧
      ∀ c, holdings (reconciled l fs).2 c =
        if Path.queue .inflight c .json ∈ l then finishedFiles (holdings fs c)
        else holdings fs c := by
  induction l generalizing fs with
  | nil => exact ⟨rfl, fun _ _ => rfl, fun c => rfl⟩
  | cons p rest ih =>
    obtain ⟨hp, hrest⟩ := List.nodup_cons.mp hnd
    obtain ⟨u, hout, hclips, hstep⟩ := @reconciled_cons fs rest p (hl p List.mem_cons_self)
    -- the sidecars to come are as they were
    have hsame : ∀ q ∈ rest, u.get q = fs.get q := by
      intro q hq
      obtain ⟨e, rfl, -⟩ := hl q (List.mem_cons_of_mem _ hq)
      have hne : Path.queue .inflight e.clipId .json ≠ p := fun heq => hp (heq ▸ hq)
      have hkeep := hclips e.clipId
      rw [if_neg hne] at hkeep
      exact congrFun (congrFun hkeep .inflight) .json
    have hnamed : ∀ q ∈ rest, NamedSidecar u q := by
      intro q hq
      obtain ⟨e, heq, hget⟩ := hl q (List.mem_cons_of_mem _ hq)
      exact ⟨e, heq, (hsame q hq).trans hget⟩
    obtain ⟨hv, hout', hclips'⟩ := ih hnamed hrest
    have hentries : rest.filterMap (requeuedAt u) = rest.filterMap (requeuedAt fs) :=
      List.filterMap_congr fun q hq => by
        rw [requeuedAt, requeuedAt, entryAt_congr (hsame q hq)]
    rw [hstep]
    refine ⟨?_, hout.trans hout', fun c => ?_⟩
    · dsimp only
      rw [hv, hentries, List.filterMap_cons]
      cases requeuedAt fs p <;> rfl
    · dsimp only
      rw [hclips', hclips]
      by_cases hc : Path.queue .inflight c .json = p
      · rw [if_neg (hc ▸ hp), if_pos hc, if_pos (hc ▸ List.mem_cons_self)]
      · have hmem : Path.queue .inflight c .json ∈ p :: rest ↔ Path.queue .inflight c .json ∈ rest :=
          ⟨fun h => (List.mem_cons.mp h).resolve_left hc, List.mem_cons_of_mem _⟩
        simp only [hmem, if_neg hc]

/-! ## The steps of the delivery runner -/

/-- The files of a clip after the quarantine of its sidecar in `pending/`. -/
def quarantinedFiles (f : Holdings) : Holdings
  | .pending, .json => none
  | .pending, .mp4 => none
  | .corrupt, .json => f .pending .json
  | .corrupt, .mp4 => (f .pending .mp4).or (f .corrupt .mp4)
  | d, x => f d x

/-- The files of a clip after its move to `inflight/` with the media `m` and the sidecar `e`. -/
def inflightFiles (f : Holdings) (m : Blob) (e : ClipQueueEntry) : Holdings
  | .pending, .json => none
  | .pending, .mp4 => none
  | .inflight, .json => some (.sidecar e)
  | .inflight, .jsonTmp => none
  | .inflight, .mp4 => some m
  | d, x => f d x

/-- The files of a clip after the quarantine of an orphan. -/
def orphanedFiles (f : Holdings) : Holdings
  | .pending, .json => none
  | .pending, .mp4 => none
  | d, x => f d x

variable {m : Blob} {b : Blob} {s : ClipId}

theorem holdings_quarantined (hb : fs.get (.queue .pending s .json) = some b) :
    holdings (quarantined fs .pending s b) c =
      if c = s then quarantinedFiles (holdings fs c) else holdings fs c := by
  have hmedia : ((fs.del (.queue .pending s .json)).put (.queue .corrupt s .json) b).get
      (.queue .pending s .mp4) = fs.get (.queue .pending s .mp4) := by
    simp [FileMap.get_put, FileMap.get_del]
  funext d x
  unfold holdings quarantined
  dsimp only
  rw [hmedia]
  split_ifs with hc
  · subst hc
    cases hm : fs.get (.queue .pending c .mp4) with
    | none =>
      cases d <;> cases x <;> simp [quarantinedFiles, hm, hb, FileMap.get_put, FileMap.get_del]
    | some m =>
      cases d <;> cases x <;> simp [quarantinedFiles, hm, hb, FileMap.get_put, FileMap.get_del]
  · cases fs.get (.queue .pending s .mp4) with
    | none => simp [hc, FileMap.get_put, FileMap.get_del]
    | some m => simp [hc, FileMap.get_put, FileMap.get_del]

theorem sameOutside_quarantined : SameOutside fs (quarantined fs d s b) := by
  intro p hp
  unfold quarantined
  dsimp only
  split
  · rw [FileMap.get_put, if_neg (hp _ _ _), FileMap.get_del, if_neg (hp _ _ _)]
  · rw [FileMap.get_put, if_neg (hp _ _ _), FileMap.get_del, if_neg (hp _ _ _), FileMap.get_put,
      if_neg (hp _ _ _), FileMap.get_del, if_neg (hp _ _ _)]

theorem holdings_movedInflight :
    holdings (movedInflight fs m e) c =
      if c = e.clipId then inflightFiles (holdings fs c) m e else holdings fs c := by
  funext d x
  unfold holdings movedInflight
  rw [FileMap.get_del, get_replaceSidecar, get_moveMedia]
  by_cases hc : c = e.clipId
  · subst hc
    cases d <;> cases x <;> simp [inflightFiles]
  · simp [hc]

theorem holdings_quarantineOrphan :
    holdings ((fs.del (.queue .pending s .json)).del (.queue .pending s .mp4)) c =
      if c = s then orphanedFiles (holdings fs c) else holdings fs c := by
  funext d x
  unfold holdings
  rw [FileMap.get_del, FileMap.get_del]
  by_cases hc : c = s
  · subst hc
    cases d <;> cases x <;> simp [orphanedFiles]
  · simp [hc]

end Perchstation
