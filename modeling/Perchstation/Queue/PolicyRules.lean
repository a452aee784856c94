import Perchstation.Queue.Policy
import Perchstation.Queue.ScanRules

/-!
# Policy rules — what census, eviction and pruning do to the files

The census reads three listings and changes nothing.  What the policy makes of it is a function of
the census.  A prune removes the prunable sidecars.
-/

namespace Perchstation

open Resumption QueueStore

variable {fs t : Fs} {d : Dir} {l : List Path}

/-! ## Reading a directory -/

/-- What `readSidecarsLoop` answers when all listed files exist. -/
def decodeAll (fs : Fs) : List Path → Except QueueError (List ClipQueueEntry)
  | [] => .ok []
  | p :: rest =>
    if p.hasExt .json then
      match sidecarAt fs p, decodeAll fs rest with
      | .ok e, .ok es => .ok (e :: es)
      | .ok _, .error err => .error err
      | .error err, _ => .error err
    else decodeAll fs rest

/-- The entry a listed path stands for. -/
def entryAt (fs : Fs) (p : Path) : Option ClipQueueEntry :=
  if p.hasExt .json then
    match fs.get p with
    | some (.sidecar e) => some e
    | _ => none
  else none

theorem decodeAll_eq_filterMap
    (h : ∀ p ∈ l, p.hasExt .json = true → ∃ e, fs.get p = some (.sidecar e)) :
    decodeAll fs l = .ok (l.filterMap (entryAt fs)) := by
  induction l with
  | nil => rfl
  | cons p rest ih =>
    have hrest := ih fun q hq => h q (List.mem_cons_of_mem _ hq)
    rw [decodeAll, List.filterMap_cons]
    by_cases hp : p.hasExt .json = true
    · obtain ⟨e, he⟩ := h p List.mem_cons_self hp
      have hat : entryAt fs p = some e := by simp [entryAt, hp, he]
      have hread : sidecarAt fs p = .ok e := sidecarAt_eq_ok_iff.mpr he
      simp only [hp, if_true, hread, hrest, hat]
    · have hat : entryAt fs p = none := by simp [entryAt, hp]
      simp only [hp, Bool.false_eq_true, if_false, hrest, hat]

theorem runs_readSidecarsLoop {v : Except QueueError (List ClipQueueEntry)}
    (hl : ∀ p ∈ l, (fs.get p).isSome) :
    Runs Nominal (readSidecarsLoop l) fs v t ↔ v = decodeAll fs l ∧ t = fs := by
  induction l generalizing v t with
  | nil => simp [readSidecarsLoop, decodeAll]
  | cons p rest ih =>
    have ih' := fun v t => ih (v := v) (t := t) fun q hq => hl q (List.mem_cons_of_mem _ hq)
    rw [readSidecarsLoop, decodeAll]
    by_cases hp : p.hasExt .json = true
    · simp only [hp, if_true, runs_bind, runs_readSidecar, and_assoc, exists_and_left,
        exists_eq_left]
      rcases sidecarAt_cases fs p with ⟨hn, -⟩ | ⟨e, -, he⟩ | ⟨data, -, he⟩
      · have := hl p List.mem_cons_self
        rw [hn] at this
        cases this
      · rw [he]
        simp only [runs_bind, ih', and_assoc, exists_and_left, exists_eq_left]
        cases decodeAll fs rest <;> simp
      · rw [he]
        simp
    · simp only [hp, Bool.false_eq_true, if_false]
      exact ih' v t

theorem runs_readSidecars {v : Except QueueError (List ClipQueueEntry)} :
    Runs Nominal (readSidecars d) fs v t ↔
      t = fs ∧ ∃ l, fs.Lists (fun p => p.inDir d) l ∧ v = decodeAll fs l := by
  simp only [readSidecars, runs_bind, runs_readDir, Nominal]
  constructor
  · rintro ⟨_, _, ⟨rfl, l, hl, rfl⟩, h⟩
    obtain ⟨rfl, rfl⟩ := (runs_readSidecarsLoop fun p hp => (hl.mem.mp hp).2).mp h
    exact ⟨rfl, l, hl, rfl⟩
  · rintro ⟨rfl, l, hl, rfl⟩
    exact ⟨.ok l, t, ⟨rfl, l, hl, rfl⟩,
      (runs_readSidecarsLoop fun p hp => (hl.mem.mp hp).2).mpr ⟨rfl, rfl⟩⟩

/-- A directory reads well exactly if none of its sidecars is undecodable; the answer has the
entries of all of them. -/
theorem decodeAll_ok {es : List ClipQueueEntry} (h : decodeAll fs l = .ok es) :
    (∀ p ∈ l, p.hasExt .json = true → ¬ Undecodable fs p) ∧
      ∀ e, e ∈ es ↔ ∃ p ∈ l, p.hasExt .json = true ∧ fs.get p = some (.sidecar e) := by
  induction l generalizing es with
  | nil =>
    obtain rfl := Except.ok.inj h
    simp
  | cons p rest ih =>
    rw [decodeAll] at h
    split_ifs at h with hp
    · cases hr : sidecarAt fs p with
      | error err =>
        rw [hr] at h
        cases h
      | ok e =>
        -- an entry is the first one's or of the rest
        have hget := sidecarAt_eq_ok_iff.mp hr
        cases hrest : decodeAll fs rest with
        | error err =>
          rw [hr, hrest] at h
          cases h
        | ok es' =>
          rw [hr, hrest] at h
          obtain rfl := Except.ok.inj h
          obtain ⟨h1, h2⟩ := ih hrest
          refine ⟨fun q hq hx => ?_, fun e' => ?_⟩
          · rcases List.mem_cons.mp hq with rfl | hq
            · rintro ⟨data, hd⟩
              rw [hget] at hd
              cases hd
            · exact h1 q hq hx
          · rw [List.mem_cons, h2]
            constructor
            · rintro (rfl | ⟨q, hq, hx, hg⟩)
              · exact ⟨p, List.mem_cons_self, hp, hget⟩
              · exact ⟨q, List.mem_cons_of_mem _ hq, hx, hg⟩
            · rintro ⟨q, hq, hx, hg⟩
              rcases List.mem_cons.mp hq with rfl | hq
              · rw [hget] at hg
                exact Or.inl (Blob.sidecar.inj (Option.some.inj hg)).symm
              · exact Or.inr ⟨q, hq, hx, hg⟩
    · -- a file that is no sidecar is passed over
      obtain ⟨h1, h2⟩ := ih h
      refine ⟨fun q hq hx => ?_, fun e' => (h2 e').trans ?_⟩
      · rcases List.mem_cons.mp hq with rfl | hq
        · exact absurd hx hp
        · exact h1 q hq hx
      · constructor
        · rintro ⟨q, hq, hx, hg⟩
          exact ⟨q, List.mem_cons_of_mem _ hq, hx, hg⟩
        · rintro ⟨q, hq, hx, hg⟩
          rcases List.mem_cons.mp hq with rfl | hq
          · exact absurd hx hp
          · exact ⟨q, hq, hx, hg⟩

/-- Otherwise the answer is the error of an undecodable sidecar. -/
theorem decodeAll_error {err : QueueError} (hl : ∀ p ∈ l, (fs.get p).isSome)
    (h : decodeAll fs l = .error err) :
    ∃ p ∈ l, p.hasExt .json = true ∧ Undecodable fs p ∧ err = .deserialise p := by
  induction l with
  | nil => cases h
  | cons p rest ih =>
    have ih' := fun h => ih (fun q hq => hl q (List.mem_cons_of_mem _ hq)) h
    rw [decodeAll] at h
    split_ifs at h with hp
    · rcases sidecarAt_cases fs p with ⟨hn, -⟩ | ⟨e, -, he⟩ | ⟨data, hd, he⟩
      · have := hl p List.mem_cons_self
        rw [hn] at this
        cases this
      · rw [he] at h
        cases hrest : decodeAll fs rest with
        | error err' =>
          rw [hrest] at h
          obtain rfl := Except.error.inj h
          obtain ⟨q, hq, hrest⟩ := ih' hrest
          exact ⟨q, List.mem_cons_of_mem _ hq, hrest⟩
        | ok es =>
          rw [hrest] at h
          cases h
      · rw [he] at h
        obtain rfl := Except.error.inj h
        exact ⟨p, List.mem_cons_self, hp, ⟨data, hd⟩, rfl⟩
    · obtain ⟨q, hq, hrest⟩ := ih' h
      exact ⟨q, List.mem_cons_of_mem _ hq, hrest⟩

/-! ## The census -/

/-- The three listings a census is made of, as the directories read. -/
structure CensusFrom (fs : Fs) (inflight delivered pending : List Path) : Prop where
  inflight : fs.Lists (fun p => p.inDir .inflight) inflight
  delivered : fs.Lists (fun p => p.inDir .delivered) delivered
  pending : fs.Lists (fun p => p.inDir .pending) pending

theorem exists_censusFrom (fs : Fs) : ∃ li ld lp, CensusFrom fs li ld lp := by
  obtain ⟨li, hli⟩ := fs.exists_lists fun p => p.inDir .inflight
  obtain ⟨ld, hld⟩ := fs.exists_lists fun p => p.inDir .delivered
  obtain ⟨lp, hlp⟩ := fs.exists_lists fun p => p.inDir .pending
  exact ⟨li, ld, lp, hli, hld, hlp⟩

/-- The census of three listings: that of their entries, or the first error. -/
def censusResult (fs : Fs) (inflight delivered pending : List Path) : Except QueueError Census :=
  match decodeAll fs inflight with
  | .error err => .error err
  | .ok i =>
    match decodeAll fs delivered with
    | .error err => .error err
    | .ok d =>
      match decodeAll fs pending with
      | .error err => .error err
      | .ok p => .ok (censusOf i d p)

theorem runs_takeCensus {v : Except QueueError Census} :
    Runs Nominal takeCensus fs v t ↔
      t = fs ∧ ∃ li ld lp, CensusFrom fs li ld lp ∧ v = censusResult fs li ld lp := by
  simp only [takeCensus, runs_bind, runs_readSidecars]
  constructor
  · -- the listings not reached are any
    rintro ⟨_, u, ⟨rfl, li, hli, rfl⟩, h⟩
    obtain ⟨ld, hld⟩ := u.exists_lists fun p => p.inDir .delivered
    obtain ⟨lp, hlp⟩ := u.exists_lists fun p => p.inDir .pending
    cases hi : decodeAll u li with
    | error err =>
      rw [hi] at h
      obtain ⟨rfl, rfl⟩ := h
      exact ⟨rfl, li, ld, lp, ⟨hli, hld, hlp⟩, by rw [censusResult, hi]⟩
    | ok i =>
      rw [hi] at h
      simp only [runs_bind, runs_readSidecars] at h
      obtain ⟨_, w, ⟨rfl, ld, hld, rfl⟩, h⟩ := h
      cases hd : decodeAll w ld with
      | error err =>
        rw [hd] at h
        obtain ⟨rfl, rfl⟩ := h
        exact ⟨rfl, li, ld, lp, ⟨hli, hld, hlp⟩, by simp only [censusResult, hi, hd]⟩
      | ok d =>
        rw [hd] at h
        simp only [runs_bind, runs_readSidecars] at h
        obtain ⟨_, z, ⟨rfl, lp, hlp, rfl⟩, h⟩ := h
        refine ⟨?_, li, ld, lp, ⟨hli, hld, hlp⟩, ?_⟩
        · cases hp : decodeAll z lp <;> rw [hp] at h <;> exact h.2
        · simp only [censusResult, hi, hd]
          cases hp : decodeAll z lp <;> rw [hp] at h <;> exact h.1
  · rintro ⟨rfl, li, ld, lp, ⟨hli, hld, hlp⟩, rfl⟩
    refine ⟨_, t, ⟨rfl, li, hli, rfl⟩, ?_⟩
    cases hi : decodeAll t li with
    | error err => simp [censusResult, hi]
    | ok i =>
      simp only [runs_bind, runs_readSidecars]
      refine ⟨_, t, ⟨rfl, ld, hld, rfl⟩, ?_⟩
      cases hd : decodeAll t ld with
      | error err => simp [censusResult, hi, hd]
      | ok d =>
        simp only [runs_bind, runs_readSidecars]
        refine ⟨_, t, ⟨rfl, lp, hlp, rfl⟩, ?_⟩
        cases hp : decodeAll t lp <;> simp [censusResult, hi, hd, hp]

/-! ## Eviction -/

/-- The files of a candidate. -/
def EvictableEntry.files (e : EvictableEntry) : List Path :=
  [.queue e.dir e.entry.clipId .mp4, .queue e.dir e.entry.clipId .json]

theorem runs_evict {e : EvictableEntry} {v : Except QueueError Unit} :
    Runs Nominal (evict e) fs v t ↔ v = .ok () ∧ t = fs.delAll e.files := by
  simp [evict, runs_bind, runs_removeIfExists, EvictableEntry.files, FileMap.delAll]

theorem delAll_append (fs : Fs) (ps qs : List Path) :
    fs.delAll (ps ++ qs) = (fs.delAll ps).delAll qs := by
  induction ps generalizing fs with
  | nil => rfl
  | cons p ps ih => exact ih (fs.del p)

/-- What the eviction loop comes to. -/
def evictRun (policy : QueuePolicy) (incoming : UInt64) (queueFull : InboxError) (clips : UInt32)
    (bytes : UInt64) (evictions : List EvictionRecord) : List EvictableEntry → PolicyOutcome
  | [] =>
    if breaches policy incoming clips bytes then ⟨evictions, .error queueFull⟩
    else ⟨evictions, .ok ()⟩
  | candidate :: rest =>
    if breaches policy incoming clips bytes then
      let clips' := saturatingSub32 clips 1
      let bytes' := saturatingSub64 bytes candidate.onDiskBytes
      evictRun policy incoming queueFull clips' bytes'
        (evictions ++ [⟨candidate.entry.clipId, evictionReason policy incoming clips bytes, clips',
          bytes'⟩]) rest
    else ⟨evictions, .ok ()⟩

/-! ## The policy -/

/-- The verdict on a census. -/
def enforceResult (policy : QueuePolicy) (incoming : UInt64) (census : Census) (totalClips : UInt32)
    (totalBytes : UInt64) : PolicyOutcome :=
  let queueFull := InboxError.queueFull totalClips policy.maxClips totalBytes policy.maxBytes
  if breaches policy incoming totalClips totalBytes then
    match policy.eviction with
    | .refuseNew => ⟨[], .error queueFull⟩
    | .dropOldestUndelivered =>
      if breaches policy incoming census.floorClips census.floorBytes then ⟨[], .error queueFull⟩
      else evictRun policy incoming queueFull totalClips totalBytes [] census.candidates
  else ⟨[], .ok ()⟩

/-! ## Pruning -/

/-- The sidecar is there and prunable. -/
def PrunableAt (fs : Fs) (before : DateTime) (p : Path) : Prop :=
  ∃ e, fs.get p = some (.sidecar e) ∧ isPrunable e before = true

/-- What a prune leaves: exactly the prunable sidecars of `delivered/`, and the media beside them,
are gone. -/
structure PruneEffect (fs t : Fs) (before : DateTime) (pruned : List ClipId) : Prop where
  same : ∀ p, (∀ s x, p = .queue .delivered s x → x.IsMain →
    ¬ PrunableAt fs before (.queue .delivered s .json)) → t.get p = fs.get p
  gone : ∀ s x, x.IsMain → PrunableAt fs before (.queue .delivered s .json) →
    t.get (.queue .delivered s x) = none
  mem : ∀ c, c ∈ pruned ↔ ∃ s e, fs.get (.queue .delivered s .json) = some (.sidecar e) ∧
    isPrunable e before = true ∧ e.clipId = c

/-- The prunable sidecars among the paths, with their entries. -/
def prunablesOf (fs : Fs) (before : DateTime) (l : List Path) : List (Path × ClipQueueEntry) :=
  l.filterMap fun p =>
    if p.hasExt .json then
      match sidecarAt fs p with
      | .ok e => if isPrunable e before then some (p, e) else none
      | .error _ => none
    else none

def prunedFiles (q : Path × ClipQueueEntry) : List Path := [q.1, q.1.withExtension .mp4]

theorem prunablesOf_delAll {p : Path} {before : DateTime} (hp : p.hasExt .json = true) {l : List Path}
    (hl : p ∉ l) (fs : Fs) (e : ClipQueueEntry) :
    prunablesOf (fs.delAll (prunedFiles (p, e))) before l = prunablesOf fs before l := by
  refine List.filterMap_congr fun q hq => ?_
  have hne : q ≠ p := fun h => hl (h ▸ hq)
  by_cases hx : q.hasExt .json = true
  · have hne' : q ≠ p.withExtension .mp4 := by
      rintro rfl
      cases p <;> simp [Path.withExtension, Path.hasExt] at hx hp
    simp [hx, sidecarAt, prunedFiles, FileMap.delAll, FileMap.get_del, hne, hne']
  · simp [hx]

theorem runs_pruneLoop {before : DateTime} {pruned : List ClipId} (hnd : l.Nodup) :
    Runs Nominal (pruneLoop before l) fs pruned t ↔
      pruned = (prunablesOf fs before l).map (fun q => q.2.clipId) ∧
        t = fs.delAll ((prunablesOf fs before l).flatMap prunedFiles) := by
  induction l generalizing fs pruned with
  | nil => simp [pruneLoop, prunablesOf, FileMap.delAll]
  | cons p rest ih =>
    obtain ⟨hp, hrest⟩ := List.nodup_cons.mp hnd
    rw [pruneLoop]
    -- an entry that is left alone does not show
    have hskip : prunablesOf fs before [p] = [] →
        (Runs Nominal (pruneLoop before rest) fs pruned t ↔
          pruned = (prunablesOf fs before (p :: rest)).map (fun q => q.2.clipId) ∧
            t = fs.delAll ((prunablesOf fs before (p :: rest)).flatMap prunedFiles)) := by
      intro hnone
      have happ : prunablesOf fs before (p :: rest) =
          prunablesOf fs before [p] ++ prunablesOf fs before rest := List.filterMap_append (l := [p])
      rw [happ, hnone, List.nil_append]
      exact ih hrest
    by_cases hx : p.hasExt .json = true
    · simp only [hx, if_true, runs_bind, runs_readSidecar, and_assoc, exists_and_left,
        exists_eq_left]
      cases hr : sidecarAt fs p with
      | error err => exact hskip (by simp [prunablesOf, hx, hr])
      | ok e =>
        by_cases hpr : isPrunable e before = true
        · have hcons : prunablesOf fs before (p :: rest) = (p, e) :: prunablesOf fs before rest := by
            simp [prunablesOf, hx, hr, hpr]
          have hdel : ∀ w : Fs, (∃ v, Runs Nominal (removeFile (p.withExtension .mp4)) (fs.del p) v w) ↔
              w = fs.delAll (prunedFiles (p, e)) := by
            intro w
            simp only [runs_removeFile, Nominal]
            cases hm : FileMap.get (fs.del p) (p.withExtension .mp4) with
            | none => simp [prunedFiles, FileMap.delAll, FileMap.del_of_get_none hm]
            | some b => simp [prunedFiles, FileMap.delAll]
          simp only [hpr, if_true, runs_bind, runs_removeIfExists, and_assoc, exists_and_left,
            exists_eq_left, runs_pure]
          rw [hcons, List.map_cons, List.flatMap_cons, delAll_append]
          constructor
          · rintro ⟨v, w, hw, pruned', u, h, rfl, rfl⟩
            obtain rfl := (hdel w).mp ⟨v, hw⟩
            obtain ⟨rfl, rfl⟩ := (ih hrest).mp h
            simp only [prunablesOf_delAll hx hp, true_and]
          · rintro ⟨rfl, rfl⟩
            obtain ⟨v, hw⟩ := (hdel _).mpr rfl
            exact ⟨v, _, hw, _, _,
              (ih hrest).mpr ⟨rfl, by rw [prunablesOf_delAll hx hp]⟩,
              by rw [prunablesOf_delAll hx hp], rfl⟩
        · simp only [hpr, Bool.false_eq_true, if_false]
          exact hskip (by simp [prunablesOf, hx, hr, hpr])
    · simp only [hx, Bool.false_eq_true, if_false]
      exact hskip (by simp [prunablesOf, hx])

theorem mem_prunablesOf {before : DateTime} (hl : fs.Lists (fun p => p.inDir .delivered) l)
    {q : Path × ClipQueueEntry} :
    q ∈ prunablesOf fs before l ↔ ∃ s, q.1 = .queue .delivered s .json ∧
      fs.get q.1 = some (.sidecar q.2) ∧ isPrunable q.2 before = true := by
  obtain ⟨p, e⟩ := q
  rw [prunablesOf, List.mem_filterMap]
  constructor
  · rintro ⟨p', hp', h⟩
    split_ifs at h with hx
    cases hr : sidecarAt fs p' with
    | error err =>
      rw [hr] at h
      cases h
    | ok e' =>
      simp only [hr] at h
      split_ifs at h with hpr
      obtain ⟨rfl, rfl⟩ := Prod.mk.inj (Option.some.inj h)
      obtain ⟨s, rfl⟩ := inDir_and_hasExt_iff.mp ⟨(hl.mem.mp hp').1, hx⟩
      exact ⟨s, rfl, sidecarAt_eq_ok_iff.mp hr, hpr⟩
  · dsimp only
    rintro ⟨s, rfl, hget, hpr⟩
    have hr : sidecarAt fs (.queue .delivered s .json) = .ok e := sidecarAt_eq_ok_iff.mpr hget
    have hp : Path.queue .delivered s .json ∈ l :=
      hl.mem.mpr ⟨by simp [Path.inDir], by simp [hget]⟩
    exact ⟨_, hp, by simp [Path.hasExt, hr, hpr]⟩

theorem runs_pruneDelivered {before : DateTime} {r : Except QueueError (List ClipId)}
    (h : Runs Nominal (pruneDelivered before) fs r t) :
    ∃ pruned, r = .ok pruned ∧ PruneEffect fs t before pruned := by
  simp only [pruneDelivered, runs_bind, runs_readDir, Nominal] at h
  obtain ⟨_, u, ⟨rfl, l, hl, rfl⟩, h⟩ := h
  simp only [runs_bind] at h
  obtain ⟨pruned, w, h, rfl, rfl⟩ := h
  obtain ⟨rfl, rfl⟩ := (runs_pruneLoop hl.nodup).mp h
  have hmem : ∀ p, p ∈ (prunablesOf u before l).flatMap prunedFiles ↔
      ∃ s x, p = .queue .delivered s x ∧ x.IsMain ∧
        PrunableAt u before (.queue .delivered s .json) := by
    intro p
    rw [List.mem_flatMap]
    constructor
    · rintro ⟨⟨p', e⟩, hq, hp⟩
      obtain ⟨s, rfl, hget, hpr⟩ := (mem_prunablesOf hl).mp hq
      rcases List.mem_cons.mp hp with rfl | hp
      · exact ⟨s, .json, rfl, Or.inr rfl, e, hget, hpr⟩
      · rw [List.mem_singleton] at hp
        exact ⟨s, .mp4, hp, Or.inl rfl, e, hget, hpr⟩
    · rintro ⟨s, x, rfl, hx, e, hget, hpr⟩
      refine ⟨(.queue .delivered s .json, e), (mem_prunablesOf hl).mpr ⟨s, rfl, hget, hpr⟩, ?_⟩
      rcases hx with rfl | rfl <;> simp [prunedFiles, Path.withExtension]
  refine ⟨_, rfl, fun p hp => ?_, fun s x hx hp => ?_, fun c => ?_⟩
  · rw [FileMap.get_delAll, if_neg]
    intro hin
    obtain ⟨s, x, rfl, hx, hpr⟩ := (hmem p).mp hin
    exact hp s x rfl hx hpr
  · rw [FileMap.get_delAll, if_pos ((hmem _).mpr ⟨s, x, rfl, hx, hp⟩)]
  · rw [List.mem_map]
    constructor
    · rintro ⟨⟨p, e⟩, hq, rfl⟩
      obtain ⟨s, rfl, hget, hpr⟩ := (mem_prunablesOf hl).mp hq
      exact ⟨s, e, hget, hpr, rfl⟩
    · rintro ⟨s, e, hget, hpr, rfl⟩
      exact ⟨(.queue .delivered s .json, e), (mem_prunablesOf hl).mpr ⟨s, rfl, hget, hpr⟩, rfl⟩

end Perchstation
