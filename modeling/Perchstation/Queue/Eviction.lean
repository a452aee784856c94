import Perchstation.Queue.PolicyRules

/-!
# Eviction — what one call of the policy evicts

The eviction loop stops at the first prefix of the candidates after which the running totals breach
no ceiling.  The outcome of a call, its records and the files it removes are all read off that prefix.
-/

namespace Perchstation

open Resumption QueueStore

/-- A ceiling holds exactly if the saturated sums keep it. -/
theorem breaches_eq_false_iff {policy : QueuePolicy} {incoming : UInt64} {clips : UInt32}
    {bytes : UInt64} :
    breaches policy incoming clips bytes = false ↔
      min (clips.toNat + 1) (2 ^ 32 - 1) ≤ policy.maxClips.toNat ∧
        min (bytes.toNat + incoming.toNat) (2 ^ 64 - 1) ≤ policy.maxBytes.toNat := by
  unfold breaches
  rw [decide_eq_false_iff_not, not_or, UInt32.not_lt, UInt64.not_lt, UInt32.le_iff_toNat_le,
    UInt64.le_iff_toNat_le, saturatingAdd32_toNat, saturatingAdd64_toNat]
  exact Iff.rfl

/-! ## The running totals -/

/-- The clip count the loop has after evicting `done`. -/
def afterClips (clips : UInt32) (done : List EvictableEntry) : UInt32 :=
  done.foldl (fun n _ => saturatingSub32 n 1) clips

/-- The byte count the loop has after evicting `done`. -/
def afterBytes (bytes : UInt64) (done : List EvictableEntry) : UInt64 :=
  done.foldl (fun n e => saturatingSub64 n e.onDiskBytes) bytes

/-- The bytes the entries free. -/
def freedBytes (done : List EvictableEntry) : ℕ := (done.map fun e => e.onDiskBytes.toNat).sum

section Totals

variable {clips : UInt32} {bytes : UInt64} {done : List EvictableEntry}

theorem toNat_afterClips : (afterClips clips done).toNat = clips.toNat - done.length := by
  induction done generalizing clips with
  | nil => rfl
  | cons e rest ih =>
    show (afterClips (saturatingSub32 clips 1) rest).toNat = _
    rw [ih, saturatingSub32_toNat, List.length_cons]
    show clips.toNat - 1 - rest.length = _
    omega

theorem toNat_afterBytes : (afterBytes bytes done).toNat = bytes.toNat - freedBytes done := by
  induction done generalizing bytes with
  | nil => rfl
  | cons e rest ih =>
    show (afterBytes (saturatingSub64 bytes e.onDiskBytes) rest).toNat = _
    have hfreed : freedBytes (e :: rest) = e.onDiskBytes.toNat + freedBytes rest := List.sum_cons
    rw [ih, saturatingSub64_toNat, hfreed, Nat.sub_sub]

end Totals

/-! ## The loop -/

variable {policy : QueuePolicy} {incoming : UInt64} {queueFull : InboxError} {clips : UInt32}
  {bytes : UInt64} {evictions : List EvictionRecord} {cs done : List EvictableEntry}
  {v : PolicyOutcome} {fs t : Fs}

/-- The candidates the loop evicts. -/
def evictedOf (policy : QueuePolicy) (incoming : UInt64) :
    UInt32 → UInt64 → List EvictableEntry → List EvictableEntry
  | _, _, [] => []
  | clips, bytes, candidate :: rest =>
    if breaches policy incoming clips bytes then
      candidate :: evictedOf policy incoming (saturatingSub32 clips 1)
        (saturatingSub64 bytes candidate.onDiskBytes) rest
    else []

/-- The records of the evictions. -/
def recordsOf (policy : QueuePolicy) (incoming : UInt64) :
    UInt32 → UInt64 → List EvictableEntry → List EvictionRecord
  | _, _, [] => []
  | clips, bytes, candidate :: rest =>
    let clips' := saturatingSub32 clips 1
    let bytes' := saturatingSub64 bytes candidate.onDiskBytes
    ⟨candidate.entry.clipId, evictionReason policy incoming clips bytes, clips', bytes'⟩ ::
      recordsOf policy incoming clips' bytes' rest

/-- The store without the files of the entries. -/
def afterEvicting (fs : Fs) (done : List EvictableEntry) : Fs :=
  fs.delAll (done.flatMap EvictableEntry.files)

theorem afterEvicting_cons (fs : Fs) (e : EvictableEntry) (done : List EvictableEntry) :
    afterEvicting fs (e :: done) = afterEvicting (fs.delAll e.files) done := by
  rw [afterEvicting, List.flatMap_cons, delAll_append]
  rfl

theorem evictedOf_isPrefix (clips : UInt32) (bytes : UInt64) (cs : List EvictableEntry) :
    evictedOf policy incoming clips bytes cs <+: cs := by
  induction cs generalizing clips bytes with
  | nil => exact List.prefix_refl []
  | cons candidate rest ih =>
    unfold evictedOf
    split_ifs
    · exact (List.prefix_cons_inj _).mpr (ih _ _)
    · exact List.nil_prefix

/-- No shorter prefix would have done. -/
theorem evictedOf_shortest (hq : done <+: cs)
    (h : breaches policy incoming (afterClips clips done) (afterBytes bytes done) = false) :
    (evictedOf policy incoming clips bytes cs).length ≤ done.length := by
  induction cs generalizing clips bytes done with
  | nil => exact Nat.zero_le _
  | cons candidate rest ih =>
    unfold evictedOf
    split_ifs with hb
    · cases done with
      | nil =>
        rw [show afterClips clips [] = clips from rfl, show afterBytes bytes [] = bytes from rfl,
          hb] at h
        cases h
      | cons e done =>
        obtain ⟨rfl, hrest⟩ := List.cons_prefix_cons.mp hq
        exact Nat.succ_le_succ (ih hrest h)
    · exact Nat.zero_le _

/-- The loop goes on to the end of the candidates if it must. -/
theorem evictedOf_eq_of_breaches
    (h : breaches policy incoming (afterClips clips (evictedOf policy incoming clips bytes cs))
      (afterBytes bytes (evictedOf policy incoming clips bytes cs)) = true) :
    evictedOf policy incoming clips bytes cs = cs := by
  induction cs generalizing clips bytes with
  | nil => rfl
  | cons candidate rest ih =>
    unfold evictedOf at h ⊢
    split_ifs at h ⊢ with hb
    · rw [ih h]
    · exact absurd h hb

theorem evictRun_eq :
    evictRun policy incoming queueFull clips bytes evictions cs =
      ⟨evictions ++ recordsOf policy incoming clips bytes (evictedOf policy incoming clips bytes cs),
        if breaches policy incoming (afterClips clips (evictedOf policy incoming clips bytes cs))
          (afterBytes bytes (evictedOf policy incoming clips bytes cs)) then .error queueFull
        else .ok ()⟩ := by
  induction cs generalizing clips bytes evictions with
  | nil =>
    unfold evictRun evictedOf
    show _ = (⟨evictions ++ [], if breaches policy incoming clips bytes then _ else _⟩ :
      PolicyOutcome)
    rw [List.append_nil]
    split_ifs <;> rfl
  | cons candidate rest ih =>
    unfold evictRun evictedOf
    split_ifs with hb hb'
    · rw [ih, List.append_assoc]
      exact congrArg _ (if_pos hb')
    · rw [ih, List.append_assoc]
      exact congrArg _ (if_neg hb')
    · exact absurd ‹_› hb
    · rw [recordsOf, List.append_nil]

theorem runs_evictLoop_iff :
    Runs Nominal (evictLoop policy incoming queueFull clips bytes evictions cs) fs v t ↔
      v = evictRun policy incoming queueFull clips bytes evictions cs ∧
        t = afterEvicting fs (evictedOf policy incoming clips bytes cs) := by
  induction cs generalizing fs clips bytes evictions with
  | nil =>
    rw [evictLoop, evictRun]
    split_ifs <;> exact Iff.rfl
  | cons candidate rest ih =>
    rw [evictLoop, evictRun, evictedOf]
    split_ifs
    · simp only [runs_bind, runs_evict, and_assoc, exists_and_left, exists_eq_left, ih,
        afterEvicting_cons]
    · exact Iff.rfl

/-- Each record has the totals after its eviction. -/
theorem getElem?_recordsOf (clips : UInt32) (bytes : UInt64) (done : List EvictableEntry) (i : ℕ) :
    (recordsOf policy incoming clips bytes done)[i]? = done[i]?.map fun e =>
      ⟨e.entry.clipId, evictionReason policy incoming (afterClips clips (done.take i))
          (afterBytes bytes (done.take i)), afterClips clips (done.take (i + 1)),
        afterBytes bytes (done.take (i + 1))⟩ := by
  induction done generalizing clips bytes i with
  | nil => simp [recordsOf]
  | cons e rest ih =>
    unfold recordsOf
    cases i with
    | zero => rfl
    | succ i =>
      rw [List.getElem?_cons_succ, List.getElem?_cons_succ, ih]
      rfl

/-! ## A call -/

/-- The candidates a call evicts, for a census with its totals. -/
def evictedBy (policy : QueuePolicy) (incoming : UInt64) (census : Census) (totalClips : UInt32)
    (totalBytes : UInt64) : List EvictableEntry :=
  if breaches policy incoming totalClips totalBytes then
    match policy.eviction with
    | .refuseNew => []
    | .dropOldestUndelivered =>
      if breaches policy incoming census.floorClips census.floorBytes then []
      else evictedOf policy incoming totalClips totalBytes census.candidates
  else []

theorem evictedBy_isPrefix {census : Census} {tc : UInt32} {tb : UInt64} :
    evictedBy policy incoming census tc tb <+: census.candidates := by
  unfold evictedBy
  split
  · cases policy.eviction with
    | refuseNew => exact List.nil_prefix
    | dropOldestUndelivered =>
      dsimp only
      split
      · exact List.nil_prefix
      · exact evictedOf_isPrefix _ _ _
  · exact List.nil_prefix

/-- A call is admitted either as things are, or by evictions after which the running totals fit and
that the floor left room for. -/
theorem enforceResult_eq_ok_iff {census : Census} {tc : UInt32} {tb : UInt64} :
    (enforceResult policy incoming census tc tb).result = .ok () ↔
      breaches policy incoming tc tb = false ∨
        policy.eviction = .dropOldestUndelivered ∧
          breaches policy incoming census.floorClips census.floorBytes = false ∧
          breaches policy incoming
            (afterClips tc (evictedOf policy incoming tc tb census.candidates))
            (afterBytes tb (evictedOf policy incoming tc tb census.candidates)) = false := by
  unfold enforceResult
  by_cases hb : breaches policy incoming tc tb = true
  · cases hev : policy.eviction with
    | refuseNew => simp [hb]
    | dropOldestUndelivered =>
      by_cases hf : breaches policy incoming census.floorClips census.floorBytes = true
      · simp [hb, hf]
      · simp only [hb, hf, if_true, Bool.false_eq_true, if_false, evictRun_eq]
        split_ifs with hafter
        · simp [hafter]
        · simp [hafter]
  · simp [hb]

/-- A call that is admitted leaves totals that fit, and evicts only if the floor does. -/
theorem breaches_of_enforceResult_eq_ok {census : Census} {tc : UInt32} {tb : UInt64}
    (h : (enforceResult policy incoming census tc tb).result = .ok ()) :
    breaches policy incoming (afterClips tc (evictedBy policy incoming census tc tb))
        (afterBytes tb (evictedBy policy incoming census tc tb)) = false ∧
      (evictedBy policy incoming census tc tb = [] ∨
        breaches policy incoming census.floorClips census.floorBytes = false) := by
  by_cases hnow : breaches policy incoming tc tb = false
  · have hnone : evictedBy policy incoming census tc tb = [] := by rw [evictedBy, hnow]; rfl
    rw [hnone]
    exact ⟨hnow, Or.inl rfl⟩
  · obtain ⟨hdrop, hfloor, hafter⟩ := (enforceResult_eq_ok_iff.mp h).resolve_left hnow
    have hdone : evictedBy policy incoming census tc tb =
        evictedOf policy incoming tc tb census.candidates := by
      rw [Bool.not_eq_false] at hnow
      rw [evictedBy, if_pos hnow, hdrop]
      exact if_neg (by rw [hfloor]; decide)
    rw [hdone]
    exact ⟨hafter, Or.inr hfloor⟩

theorem runs_enforce_iff {census : Census} {tc : UInt32} {tb : UInt64} :
    Runs Nominal (enforce policy incoming census tc tb) fs v t ↔
      v = enforceResult policy incoming census tc tb ∧
        t = afterEvicting fs (evictedBy policy incoming census tc tb) := by
  unfold enforce enforceResult evictedBy
  by_cases hb : breaches policy incoming tc tb = true
  · cases hev : policy.eviction with
    | refuseNew =>
      simp only [hb, if_true]
      exact Iff.rfl
    | dropOldestUndelivered =>
      by_cases hf : breaches policy incoming census.floorClips census.floorBytes = true
      · simp only [hb, hf, if_true]
        exact Iff.rfl
      · simp only [hb, hf, if_true, Bool.false_eq_true, if_false]
        exact runs_evictLoop_iff
  · simp only [hb, Bool.false_eq_true, if_false]
    exact Iff.rfl

/-- A call takes a census of some listings and fails with it, panics at its totals, or enforces the
policy on them. -/
theorem runs_applyPolicy_iff {profile : Profile} :
    Runs Nominal (applyPolicy profile policy incoming) fs v t ↔
      ∃ li ld lp, CensusFrom fs li ld lp ∧
        ((∃ err, censusResult fs li ld lp = .error err ∧ v = ⟨[], .error (.queue err)⟩ ∧ t = fs) ∨
          ∃ census tc tb, censusResult fs li ld lp = .ok census ∧
            censusTotals profile census = some (tc, tb) ∧
            v = enforceResult policy incoming census tc tb ∧
            t = afterEvicting fs (evictedBy policy incoming census tc tb)) := by
  simp only [applyPolicy, runs_bind, runs_takeCensus]
  constructor
  · rintro ⟨_, u, ⟨rfl, li, ld, lp, hc, rfl⟩, h⟩
    refine ⟨li, ld, lp, hc, ?_⟩
    cases hok : censusResult u li ld lp with
    | error err =>
      rw [hok] at h
      obtain ⟨rfl, rfl⟩ := h
      exact Or.inl ⟨err, rfl, rfl, rfl⟩
    | ok census =>
      rw [hok] at h
      cases htot : censusTotals profile census with
      | none => simp only [htot, runs_abort] at h
      | some total =>
        obtain ⟨tc, tb⟩ := total
        simp only [htot] at h
        obtain ⟨rfl, rfl⟩ := runs_enforce_iff.mp h
        exact Or.inr ⟨census, tc, tb, rfl, htot, rfl, rfl⟩
  · rintro ⟨li, ld, lp, hc, ⟨err, herr, rfl, rfl⟩ | ⟨census, tc, tb, hok, htot, rfl, rfl⟩⟩
    · refine ⟨_, t, ⟨rfl, li, ld, lp, hc, rfl⟩, ?_⟩
      rw [herr]
      exact ⟨rfl, rfl⟩
    · refine ⟨_, fs, ⟨rfl, li, ld, lp, hc, rfl⟩, ?_⟩
      rw [hok]
      simp only [htot]
      exact runs_enforce_iff.mpr ⟨rfl, rfl⟩

/-! ## What a call leaves -/

/-- The loop evicts a first part of the candidates, whose files it removes and whose clip-ids it
records, in order. -/
structure EvictedPrefix (fs t : Fs) (candidates : List EvictableEntry)
    (evictions : List EvictionRecord) (done : List EvictableEntry) : Prop where
  isPrefix : done <+: candidates
  records : evictions.map EvictionRecord.clipId = done.map fun e => e.entry.clipId
  files : t = fs.delAll (done.flatMap EvictableEntry.files)

/-- What a policy call may have changed: it removes the files of candidates of its census and records
their clip-ids; every other file is as it was. -/
structure PolicyEffect (fs t : Fs) (evictions : List EvictionRecord) : Prop where
  same : ∀ p, (∀ r ∈ evictions, ∀ d x, p ≠ .queue d r.clipId x) → t.get p = fs.get p
  subset : ∀ p b, t.get p = some b → fs.get p = some b
  evicted : ∀ r ∈ evictions, ∃ d s e, (d = .pending ∨ d = .delivered ∧ isUndeliverable e = true) ∧
    fs.get (.queue d s .json) = some (.sidecar e) ∧ e.clipId = r.clipId ∧
    ∀ x, x.IsMain → t.get (.queue d r.clipId x) = none

theorem PolicyEffect.refl (fs : Fs) : PolicyEffect fs fs [] :=
  ⟨fun _ _ => rfl, fun _ _ h => h, by simp⟩

/-- A candidate of the census is an entry of `pending/` or an Undeliverable one of `delivered/`. -/
theorem mem_candidates {i d p : List ClipQueueEntry} {e : EvictableEntry} :
    e ∈ (censusOf i d p).candidates ↔
      (e.location = .deliveredUndeliverable ∧ e.entry ∈ d ∧ isUndeliverable e.entry = true) ∨
        (e.location = .pending ∧ e.entry ∈ p) := by
  obtain ⟨location, entry⟩ := e
  cases location <;> simp [censusOf, sortByKey, List.mem_insertionSort]

variable {li ld lp : List Path} {census : Census}

/-- The sidecar a candidate was read from. -/
theorem sidecar_of_mem_candidates (hc : CensusFrom fs li ld lp)
    (h : censusResult fs li ld lp = .ok census) {e : EvictableEntry}
    (he : e ∈ census.candidates) :
    (e.dir = .pending ∨ e.dir = .delivered ∧ isUndeliverable e.entry = true) ∧
      ∃ s, fs.get (.queue e.dir s .json) = some (.sidecar e.entry) := by
  unfold censusResult at h
  cases hi : decodeAll fs li <;> rw [hi] at h <;> try cases h
  cases hd : decodeAll fs ld <;> rw [hd] at h <;> try cases h
  cases hp : decodeAll fs lp <;> rw [hp] at h <;> try cases h
  have hread : ∀ {d l es}, fs.Lists (fun p => p.inDir d) l → decodeAll fs l = .ok es →
      e.entry ∈ es → ∃ s, fs.get (.queue d s .json) = some (.sidecar e.entry) := by
    intro d l es hl hes hmem
    obtain ⟨p, hpl, hx, hget⟩ := ((decodeAll_ok hes).2 _).mp hmem
    obtain ⟨s, rfl⟩ := inDir_and_hasExt_iff.mp ⟨(hl.mem.mp hpl).1, hx⟩
    exact ⟨s, hget⟩
  rcases mem_candidates.mp he with ⟨hloc, hmem, hu⟩ | ⟨hloc, hmem⟩
  · have hdir : e.dir = .delivered := by rw [EvictableEntry.dir, hloc]
    rw [hdir]
    exact ⟨Or.inr ⟨rfl, hu⟩, hread hc.delivered hd hmem⟩
  · have hdir : e.dir = .pending := by rw [EvictableEntry.dir, hloc]
    rw [hdir]
    exact ⟨Or.inl rfl, hread hc.pending hp hmem⟩

theorem EvictedPrefix.policyEffect {new : List EvictionRecord} {done : List EvictableEntry}
    (h : EvictedPrefix fs t census.candidates new done) (hc : CensusFrom fs li ld lp)
    (hok : censusResult fs li ld lp = .ok census) : PolicyEffect fs t new := by
  have hget : ∀ p, t.get p = if p ∈ done.flatMap EvictableEntry.files then none else fs.get p := by
    intro p
    rw [h.files, FileMap.get_delAll]
  have hrec : ∀ e ∈ done, ∃ r ∈ new, r.clipId = e.entry.clipId := by
    intro e he
    have hmem : e.entry.clipId ∈ new.map EvictionRecord.clipId :=
      h.records ▸ List.mem_map_of_mem he
    exact List.mem_map.mp hmem
  refine ⟨fun p hp => ?_, fun p b hb => ?_, fun r hr => ?_⟩
  · rw [hget, if_neg]
    intro hmem
    obtain ⟨e, he, hf⟩ := List.mem_flatMap.mp hmem
    obtain ⟨r, hr, hid⟩ := hrec e he
    rcases List.mem_cons.mp hf with rfl | hf
    · exact hp r hr e.dir .mp4 (by rw [hid])
    · rw [List.mem_singleton] at hf
      exact hp r hr e.dir .json (by rw [hf, hid])
  · rw [hget] at hb
    split_ifs at hb
    exact hb
  · have hmem : r.clipId ∈ done.map fun e => e.entry.clipId :=
      h.records ▸ List.mem_map_of_mem hr
    obtain ⟨e, he, hid⟩ := List.mem_map.mp hmem
    obtain ⟨hdir, s, hs⟩ := sidecar_of_mem_candidates hc hok (h.isPrefix.subset he)
    refine ⟨e.dir, s, e.entry, hdir, hs, hid, fun x hx => ?_⟩
    rw [hget, if_pos]
    refine List.mem_flatMap.mpr ⟨e, he, ?_⟩
    rcases hx with rfl | rfl <;> simp [EvictableEntry.files, hid]

theorem clipIds_recordsOf (clips : UInt32) (bytes : UInt64) (done : List EvictableEntry) :
    (recordsOf policy incoming clips bytes done).map EvictionRecord.clipId =
      done.map fun e => e.entry.clipId := by
  induction done generalizing clips bytes with
  | nil => rfl
  | cons e rest ih => exact congrArg _ (ih _ _)

/-- The records of a call name the entries it evicts. -/
theorem evictedPrefix_enforceResult {tc : UInt32} {tb : UInt64} :
    EvictedPrefix fs (afterEvicting fs (evictedBy policy incoming census tc tb)) census.candidates
      (enforceResult policy incoming census tc tb).evictions
      (evictedBy policy incoming census tc tb) := by
  refine ⟨evictedBy_isPrefix, ?_, rfl⟩
  unfold enforceResult evictedBy
  by_cases hb : breaches policy incoming tc tb = true
  · cases hev : policy.eviction with
    | refuseNew => simp [hb]
    | dropOldestUndelivered =>
      by_cases hf : breaches policy incoming census.floorClips census.floorBytes = true
      · simp [hb, hf]
      · simp only [hb, hf, if_true, Bool.false_eq_true, if_false, evictRun_eq, List.nil_append]
        exact clipIds_recordsOf _ _ _
  · simp [hb]

/-- A policy call fails with the census, or enforces the policy on it. -/
theorem runs_applyPolicy {profile : Profile}
    (h : Runs Nominal (applyPolicy profile policy incoming) fs v t) :
    PolicyEffect fs t v.evictions ∧ ∃ li ld lp, CensusFrom fs li ld lp ∧
      ((∃ err, censusResult fs li ld lp = .error err ∧ v = ⟨[], .error (.queue err)⟩) ∨
        ∃ census tc tb, censusResult fs li ld lp = .ok census ∧
          censusTotals profile census = some (tc, tb) ∧
          v = enforceResult policy incoming census tc tb) := by
  obtain ⟨li, ld, lp, hc, hcase⟩ := runs_applyPolicy_iff.mp h
  rcases hcase with ⟨err, herr, rfl, rfl⟩ | ⟨census, tc, tb, hok, htot, rfl, rfl⟩
  · exact ⟨PolicyEffect.refl _, li, ld, lp, hc, Or.inl ⟨err, herr, rfl⟩⟩
  · exact ⟨evictedPrefix_enforceResult.policyEffect hc hok, li, ld, lp, hc,
      Or.inr ⟨census, tc, tb, hok, htot, rfl⟩⟩

end Perchstation
