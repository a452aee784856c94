import Perchstation.Queue.Eviction
import Perchstation.Race.Census

/-!
# The sweep beside the runner

An eviction removes the media of its candidate and then the sidecar.  If the clip lies in `pending/`
with both when its media goes, nothing is left for the runner to move (`ClipFiles.Dying`): the
recorded eviction takes the clip off the queue, and the counters of the loop bound what is left
(`Evicting`).
-/

namespace Perchstation

open Interleaving Resumption QueueStore

/-! ## The requests of a sweep -/

/-- Requests that remove a file of the queue; a sweep can also panic. -/
def RemovesOnly : Req → Prop
  | .removeFile (.queue _ _ _) | .abort => True
  | _ => False

/-- Requests that look, or remove a file of the queue. -/
def SweepsOnly : Req → Prop
  | .readDir _ | .read _ | .removeFile (.queue _ _ _) | .abort => True
  | _ => False

theorem RemovesOnly.sweepsOnly {r : Req} (h : RemovesOnly r) : SweepsOnly r := by
  cases r with
  | removeFile p =>
    cases p with
    | queue d c x => trivial
    | _ => exact h.elim
  | abort => trivial
  | _ => exact h.elim

theorem removesOnly_removeIfExists (d : Dir) (c : ClipId) (x : Ext) :
    Within RemovesOnly (removeIfExists (.queue d c x)) := by
  refine ⟨trivial, fun v => ?_⟩
  rcases v with (_ | _ | _) | _ <;> exact within_pure _

theorem removesOnly_evict (e : EvictableEntry) : Within RemovesOnly (evict e) := by
  refine (removesOnly_removeIfExists _ _ _).bind fun r => ?_
  cases r with
  | error err => exact within_pure _
  | ok => exact removesOnly_removeIfExists _ _ _

theorem removesOnly_evictLoop (policy : QueuePolicy) (incoming : UInt64) (queueFull : InboxError)
    (clips : UInt32) (bytes : UInt64) (evictions : List EvictionRecord)
    (rest : List EvictableEntry) :
    Within RemovesOnly (evictLoop policy incoming queueFull clips bytes evictions rest) := by
  induction rest generalizing clips bytes evictions with
  | nil =>
    unfold evictLoop
    split_ifs <;> exact within_pure _
  | cons e rest ih =>
    unfold evictLoop
    split_ifs
    · refine (removesOnly_evict e).bind fun r => ?_
      cases r with
      | error err => exact within_pure _
      | ok => exact ih _ _ _
    · exact within_pure _

/-- What a sweep does with what its census found. -/
def enforceOn (profile : Profile) (policy : QueuePolicy) (incoming : UInt64) :
    Except QueueError Survey → Act PolicyOutcome
  | .error err => return ⟨[], .error (.queue err)⟩
  | .ok x =>
    match censusTotals profile x.census with
    | none => abort PolicyOutcome
    | some (clips, bytes) => enforce policy incoming x.census clips bytes

theorem applyPolicy_eq (profile : Profile) (policy : QueuePolicy) (incoming : UInt64) :
    applyPolicy profile policy incoming = survey >>= enforceOn profile policy incoming := by
  unfold applyPolicy
  rw [takeCensus_eq, bind_assoc]
  refine congrArg _ (funext fun r => ?_)
  cases r <;> rfl

theorem removesOnly_enforceOn (profile : Profile) (policy : QueuePolicy) (incoming : UInt64)
    (r : Except QueueError Survey) : Within RemovesOnly (enforceOn profile policy incoming r) := by
  cases r with
  | error err => exact within_pure _
  | ok x =>
    unfold enforceOn
    dsimp only
    cases censusTotals profile x.census with
    | none =>
      refine ⟨trivial, fun v => ?_⟩
      cases v
    | some totals =>
      simp only [enforce]
      split
      · split
        · exact within_pure _
        · split
          · exact within_pure _
          · exact removesOnly_evictLoop _ _ _ _ _ _ _
      · exact within_pure _

theorem sweepsOnly_applyPolicy (profile : Profile) (policy : QueuePolicy) (incoming : UInt64) :
    Within SweepsOnly (applyPolicy profile policy incoming) := by
  rw [applyPolicy_eq]
  refine (looksOnly_survey.mono fun r hr => ?_).bind fun r =>
    (removesOnly_enforceOn profile policy incoming r).mono fun r hr => ?_
  · cases r <;> first | exact hr.elim | trivial
  · exact hr.sweepsOnly

/-! ## Evictions beside the runner -/

section Sweep

variable {n : ClipId → UInt64} {new seen : ClipId → Prop} {had : Finset ClipId} {fits : Prop}
  {fs t : Fs} {c : ClipId} {d : Dir} {x : Ext}

/-- The clips of the records. -/
def evicted (evictions : List EvictionRecord) : List ClipId := evictions.map (·.clipId)

/-- The loop has evicted the clips `names` and still has the candidates `rest`; if the queue fits the
counters, what is not evicted is at most `clips` clips of `bytes` bytes. -/
structure Evicting (n : ClipId → UInt64) (new : ClipId → Prop) (fits : Prop)
    (names : List ClipId) (rest : List EvictableEntry) (clips bytes : ℕ) (fs : Fs) : Prop where
  legal : LegalQueue n new fs
  fresh : ∀ c, new c → ¬(filesOf fs c).Stored
  buried : ∀ c ∈ names, (filesOf fs c).Buried
  nodup : (names ++ rest.map (·.entry.clipId)).Nodup
  pending : ∀ e ∈ rest, e.location = .pending → e.entry.byteSize = n e.entry.clipId
  delivered : ∀ e ∈ rest, e.location = .deliveredUndeliverable →
    (filesOf fs e.entry.clipId).deliveredSidecar ≠ none
  count : fits → (clipsOf fs \ names.toFinset).card ≤ clips
  size : fits → ∑ c ∈ mediaClips fs \ names.toFinset, (n c).toNat ≤ bytes

theorem RunnerStep.buried (h : RunnerStep n fs t) (hb : (filesOf fs c).Buried) :
    (filesOf t c).Buried := by
  rcases h.files c with heq | hm
  · exact heq ▸ hb
  · exact hm.buried hb

theorem RunnerStep.fresh (h : RunnerStep n fs t) (hf : ¬(filesOf fs c).Stored) :
    ¬(filesOf t c).Stored :=
  fun hst => hf (mem_clipsOf.mp (h.clipsOf_subset (mem_clipsOf.mpr hst)))

theorem RunnerStep.dying (h : RunnerStep n fs t) (hl : LegalQueue n new fs)
    (hd : (filesOf fs c).Dying) : (filesOf t c).Dying := by
  rcases h.files c with heq | hm
  · exact heq ▸ hd
  · exact hm.dying (hl c) hd

theorem Evicting.runnerStep {names : List ClipId} {rest : List EvictableEntry} {clips bytes : ℕ}
    (h : Evicting n new fits names rest clips bytes fs) (hs : RunnerStep n fs t) :
    Evicting n new fits names rest clips bytes t where
  legal := h.legal.runnerStep hs
  fresh c hnew := hs.fresh (h.fresh c hnew)
  buried c hc := hs.buried (h.buried c hc)
  nodup := h.nodup
  pending := h.pending
  delivered e he hloc := (hs.onward h.legal _).keepsDelivered (h.delivered e he hloc)
  count hf := (Finset.card_le_card
    (Finset.sdiff_subset_sdiff hs.clipsOf_subset subset_rfl)).trans (h.count hf)
  size hf := (Finset.sum_le_sum_of_subset
    (Finset.sdiff_subset_sdiff (hs.mediaClips_subset h.legal) subset_rfl)).trans (h.size hf)

/-- A sweep's removal of a file is a step of a capture. -/
theorem captureStep_del (hnew : ¬new c) (hx : x ≠ .jsonTmp)
    (hm : ClipFiles.SweepMove (filesOf fs c) ((filesOf fs c).set d x none)) :
    CaptureStep n new fs (fs.del (.queue d c x)) where
  files c' := by
    by_cases hc : c' = c
    · subst hc
      rw [filesOf_del_self]
      exact .sweep hnew hm
    · rw [differIn_del.filesOf hc]
      exact .same
  scratch d' c' := Or.inl (by rw [FileMap.get_del, if_neg (by simp [Ne.symm hx])])

/-- One tolerant removal, from `A` to `B`. -/
theorem sweep_removal {A B : Fs → Prop} (hA : A fs)
    (hstable : ∀ s t, A s → LegalQueue n new s → SeenStep n seen s t → A t)
    (hstep : ∀ t, A t → LegalQueue n new t → VictimStays t (.removeFile (.queue d c x)) (.ok ()) →
      CaptureStep n new t (t.del (.queue d c x)) ∧ B (t.del (.queue d c x))) :
    SweepMeets n new seen (fun r t => r = .ok () ∧ B t ∨ (∃ err, r = .error err) ∧ A t)
      (removeIfExists (.queue d c x)) fs := by
  refine sweepMeets_request (r := .removeFile (.queue d c x)) hA hstable
    fun t v u ht hl hv hstays => ?_
  rcases sweepEnv_removeFile hv with ⟨rfl, hdone⟩ | ⟨rfl, err, herr, rfl⟩
  · -- whether the file was there or not
    obtain ⟨hguar, hB⟩ := hstep t ht hl (hstays.of_done hdone)
    rcases hdone with rfl | rfl
    · exact ⟨hguar, upholds_pure (Or.inl ⟨rfl, hB⟩)⟩
    · exact ⟨hguar, upholds_pure (Or.inl ⟨rfl, hB⟩)⟩
  · refine ⟨.refl _, ?_⟩
    cases err with
    | notFound => exact (herr rfl).elim
    | storageFull => exact upholds_pure (Or.inr ⟨⟨_, rfl⟩, ht⟩)
    | other errno text => exact upholds_pure (Or.inr ⟨⟨_, rfl⟩, ht⟩)

section Evict

variable {names : List ClipId} {rest : List EvictableEntry} {e : EvictableEntry} {clips bytes : ℕ}

theorem Evicting.tail (h : Evicting n new fits names (e :: rest) clips bytes fs) :
    Evicting n new fits names rest clips bytes fs ∧
      e.entry.clipId ∉ names ++ rest.map (·.entry.clipId) where
  left :=
    { legal := h.legal
      fresh := h.fresh
      buried := h.buried
      nodup := h.nodup.sublist (by simp)
      pending := fun e he => h.pending e (List.mem_cons_of_mem _ he)
      delivered := fun e he => h.delivered e (List.mem_cons_of_mem _ he)
      count := h.count
      size := h.size }
  right := (List.nodup_middle.mp h.nodup).notMem

/-- The removal of a file of another clip. -/
theorem Evicting.del (h : Evicting n new fits names rest clips bytes fs)
    (hc : c ∉ names ++ rest.map (·.entry.clipId))
    (hs : CaptureStep n new fs (fs.del (.queue d c x))) :
    Evicting n new fits names rest clips bytes (fs.del (.queue d c x)) := by
  have hfiles : ∀ c', c' ∈ names ++ rest.map (·.entry.clipId) →
      filesOf (fs.del (.queue d c x)) c' = filesOf fs c' := by
    intro c' hc'
    exact differIn_del.filesOf fun heq => hc (heq ▸ hc')
  have hrest : ∀ r ∈ rest, r.entry.clipId ∈ names ++ rest.map (·.entry.clipId) :=
    fun r hr => List.mem_append_right _ (List.mem_map_of_mem hr)
  constructor
  · exact h.legal.captureStep hs
  · exact fun c' hnew hst =>
      h.fresh c' hnew (mem_clipsOf.mp (clipsOf_del_subset _ _ (mem_clipsOf.mpr hst)))
  · intro c' hc'
    rw [hfiles c' (List.mem_append_left _ hc')]
    exact h.buried c' hc'
  · exact h.nodup
  · exact h.pending
  · intro r hr
    rw [hfiles _ (hrest r hr)]
    exact h.delivered r hr
  · exact fun hf => (Finset.card_le_card (Finset.sdiff_subset_sdiff (clipsOf_del_subset _ _)
      subset_rfl)).trans (h.count hf)
  · exact fun hf => (Finset.sum_le_sum_of_subset (Finset.sdiff_subset_sdiff
      (mediaClips_del_subset _ _) subset_rfl)).trans (h.size hf)

/-- The removal of the last file a clip has outside `inflight/`: one more clip is evicted. -/
theorem Evicting.evict (h : Evicting n new fits names rest clips bytes fs)
    (hc : c ∉ names ++ rest.map (·.entry.clipId)) (hst : (filesOf fs c).Stored)
    (hs : CaptureStep n new fs (fs.del (.queue d c x)))
    (hb : (filesOf (fs.del (.queue d c x)) c).Buried) :
    Evicting n new fits (names ++ [c]) rest (clips - 1) bytes (fs.del (.queue d c x)) := by
  have hdel := h.del hc hs
  have hset : (names ++ [c]).toFinset = insert c names.toFinset := by
    ext c'
    simp
  constructor
  · exact hdel.legal
  · exact hdel.fresh
  · intro c' hc'
    rcases List.mem_append.mp hc' with hin | hin
    · exact hdel.buried c' hin
    · obtain rfl := List.mem_singleton.mp hin
      exact hb
  · rw [List.append_assoc]
    exact List.nodup_middle.mpr (List.nodup_cons.mpr ⟨hc, h.nodup⟩)
  · exact hdel.pending
  · exact hdel.delivered
  · intro hf
    have hmem : c ∈ clipsOf fs \ names.toFinset := Finset.mem_sdiff.mpr
      ⟨mem_clipsOf.mpr hst, fun hin => hc (List.mem_append_left _ (List.mem_toFinset.mp hin))⟩
    have hsub : clipsOf (fs.del (.queue d c x)) \ (names ++ [c]).toFinset ⊆
        (clipsOf fs \ names.toFinset).erase c := by
      rw [hset, Finset.sdiff_insert]
      exact Finset.erase_subset_erase _
        (Finset.sdiff_subset_sdiff (clipsOf_del_subset _ _) subset_rfl)
    have hcard := (Finset.card_le_card hsub).trans_eq (Finset.card_erase_of_mem hmem)
    have := h.count hf
    omega
  · intro hf
    rw [hset]
    refine (Finset.sum_le_sum_of_subset ?_).trans (h.size hf)
    exact Finset.sdiff_subset_sdiff (mediaClips_del_subset _ _) (Finset.subset_insert _ _)

/-- The media of a candidate that lies in `pending/` goes. -/
theorem Evicting.dropMedia (h : Evicting n new fits names (e :: rest) clips bytes fs)
    (hloc : e.location = .pending) (hpm : (filesOf fs e.entry.clipId).pendingMp4 ≠ none)
    (hps : (filesOf fs e.entry.clipId).pendingSidecar ≠ none) :
    CaptureStep n new fs (fs.del (.media .pending e.entry.clipId)) ∧
      Evicting n new fits names rest clips (bytes - e.entry.byteSize.toNat)
        (fs.del (.media .pending e.entry.clipId)) ∧
      (filesOf (fs.del (.media .pending e.entry.clipId)) e.entry.clipId).Dying := by
  obtain ⟨htail, hc⟩ := h.tail
  have hsize := h.pending e List.mem_cons_self hloc
  have him : (filesOf fs e.entry.clipId).inflightMp4 = none :=
    (h.legal e.entry.clipId).oneMedia.resolve_left hpm
  have hs : CaptureStep n new fs (fs.del (.media .pending e.entry.clipId)) :=
    captureStep_del (fun hnew => h.fresh _ hnew (Or.inr (Or.inl hps))) (by decide) (.dropMedia hps)
  have hdel := htail.del hc hs
  have hfiles : filesOf (fs.del (.media .pending e.entry.clipId)) e.entry.clipId =
      { filesOf fs e.entry.clipId with pendingMp4 := none } := filesOf_del_self
  refine ⟨hs, { hdel with size := ?_ }, ?_⟩
  · intro hf
    have hmem : e.entry.clipId ∈ mediaClips fs \ names.toFinset := Finset.mem_sdiff.mpr
      ⟨h.legal.mem_mediaClips.mpr (Or.inl hpm),
        fun hin => hc (List.mem_append_left _ (List.mem_toFinset.mp hin))⟩
    have hgone : e.entry.clipId ∉ mediaClips (fs.del (.media .pending e.entry.clipId)) := by
      rw [hdel.legal.mem_mediaClips, hfiles]
      rintro (hp | hi)
      · exact hp rfl
      · exact hi him
    have hsub : mediaClips (fs.del (.media .pending e.entry.clipId)) \ names.toFinset ⊆
        (mediaClips fs \ names.toFinset).erase e.entry.clipId := by
      intro c' hc'
      obtain ⟨hin, hout⟩ := Finset.mem_sdiff.mp hc'
      refine Finset.mem_erase.mpr ⟨fun heq => hgone (heq ▸ hin), Finset.mem_sdiff.mpr ⟨?_, hout⟩⟩
      exact mediaClips_del_subset _ _ hin
    have hsum := Finset.sum_le_sum_of_subset (f := fun c => (n c).toNat) hsub
    have hsplit := Finset.add_sum_erase _ (fun c => (n c).toNat) hmem
    have hbound := h.size hf
    have hn : (n e.entry.clipId).toNat = e.entry.byteSize.toNat := congrArg UInt64.toNat hsize.symm
    simp only [hn] at hsplit
    omega
  · exact ⟨by rw [hfiles]; exact hps, by rw [hfiles], by rw [hfiles]; exact him⟩

/-- The sidecar of a clip whose media is gone goes. -/
theorem Evicting.dropPending (h : Evicting n new fits names rest clips bytes fs)
    (hc : c ∉ names ++ rest.map (·.entry.clipId)) (hd : (filesOf fs c).Dying) :
    CaptureStep n new fs (fs.del (.sidecar .pending c)) ∧
      Evicting n new fits (names ++ [c]) rest (clips - 1) bytes (fs.del (.sidecar .pending c)) := by
  have hst : (filesOf fs c).Stored := Or.inr (Or.inl hd.pendingSidecar)
  have hs : CaptureStep n new fs (fs.del (.sidecar .pending c)) :=
    captureStep_del (fun hnew => h.fresh c hnew hst) (by decide)
      (.dropPending hd.pendingMp4 hd.inflightMp4)
  refine ⟨hs, h.evict hc hst hs ?_⟩
  have hl := h.legal c
  rw [filesOf_del_self]
  refine ⟨hd.pendingMp4, rfl, hd.inflightMp4, hl.noDelivered, ?_, fun b hb => ?_⟩
  · by_contra hds
    exact hd.pendingSidecar (hl.closed hds).2.1
  · by_contra hopen
    exact hd.pendingSidecar (hl.closing b hb hopen).2

/-- The sidecar of a candidate in `delivered/` goes. -/
theorem Evicting.dropDelivered (h : Evicting n new fits names (e :: rest) clips bytes fs)
    (hloc : e.location = .deliveredUndeliverable) :
    CaptureStep n new fs (fs.del (.sidecar .delivered e.entry.clipId)) ∧
      Evicting n new fits (names ++ [e.entry.clipId]) rest (clips - 1) bytes
        (fs.del (.sidecar .delivered e.entry.clipId)) := by
  obtain ⟨htail, hc⟩ := h.tail
  have hds := h.delivered e List.mem_cons_self hloc
  have hst : (filesOf fs e.entry.clipId).Stored := Or.inr (Or.inr (Or.inr (Or.inr (Or.inr hds))))
  have hs : CaptureStep n new fs (fs.del (.sidecar .delivered e.entry.clipId)) :=
    captureStep_del (fun hnew => h.fresh _ hnew hst) (by decide) .dropDelivered
  obtain ⟨hpm, hps, him, his⟩ := (h.legal e.entry.clipId).closed hds
  refine ⟨hs, htail.evict hc hst hs ?_⟩
  rw [filesOf_del_self]
  refine ⟨hpm, hps, him, (h.legal _).noDelivered, rfl, fun b hb => ?_⟩
  simp [ClipFiles.set, his] at hb

/-- One eviction: done, or broken off by a failing removal. -/
theorem sweep_evict (h : Evicting n new fits names (e :: rest) clips bytes fs) :
    SweepMeets n new seen (fun r t => (r = .ok () ∧ Evicting n new fits (names ++ [e.entry.clipId])
        rest (clips - 1) (bytes - e.onDiskBytes.toNat) t) ∨
      (∃ err, r = .error err) ∧ ∀ c ∈ names, (filesOf t c).Buried)
      (evict e) fs := by
  obtain ⟨-, hc⟩ := h.tail
  obtain ⟨location, entry⟩ := e
  cases location with
  | pending =>
    refine (sweep_removal (d := .pending) (c := entry.clipId) (x := .mp4)
      (B := fun t => Evicting n new fits names rest clips (bytes - entry.byteSize.toNat) t ∧
        (filesOf t entry.clipId).Dying) h (fun s t hs _ hst => hs.runnerStep hst.runner)
      fun t ht _ hstays => ?_).bind fun r t hr => ?_
    · -- the victim has not moved
      obtain ⟨hpm, hps⟩ := hstays (Or.inl rfl)
      exact ht.dropMedia rfl hpm hps
    rcases hr with ⟨rfl, ht, hdying⟩ | ⟨⟨err, rfl⟩, ht⟩
    · refine (sweep_removal (d := .pending) (c := entry.clipId) (x := .json)
        (A := fun t => Evicting n new fits names rest clips (bytes - entry.byteSize.toNat) t ∧
          (filesOf t entry.clipId).Dying) ⟨ht, hdying⟩
        (fun s t hs hl hst => ⟨hs.1.runnerStep hst.runner, hst.runner.dying hl hs.2⟩)
        fun t ht _ _ => ht.1.dropPending hc ht.2).mono fun r t hr => ?_
      rcases hr with ⟨rfl, ht⟩ | ⟨herr, ht⟩
      · exact Or.inl ⟨rfl, ht⟩
      · exact Or.inr ⟨herr, ht.1.buried⟩
    · exact upholds_pure (Or.inr ⟨⟨err, rfl⟩, ht.buried⟩)
  | deliveredUndeliverable =>
    refine (sweep_removal (d := .delivered) (c := entry.clipId) (x := .mp4)
      (B := Evicting n new fits names (⟨.deliveredUndeliverable, entry⟩ :: rest) clips bytes) h
      (fun s t hs _ hst => hs.runnerStep hst.runner) fun t ht _ _ => ?_).bind fun r t hr => ?_
    · -- there is no media in `delivered/`
      rw [FileMap.del_of_get_none (ht.legal entry.clipId).noDelivered]
      exact ⟨.refl _, ht⟩
    rcases hr with ⟨rfl, ht⟩ | ⟨⟨err, rfl⟩, ht⟩
    · refine (sweep_removal (d := .delivered) (c := entry.clipId) (x := .json)
        (B := Evicting n new fits (names ++ [entry.clipId]) rest (clips - 1) bytes) ht
        (fun s t hs _ hst => hs.runnerStep hst.runner)
        fun t ht _ _ => ht.dropDelivered rfl).mono fun r t hr => ?_
      rcases hr with ⟨rfl, ht⟩ | ⟨herr, ht⟩
      · exact Or.inl ⟨rfl, ht⟩
      · exact Or.inr ⟨herr, ht.buried⟩
    · exact upholds_pure (Or.inr ⟨⟨err, rfl⟩, ht.buried⟩)

end Evict

/-! ## The sweep as a whole -/

/-- After a sweep that made the evictions `names`, one more clip of `incoming` bytes fits. -/
structure Room (n : ClipId → UInt64) (new : ClipId → Prop) (policy : QueuePolicy)
    (incoming : UInt64) (names : List ClipId) (fs : Fs) : Prop where
  fresh : ∀ c, new c → ¬(filesOf fs c).Stored
  fits : ∃ clips bytes, breaches policy incoming clips bytes = false ∧
    (clipsOf fs \ names.toFinset).card ≤ clips.toNat ∧
    ∑ c ∈ mediaClips fs \ names.toFinset, (n c).toNat ≤ bytes.toNat

/-- What a sweep ends with. -/
structure SweepEnds (n : ClipId → UInt64) (new : ClipId → Prop) (fits : Prop)
    (policy : QueuePolicy) (incoming : UInt64) (o : PolicyOutcome) (fs : Fs) : Prop where
  nodup : (evicted o.evictions).Nodup
  buried : ∀ c ∈ evicted o.evictions, (filesOf fs c).Buried
  room : fits → o.result = .ok () → Room n new policy incoming (evicted o.evictions) fs

variable {policy : QueuePolicy} {incoming : UInt64}

theorem Evicting.room {names : List ClipId} {rest : List EvictableEntry} {clips : UInt32}
    {bytes : UInt64} (h : Evicting n new fits names rest clips.toNat bytes.toNat fs)
    (hf : fits) (hb : ¬breaches policy incoming clips bytes = true) :
    Room n new policy incoming names fs :=
  ⟨h.fresh, clips, bytes, by simpa using hb, h.count hf, h.size hf⟩

theorem sweep_evictLoop {queueFull : InboxError} {clips : UInt32} {bytes : UInt64}
    {evictions : List EvictionRecord} {rest : List EvictableEntry}
    (h : Evicting n new fits (evicted evictions) rest clips.toNat bytes.toNat fs) :
    SweepMeets n new seen (SweepEnds n new fits policy incoming)
      (evictLoop policy incoming queueFull clips bytes evictions rest) fs := by
  have hnames : (evicted evictions).Nodup := (List.nodup_append.mp h.nodup).1
  induction rest generalizing clips bytes evictions fs with
  | nil =>
    unfold evictLoop
    split_ifs with hb
    · exact upholds_pure ⟨hnames, h.buried, fun _ hok => by cases hok⟩
    · exact upholds_pure ⟨hnames, h.buried, fun hf _ => h.room hf hb⟩
  | cons e rest ih =>
    unfold evictLoop
    split_ifs with hb
    · refine (sweep_evict h).bind fun r t hr => ?_
      rcases hr with ⟨rfl, ht⟩ | ⟨⟨err, rfl⟩, ht⟩
      · have hone : (1 : UInt32).toNat = 1 := rfl
        have hnext : Evicting n new fits (evicted (evictions ++ [⟨e.entry.clipId,
            evictionReason policy incoming clips bytes, saturatingSub32 clips 1,
            saturatingSub64 bytes e.onDiskBytes⟩])) rest (saturatingSub32 clips 1).toNat
            (saturatingSub64 bytes e.onDiskBytes).toNat t := by
          rw [saturatingSub32_toNat, saturatingSub64_toNat, hone]
          simpa [evicted] using ht
        exact ih hnext (List.nodup_append.mp hnext.nodup).1
      · exact upholds_pure ⟨hnames, ht, fun _ hok => by cases hok⟩
    · exact upholds_pure ⟨hnames, h.buried, fun hf _ => h.room hf hb⟩

/-- The candidates of a census, with totals that bound the queue if it `fits`. -/
theorem Counted.evicting {y : Survey} {clips bytes : ℕ} (h : Counted n new seen had fits y fs)
    (htotals : fits → (clipsOf fs).card ≤ clips ∧ ∑ c ∈ mediaClips fs, (n c).toNat ≤ bytes) :
    Evicting n new fits [] y.census.candidates clips bytes fs where
  legal := h.sweepable.legal
  fresh := h.sweepable.fresh
  buried := by simp
  nodup := by
    have hperm : ∀ es : List EvictableEntry, (sortByKey es).Perm es :=
      fun es => List.perm_insertionSort _ es
    have hids : ∀ (l : EvictableLocation) (es : List ClipQueueEntry),
        ((sortByKey (es.map (EvictableEntry.mk l))).map (·.entry.clipId)).Perm
          (es.map (·.clipId)) := by
      intro l es
      refine ((hperm _).map _).trans (List.Perm.of_eq ?_)
      rw [List.map_map]
      rfl
    simp only [List.nil_append, Survey.census, censusOf, List.map_append]
    refine List.nodup_append.mpr ⟨(hids _ _).nodup_iff.mpr ?_, (hids _ _).nodup_iff.mpr
      h.pending.nodup, fun c hc c' hc' heq => ?_⟩
    · exact h.delivered.nodup.sublist ((List.filter_sublist).map _)
    · -- a clip found in `delivered/` was not found in `pending/`
      subst heq
      obtain ⟨e, he, rfl⟩ := List.mem_map.mp ((hids _ _).mem_iff.mp hc)
      obtain ⟨e', he', hid⟩ := List.mem_map.mp ((hids _ _).mem_iff.mp hc')
      have hopen := (h.pending.known e' he').2
      rw [show e'.clipId = e.clipId from hid] at hopen
      exact hopen (List.mem_map_of_mem (List.mem_of_mem_filter he))
  pending e he hloc := by
    rcases mem_candidates.mp he with ⟨hloc', -, -⟩ | ⟨-, hmem⟩
    · rw [hloc] at hloc'
      cases hloc'
    · exact h.pending.sizes _ hmem
  delivered e he hloc := by
    rcases mem_candidates.mp he with ⟨-, hmem, -⟩ | ⟨hloc', -⟩
    · exact h.delivered.known _ hmem
    · rw [hloc] at hloc'
      cases hloc'
  count hf := by simpa using (htotals hf).1
  size hf := by simpa using (htotals hf).2

/-- The sweep from its census on, if the clips of `seen` are among those the census found. -/
theorem sweep_enforceOn {profile : Profile} {r : Except QueueError Survey}
    (h : ∀ y, r = .ok y → Counted n new seen had fits y fs)
    (hseen : ∀ y, r = .ok y → fits → ∀ c, seen c → new c ∨ Among y.all c) :
    SweepMeets n new seen (SweepEnds n new fits policy incoming)
      (enforceOn profile policy incoming r) fs := by
  have hnone : ∀ {err : InboxError} {t : Fs},
      SweepEnds n new fits policy incoming ⟨[], .error err⟩ t :=
    ⟨by simp [evicted], by simp [evicted], fun _ hok => by cases hok⟩
  cases r with
  | error err => exact upholds_pure hnone
  | ok y =>
    have hcounted := h y rfl
    unfold enforceOn
    dsimp only
    cases htotals : censusTotals profile y.census with
    | none =>
      intro _ _ _ v
      cases v
    | some totals =>
      obtain ⟨clips, bytes⟩ := totals
      have hstart : Evicting n new fits (evicted []) y.census.candidates clips.toNat bytes.toNat
          fs := hcounted.evicting fun hf => hcounted.totals hf (hseen y rfl hf) htotals
      simp only [enforce]
      split
      · split
        · exact upholds_pure hnone
        · split
          · exact upholds_pure hnone
          · exact sweep_evictLoop hstart
      · rename_i hb
        exact upholds_pure ⟨by simp [evicted], by simp [evicted], fun hf _ => hstart.room hf hb⟩

/-! ### What it ends with outlives the runner's steps -/

theorem Room.runnerStep {names : List ClipId} (h : Room n new policy incoming names fs)
    (hl : LegalQueue n new fs) (hs : RunnerStep n fs t) :
    Room n new policy incoming names t where
  fresh c hnew := hs.fresh (h.fresh c hnew)
  fits := by
    obtain ⟨clips, bytes, hb, hclips, hbytes⟩ := h.fits
    refine ⟨clips, bytes, hb, (Finset.card_le_card ?_).trans hclips,
      (Finset.sum_le_sum_of_subset ?_).trans hbytes⟩
    · exact Finset.sdiff_subset_sdiff hs.clipsOf_subset subset_rfl
    · exact Finset.sdiff_subset_sdiff (hs.mediaClips_subset hl) subset_rfl

theorem SweepEnds.runnerStep {o : PolicyOutcome} (h : SweepEnds n new fits policy incoming o fs)
    (hl : LegalQueue n new fs) (hs : RunnerStep n fs t) :
    SweepEnds n new fits policy incoming o t where
  nodup := h.nodup
  buried c hc := hs.buried (h.buried c hc)
  room hf hok := (h.room hf hok).runnerStep hl hs

end Sweep

end Perchstation
