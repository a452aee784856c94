import Perchstation.Causes

/-!
# Admission — when a clip is let in

A store is drained if nothing waits or is being uploaded and only Undeliverable records are left: the
census of such a store has no floor and no bytes, and one candidate for each record.  The sidecars of
a store are its files of extension `json` with a stem; a file named `.json` is not among them.
-/

namespace Perchstation

open Resumption QueueStore

variable {cfg : Config} {st : Station} {fs t : Fs} {policy : QueuePolicy} {incoming : UInt64}
  {l li ld lp : List Path}

/-! ## The census of a drained store -/

/-- The Undeliverable records of `delivered/`. -/
def undeliverables (fs : Fs) : Finset Path :=
  fs.files.keys.filter fun p =>
    p.inDir .delivered = true ∧ (entryAt fs p).any isUndeliverable = true

theorem mem_undeliverables {p : Path} :
    p ∈ undeliverables fs ↔ ∃ c e, p = .queue .delivered c .json ∧
      fs.get p = some (.sidecar e) ∧ isUndeliverable e = true := by
  have hkeys : p ∈ fs.files.keys ↔ (fs.get p).isSome = true :=
    Finmap.mem_keys.trans Finmap.lookup_isSome.symm
  rw [undeliverables, Finset.mem_filter, hkeys]
  constructor
  · rintro ⟨-, hd, hany⟩
    unfold entryAt at hany
    split_ifs at hany with hx
    · obtain ⟨c, rfl⟩ := inDir_and_hasExt_iff.mp ⟨hd, hx⟩
      rcases hg : fs.get (.queue .delivered c .json) with _ | e | data <;> rw [hg] at hany
      · cases hany
      · exact ⟨c, e, rfl, rfl, hany⟩
      · cases hany
    · cases hany
  · rintro ⟨c, e, rfl, hget, hu⟩
    refine ⟨by simp [hget], by simp [Path.inDir], ?_⟩
    simpa [entryAt, Path.hasExt, hget] using hu

/-- Nothing waits or is being uploaded, and every record of `delivered/` is Undeliverable. -/
structure Drained (fs : Fs) : Prop where
  pending : ∀ c, fs.get (.queue .pending c .json) = none
  inflight : ∀ c, fs.get (.queue .inflight c .json) = none
  delivered : ∀ c, (fs.get (.queue .delivered c .json)).isSome →
    ∃ e, fs.get (.queue .delivered c .json) = some (.sidecar e) ∧ isUndeliverable e = true

theorem decodeAll_of_no_sidecars {d : Dir} (hl : fs.Lists (fun p => p.inDir d) l)
    (h : ∀ c, fs.get (.queue d c .json) = none) : decodeAll fs l = .ok [] := by
  have hnone : ∀ p ∈ l, p.hasExt .json = false := by
    intro p hp
    by_contra hx
    rw [Bool.not_eq_false] at hx
    obtain ⟨hd, hs⟩ := hl.mem.mp hp
    obtain ⟨c, rfl⟩ := inDir_and_hasExt_iff.mp ⟨hd, hx⟩
    rw [h c] at hs
    cases hs
  rw [decodeAll_eq_filterMap fun p hp hx => absurd hx (by simp [hnone p hp])]
  congr 1
  rw [List.filterMap_eq_nil_iff]
  intro p hp
  simp [entryAt, hnone p hp]

/-- The records read from `delivered/` of a drained store are its Undeliverable ones, each once. -/
theorem Drained.decodeAll_delivered (h : Drained fs)
    (hl : fs.Lists (fun p => p.inDir .delivered) l) :
    ∃ es, decodeAll fs l = .ok es ∧ es.length = (undeliverables fs).card ∧
      ∀ e ∈ es, isUndeliverable e = true := by
  have hread : ∀ p ∈ l, p.hasExt .json = true →
      ∃ e, fs.get p = some (.sidecar e) ∧ isUndeliverable e = true := by
    intro p hp hx
    obtain ⟨hd, hs⟩ := hl.mem.mp hp
    obtain ⟨c, rfl⟩ := inDir_and_hasExt_iff.mp ⟨hd, hx⟩
    exact h.delivered c hs
  have hent : ∀ p ∈ l, ∀ e, entryAt fs p = some e → isUndeliverable e = true := by
    intro p hp e he
    unfold entryAt at he
    split_ifs at he with hx
    obtain ⟨e', he', hu⟩ := hread p hp hx
    rw [he'] at he
    exact Option.some.inj he ▸ hu
  refine ⟨l.filterMap (entryAt fs), decodeAll_eq_filterMap fun p hp hx => ?_, ?_, fun e he => ?_⟩
  · obtain ⟨e, he, -⟩ := hread p hp hx
    exact ⟨e, he⟩
  · have hset : undeliverables fs = (l.filter fun p => (entryAt fs p).isSome).toFinset := by
      ext p
      rw [mem_undeliverables, List.mem_toFinset, List.mem_filter, hl.mem]
      constructor
      · rintro ⟨c, e, rfl, hget, hu⟩
        exact ⟨⟨by simp [Path.inDir], by simp [hget]⟩, by simp [entryAt, Path.hasExt, hget]⟩
      · rintro ⟨⟨hd, hs⟩, he⟩
        unfold entryAt at he
        split_ifs at he with hx
        · obtain ⟨c, rfl⟩ := inDir_and_hasExt_iff.mp ⟨hd, hx⟩
          obtain ⟨e, hget, hu⟩ := h.delivered c hs
          exact ⟨c, e, rfl, hget, hu⟩
        · cases he
    rw [hset, List.toFinset_card_of_nodup (hl.nodup.filter _), List.length_filterMap_eq_countP,
      List.countP_eq_length_filter]
  · obtain ⟨p, hp, hpe⟩ := List.mem_filterMap.mp he
    exact hent p hp e hpe

theorem Drained.census (h : Drained fs) (hc : CensusFrom fs li ld lp) :
    ∃ es, censusResult fs li ld lp = .ok (censusOf [] es []) ∧
      es.length = (undeliverables fs).card ∧ ∀ e ∈ es, isUndeliverable e = true := by
  obtain ⟨es, hes, hlen, hund⟩ := h.decodeAll_delivered hc.delivered
  refine ⟨es, ?_, hlen, hund⟩
  rw [censusResult, decodeAll_of_no_sidecars hc.inflight h.inflight, hes,
    decodeAll_of_no_sidecars hc.pending h.pending]

section Totals

variable {es : List ClipQueueEntry} (hund : ∀ e ∈ es, isUndeliverable e = true)
include hund

theorem floor_of_undeliverable :
    (censusOf [] es []).floorClips = 0 ∧ (censusOf [] es []).floorBytes = 0 := by
  have hnone : es.filter (fun e => !isUndeliverable e) = [] := by
    rw [List.filter_eq_nil_iff]
    intro e he
    simp [hund e he]
  constructor
  · show addSlots (addSlots 0 []) (es.filter fun e => !isUndeliverable e) = 0
    rw [hnone]
    rfl
  · rfl

theorem candidates_of_undeliverable :
    (censusOf [] es []).candidates.length = es.length ∧
      ∀ e ∈ (censusOf [] es []).candidates, e.onDiskBytes = 0 := by
  have hall : es.filter isUndeliverable = es := by
    rw [List.filter_eq_self]
    exact hund
  constructor
  · simp [censusOf, sortByKey, hall, List.length_insertionSort]
  · intro e he
    rcases mem_candidates.mp he with ⟨hloc, -, -⟩ | ⟨-, hmem⟩
    · rw [EvictableEntry.onDiskBytes, hloc]
    · cases hmem

/-- The census counts one slot for each record, up to `u32::MAX`, and no bytes. -/
theorem totals_of_undeliverable (profile : Profile) :
    ∃ tc, censusTotals profile (censusOf [] es []) = some (tc, 0) ∧
      tc.toNat = min es.length (2 ^ 32 - 1) := by
  obtain ⟨hlen, hzero⟩ := candidates_of_undeliverable hund
  obtain ⟨hfc, hfb⟩ := floor_of_undeliverable hund
  have hsum : ∀ bs : List UInt64, (∀ b ∈ bs, b = 0) → sumBytes profile bs = some 0 := by
    intro bs hbs
    induction bs with
    | nil => rfl
    | cons b rest ih =>
      rw [sumBytes, ih fun b hb => hbs b (List.mem_cons_of_mem _ hb), hbs b List.mem_cons_self]
      rfl
  have hbytes : sumBytes profile ((censusOf [] es []).candidates.map EvictableEntry.onDiskBytes) =
      some 0 := by
    apply hsum
    intro b hb
    obtain ⟨e, he, rfl⟩ := List.mem_map.mp hb
    exact hzero e he
  have h0 : saturatingAdd64 0 0 = 0 := rfl
  refine ⟨saturatingAdd32 0 (if es.length < 2 ^ 32 then UInt32.ofNat es.length else 4294967295),
    by simp only [censusTotals, hbytes, hfc, hfb, h0, hlen], ?_⟩
  rw [saturatingAdd32_toNat]
  have hz : (0 : UInt32).toNat = 0 := rfl
  split_ifs with h
  · rw [UInt32.toNat_ofNat_of_lt' h]
    omega
  · have hmax : (4294967295 : UInt32).toNat = 2 ^ 32 - 1 := rfl
    omega

end Totals

/-! ## The verdict on a drained store -/

/-- A further clip of a size within the byte ceiling breaches the clip ceiling, or nothing. -/
theorem breaches_zero_bytes {clips : UInt32} (hmax : incoming ≤ policy.maxBytes) :
    breaches policy incoming clips 0 = true ↔
      policy.maxClips.toNat < min (clips.toNat + 1) (2 ^ 32 - 1) := by
  have hbytes : saturatingAdd64 0 incoming = incoming := by
    apply UInt64.toNat_inj.mp
    rw [saturatingAdd64_toNat]
    have hz : (0 : UInt64).toNat = 0 := rfl
    have hlt := incoming.toNat_lt
    omega
  have hone : (1 : UInt32).toNat = 1 := rfl
  rw [breaches, decide_eq_true_eq, hbytes, UInt32.lt_iff_toNat_lt, saturatingAdd32_toNat, hone]
  constructor
  · rintro (h | h)
    · exact h
    · exact absurd (UInt64.lt_iff_toNat_lt.mp h)
        (Nat.not_lt.mpr (UInt64.le_iff_toNat_le.mp hmax))
  · exact Or.inl

/-- Evicting down to an empty census makes room. -/
theorem evictRun_result_ok {queueFull : InboxError} {clips : UInt32}
    {evictions : List EvictionRecord} {cs : List EvictableEntry}
    (hroom : breaches policy incoming 0 0 = false) (hzero : ∀ e ∈ cs, e.onDiskBytes = 0)
    (hclips : clips.toNat ≤ cs.length) :
    (evictRun policy incoming queueFull clips 0 evictions cs).result = .ok () := by
  induction cs generalizing clips evictions with
  | nil =>
    have h0 : clips = 0 := UInt32.toNat_inj.mp (Nat.le_zero.mp hclips)
    rw [evictRun, h0, hroom]
    rfl
  | cons candidate rest ih =>
    rw [evictRun]
    split_ifs with hb
    · have hbytes : saturatingSub64 0 candidate.onDiskBytes = 0 := by
        rw [hzero candidate List.mem_cons_self]
        rfl
      dsimp only
      rw [hbytes]
      apply ih fun e he => hzero e (List.mem_cons_of_mem _ he)
      have hone : (1 : UInt32).toNat = 1 := rfl
      rw [saturatingSub32_toNat, hone]
      rw [List.length_cons] at hclips
      omega
    · rfl

/-- With the byte ceiling respected, a drained store lets the clip in under the evicting policy, and
under the refusing one exactly if there is a free slot. -/
theorem enforceResult_drained {es : List ClipQueueEntry} {tc : UInt32}
    (hund : ∀ e ∈ es, isUndeliverable e = true) (hone : 1 ≤ policy.maxClips)
    (hmax : incoming ≤ policy.maxBytes) (htc : tc.toNat = min es.length (2 ^ 32 - 1)) :
    (enforceResult policy incoming (censusOf [] es []) tc 0).result = .ok () ↔
      policy.eviction = .dropOldestUndelivered ∨ es.length < policy.maxClips.toNat ∨
        policy.maxClips = 4294967295 := by
  obtain ⟨hfc, hfb⟩ := floor_of_undeliverable hund
  obtain ⟨hlen, hzero⟩ := candidates_of_undeliverable hund
  have hroom : breaches policy incoming 0 0 = false := by
    rw [← Bool.not_eq_true, breaches_zero_bytes hmax]
    have hz : (0 : UInt32).toNat = 0 := rfl
    have h1 : (1 : UInt32).toNat = 1 := rfl
    have hle := UInt32.le_iff_toNat_le.mp hone
    omega
  have hfree : breaches policy incoming tc 0 = false ↔
      es.length < policy.maxClips.toNat ∨ policy.maxClips = 4294967295 := by
    have hm : policy.maxClips = 4294967295 ↔ policy.maxClips.toNat = 2 ^ 32 - 1 :=
      UInt32.toNat_inj.symm
    have hlt := policy.maxClips.toNat_lt
    rw [← Bool.not_eq_true, breaches_zero_bytes hmax, htc, hm]
    omega
  rw [enforceResult]
  cases hb : breaches policy incoming tc 0 with
  | false =>
    have hok := hfree.mp hb
    simp [hok]
  | true =>
    have hfull : ¬ (es.length < policy.maxClips.toNat ∨ policy.maxClips = 4294967295) := by
      intro hok
      rw [hfree.mpr hok] at hb
      cases hb
    cases hev : policy.eviction with
    | refuseNew => simp [hfull]
    | dropOldestUndelivered =>
      simp only [if_true, hfc, hfb, hroom, Bool.false_eq_true, if_false, true_or, iff_true]
      apply evictRun_result_ok hroom hzero
      rw [htc, hlen]
      exact Nat.min_le_left _ _

/-- The policy lets a clip into a store with `n` Undeliverable records. -/
def HasRoom (policy : QueuePolicy) (n : ℕ) : Prop :=
  policy.eviction = .dropOldestUndelivered ∨ n < policy.maxClips.toNat ∨
    policy.maxClips = 4294967295

section Submit

variable {profile : Profile} {v : PolicyOutcome} (h : Drained fs)
include h

theorem Drained.runs_applyPolicy (hone : 1 ≤ policy.maxClips) (hmax : incoming ≤ policy.maxBytes)
    (hr : Runs Nominal (applyPolicy profile policy incoming) fs v t) :
    (v.result = .ok () ↔ HasRoom policy (undeliverables fs).card) ∧
      ∀ name, t.get (.source name) = fs.get (.source name) := by
  obtain ⟨heff, li, ld, lp, hc, hcase⟩ := Perchstation.runs_applyPolicy hr
  obtain ⟨es, hok, hlen, hund⟩ := h.census hc
  have hsrc : ∀ name, t.get (.source name) = fs.get (.source name) := by
    intro name
    apply heff.same
    intro r hr d x hp
    cases hp
  refine ⟨?_, hsrc⟩
  rcases hcase with ⟨err, herr, -⟩ | ⟨census, tc, tb, hcensus, htot, rfl⟩
  · rw [hok] at herr
    cases herr
  · obtain rfl := Except.ok.inj (hcensus.symm.trans hok)
    obtain ⟨tc', htot', htc⟩ := totals_of_undeliverable hund profile
    obtain ⟨rfl, rfl⟩ := Prod.mk.inj (Option.some.inj (htot.symm.trans htot'))
    rw [HasRoom, ← hlen]
    exact enforceResult_drained hund hone hmax htc

theorem Drained.exists_runs_applyPolicy :
    ∃ v t, Runs Nominal (applyPolicy profile policy incoming) fs v t := by
  obtain ⟨li, ld, lp, hc⟩ := exists_censusFrom fs
  obtain ⟨es, hok, -, hund⟩ := h.census hc
  obtain ⟨tc, htot, -⟩ := totals_of_undeliverable hund profile
  exact ⟨_, _, runs_applyPolicy_iff.mpr
    ⟨li, ld, lp, hc, Or.inr ⟨_, tc, 0, hok, htot, rfl, rfl⟩⟩⟩

/-- A submission to a drained store runs to its end, and is accepted exactly if there is room. -/
theorem Drained.submit {c : ClipId} {name : String} {clipMeta : ClipMeta} {m : Blob}
    (hone : 1 ≤ policy.maxClips) (hsrc : fs.get (.source name) = some m)
    (hlen : ∃ len, m.HasLen len) (hmax : ∀ len, m.HasLen len → len ≤ policy.maxBytes) :
    (∃ a t, Runs Nominal (submit profile policy c (.source name) clipMeta) fs a t) ∧
      ∀ a t, Runs Nominal (submit profile policy c (.source name) clipMeta) fs a t →
        ((∃ e, a.2 = .ok e) ↔ HasRoom policy (undeliverables fs).card) := by
  have hmeta : ∀ r u, Runs Nominal (metadata (.source name)) fs r u ↔
      u = fs ∧ ∃ len, m.HasLen len ∧ r = .ok len := by
    intro r u
    rw [runs_metadata]
    simp only [Nominal, hsrc]
  constructor
  · -- a run is built from one of the sweep
    obtain ⟨len, hlen⟩ := hlen
    obtain ⟨v, t, hr⟩ : ∃ v t, Runs Nominal (applyPolicy profile policy len) fs v t :=
      h.exists_runs_applyPolicy
    have hsrc' := ((h.runs_applyPolicy hone (hmax len hlen) hr).2 name).trans hsrc
    cases hv : v.result with
    | error err =>
      refine ⟨(v.evictions, .error err), t, ?_⟩
      rw [QueueStore.submit, runs_bind]
      refine ⟨_, fs, (hmeta _ _).mpr ⟨rfl, len, hlen, rfl⟩, ?_⟩
      rw [runs_bind]
      refine ⟨v, t, hr, ?_⟩
      rw [hv]
      exact ⟨rfl, rfl⟩
    | ok _ =>
      have hqueue : Runs Nominal (enqueueWithId c (.source name) clipMeta) t
          (.ok (.new c clipMeta.capturedAt Station.epoch len))
          (enqueued t name m (.new c clipMeta.capturedAt Station.epoch len)) :=
        runs_enqueueWithId.mpr (Or.inr ⟨m, len, Station.epoch, hsrc', hlen, rfl, rfl⟩)
      refine ⟨(v.evictions, .ok (.new c clipMeta.capturedAt Station.epoch len)),
        enqueued t name m (.new c clipMeta.capturedAt Station.epoch len), ?_⟩
      rw [QueueStore.submit, runs_bind]
      refine ⟨_, fs, (hmeta _ _).mpr ⟨rfl, len, hlen, rfl⟩, ?_⟩
      rw [runs_bind]
      refine ⟨v, t, hr, ?_⟩
      rw [hv]
      dsimp only
      rw [runs_bind]
      exact ⟨_, _, hqueue, rfl, rfl⟩
  · -- any run is taken apart along its three steps
    intro a t hr
    rw [QueueStore.submit, runs_bind] at hr
    obtain ⟨r, u, hr₁, hr⟩ := hr
    obtain ⟨rfl, len, hlen, rfl⟩ := (hmeta r u).mp hr₁
    rw [runs_bind] at hr
    obtain ⟨v, w, hr₂, hr⟩ := hr
    obtain ⟨hiff, hsrc'⟩ := h.runs_applyPolicy hone (hmax len hlen) hr₂
    rw [← hiff]
    cases hv : v.result with
    | error err =>
      rw [hv] at hr
      obtain ⟨rfl, -⟩ := hr
      simp
    | ok _ =>
      rw [hv] at hr
      dsimp only at hr
      rw [runs_bind] at hr
      obtain ⟨r, z, hr₃, hr⟩ := hr
      rcases runs_enqueueWithId.mp hr₃ with ⟨hnone, -⟩ | ⟨m', len', at_, -, -, rfl, -⟩
      · rw [hsrc' name, hsrc] at hnone
        cases hnone
      · obtain ⟨rfl, -⟩ := hr
        simp

end Submit

/-! ## Finished entries -/

/-- The entry is Undeliverable, or delivered with its classification finished or lost. -/
def Finished (e : ClipQueueEntry) : Prop :=
  isUndeliverable e = true ∨ e.outcome = some .delivered ∧
    (e.classifyLostAt.isSome ∨ e.lastClassifyStatus.any (·.isTerminal) = true)

/-- Nothing waits or is being uploaded, and every record is finished and older than the cutoff. -/
structure AllFinished (fs : Fs) (cutoff : DateTime) : Prop where
  pending : ∀ c x, Ext.IsMain x → fs.get (.queue .pending c x) = none
  inflight : ∀ c x, Ext.IsMain x → fs.get (.queue .inflight c x) = none
  delivered : ∀ c e, fs.get (.queue .delivered c .json) = some (.sidecar e) →
    Finished e ∧ ∃ at_, e.deliveredAt = some at_ ∧ at_ < cutoff

theorem isPrunable_of_finished {e : ClipQueueEntry} {at_ cutoff : DateTime} (hfin : Finished e)
    (hat : e.deliveredAt = some at_) (hlt : at_ < cutoff) :
    isUndeliverable e = true ∨ isPrunable e cutoff = true := by
  rcases hfin with hu | ⟨hout, hdone⟩
  · exact Or.inl hu
  · right
    have hdone' : (e.classifyLostAt.isSome || e.lastClassifyStatus.any (·.isTerminal)) = true := by
      rcases hdone with h | h <;> simp [h]
    simp [isPrunable, hout, hdone', hat, hlt]

theorem not_prunable_of_undeliverable {e : ClipQueueEntry} {cutoff : DateTime}
    (hu : isUndeliverable e = true) : isPrunable e cutoff = false := by
  have hout : e.outcome = some .undeliverable := of_decide_eq_true hu
  simp [isPrunable, hout]

/-- A prune of a queue of finished entries leaves exactly the Undeliverable ones. -/
theorem AllFinished.pruned {cutoff : DateTime} {pruned : List ClipId} (h : AllFinished fs cutoff)
    (hfs : Tidy fs) (heff : PruneEffect fs t cutoff pruned) :
    Drained t ∧ undeliverables t = undeliverables fs := by
  classical
  have hkeep : ∀ d c, d ≠ .delivered → t.get (.queue d c .json) = fs.get (.queue d c .json) := by
    intro d c hd
    apply heff.same
    intro s x hp
    exact absurd (Path.queue.inj hp).1 hd
  -- in `delivered/` exactly the prunable sidecars go
  have hside : ∀ c, t.get (.queue .delivered c .json) =
      if PrunableAt fs cutoff (.queue .delivered c .json) then none
      else fs.get (.queue .delivered c .json) := by
    intro c
    split_ifs with hp
    · exact heff.gone c .json (Or.inr rfl) hp
    · apply heff.same
      intro s x hpath _
      obtain ⟨-, rfl, -⟩ := Path.queue.inj hpath
      exact hp
  -- of finished entries exactly the Undeliverable ones are not prunable
  have hund : ∀ c e, t.get (.queue .delivered c .json) = some (.sidecar e) ↔
      fs.get (.queue .delivered c .json) = some (.sidecar e) ∧ isUndeliverable e = true := by
    intro c e
    rw [hside]
    constructor
    · intro he
      split_ifs at he with hp
      obtain ⟨hfin, at_, hat, hlt⟩ := h.delivered c e he
      rcases isPrunable_of_finished hfin hat hlt with hu | hpr
      · exact ⟨he, hu⟩
      · exact absurd ⟨e, he, hpr⟩ hp
    · rintro ⟨he, hu⟩
      rw [if_neg, he]
      rintro ⟨e', he', hpr⟩
      obtain rfl := sidecar_unique he' he
      rw [not_prunable_of_undeliverable hu] at hpr
      cases hpr
  refine ⟨⟨fun c => ?_, fun c => ?_, fun c hs => ?_⟩, ?_⟩
  · rw [hkeep .pending c (by simp)]
    exact h.pending c .json (Or.inr rfl)
  · rw [hkeep .inflight c (by simp)]
    exact h.inflight c .json (Or.inr rfl)
  · obtain ⟨b, hb⟩ := Option.isSome_iff_exists.mp hs
    have hfsb : fs.get (.queue .delivered c .json) = some b := by
      rw [hside] at hb
      split_ifs at hb
      exact hb
    obtain ⟨p, hp⟩ := hfs c
    obtain ⟨e, rfl, -⟩ := Phase.file_json_eq_some ((hp.sidecar (by simp)).symm.trans hfsb)
    exact ⟨e, hb, ((hund c e).mp hb).2⟩
  · ext p
    rw [mem_undeliverables, mem_undeliverables]
    constructor
    · rintro ⟨c, e, rfl, he, hu⟩
      exact ⟨c, e, rfl, ((hund c e).mp he).1, hu⟩
    · rintro ⟨c, e, rfl, he, hu⟩
      exact ⟨c, e, rfl, (hund c e).mpr ⟨he, hu⟩, hu⟩

theorem runs_pruneRound_clocked {retentionHours : ℤ} {seen : Finset ClipId} {now cutoff : DateTime}
    {rest readings : List DateTime} {v : Finset ClipId × List ClipId}
    (hcut : ClassifyPoller.pruneCutoff retentionHours now = some cutoff)
    (h : Runs Clocked (ClassifyPoller.pruneRound retentionHours seen) (fs, now :: rest) v
      (t, readings)) : PruneEffect fs t cutoff v.2 := by
  rw [ClassifyPoller.pruneRound, runs_bind] at h
  obtain ⟨at_, ⟨u, rest'⟩, hnow, h⟩ := h
  obtain ⟨rfl, hread⟩ := runs_now_clocked.mp hnow
  obtain ⟨rfl, rfl⟩ := List.cons.inj hread
  rw [hcut] at h
  have h' := runs_nominal h
  simp only [runs_bind] at h'
  obtain ⟨r, w, hr, h'⟩ := h'
  obtain ⟨pruned, rfl, heff⟩ := runs_pruneDelivered hr
  obtain ⟨rfl, rfl⟩ := h'
  exact heff

theorem exists_runs_pruneRound {retentionHours : ℤ} {seen : Finset ClipId} {now cutoff : DateTime}
    (hcut : ClassifyPoller.pruneCutoff retentionHours now = some cutoff) :
    ∃ rest v t, Runs Clocked (ClassifyPoller.pruneRound retentionHours seen) (fs, now :: rest) v
      (t, []) := by
  obtain ⟨l, hl⟩ := fs.exists_lists fun p => p.inDir .delivered
  have hprune : ∃ pruned u, Runs Nominal (pruneDelivered cutoff) fs (.ok pruned) u := by
    refine ⟨(prunablesOf fs cutoff l).map (fun q => q.2.clipId),
      fs.delAll ((prunablesOf fs cutoff l).flatMap prunedFiles), ?_⟩
    simp only [pruneDelivered, runs_bind, runs_readDir, Nominal]
    refine ⟨.ok l, fs, ⟨rfl, l, hl, rfl⟩, ?_⟩
    dsimp only
    rw [runs_bind]
    exact ⟨_, _, (runs_pruneLoop hl.nodup).mpr ⟨rfl, rfl⟩, rfl, rfl⟩
  obtain ⟨pruned, u, hu⟩ := hprune
  obtain ⟨readings, hr⟩ := exists_clocked [] hu
  refine ⟨readings ++ [], (seen \ pruned.toFinset, pruned), u, ?_⟩
  rw [ClassifyPoller.pruneRound, runs_bind]
  refine ⟨now, (fs, readings ++ []), runs_now_clocked.mpr ⟨rfl, rfl⟩, ?_⟩
  rw [hcut]
  dsimp only
  rw [runs_bind]
  exact ⟨_, _, hr, rfl, rfl⟩

/-- After one prune round a queue of finished entries admits a clip exactly if there is room beside
the Undeliverable ones. -/
theorem AllFinished.admits {profile : Profile} {retentionHours : ℤ} {seen : Finset ClipId}
    {now cutoff : DateTime} {c : ClipId} {name : String} {clipMeta : ClipMeta} {m : Blob}
    (hfin : AllFinished fs cutoff) (hfs : Tidy fs)
    (hcut : ClassifyPoller.pruneCutoff retentionHours now = some cutoff)
    (hone : 1 ≤ policy.maxClips) (hsrc : fs.get (.source name) = some m)
    (hlen : ∃ len, m.HasLen len) (hmax : ∀ len, m.HasLen len → len ≤ policy.maxBytes)
    {rest : List DateTime} {v : Finset ClipId × List ClipId}
    (hr : Runs Clocked (ClassifyPoller.pruneRound retentionHours seen) (fs, now :: rest) v
      (t, [])) :
    (∃ a u, Runs Nominal (submit profile policy c (.source name) clipMeta) t a u) ∧
      ∀ a u, Runs Nominal (submit profile policy c (.source name) clipMeta) t a u →
        ((∃ e, a.2 = .ok e) ↔ HasRoom policy (undeliverables fs).card) := by
  have heff := runs_pruneRound_clocked hcut hr
  obtain ⟨hdrained, hund⟩ := hfin.pruned hfs heff
  have hsrc' : t.get (.source name) = some m := by
    rw [← hsrc]
    apply heff.same
    intro s x hp
    cases hp
  rw [← hund]
  exact hdrained.submit hone hsrc' hlen hmax

/-- A reachable queue of finished entries older than the retention, after one prune round: a
submission within the byte ceiling runs to its end, and it is accepted exactly if the policy evicts
or there are fewer Undeliverable entries than slots. -/
theorem finished_queue_admits {st₀ : Station} {tr : List (Event × Station)} {now cutoff : DateTime}
    {c : ClipId} {name : String} {clipMeta : ClipMeta} {m : Blob} (h₀ : st₀.Initial)
    (h : Exec (Step cfg) st₀ tr st)
    (hcut : ClassifyPoller.pruneCutoff cfg.retentionHours now = some cutoff)
    (hfin : AllFinished st.fs cutoff) (hone : 1 ≤ policy.maxClips)
    (hsrc : st.fs.get (.source name) = some m) (hlen : ∃ len, m.HasLen len)
    (hmax : ∀ len, m.HasLen len → len ≤ policy.maxBytes) :
    (∃ rest v t, Runs Clocked (ClassifyPoller.pruneRound cfg.retentionHours st.seen)
      (st.fs, now :: rest) v (t, [])) ∧
    ∀ rest v t, Runs Clocked (ClassifyPoller.pruneRound cfg.retentionHours st.seen)
      (st.fs, now :: rest) v (t, []) →
      (∃ a u, Runs Nominal (submit cfg.profile policy c (.source name) clipMeta) t a u) ∧
      ∀ a u, Runs Nominal (submit cfg.profile policy c (.source name) clipMeta) t a u →
        ((∃ e, a.2 = .ok e) ↔ policy.eviction = .dropOldestUndelivered ∨
          (undeliverables st.fs).card < policy.maxClips.toNat ∨ policy.maxClips = 4294967295) := by
  have hfs : Tidy st.fs := (h₀.inv.exec h).tidy
  exact ⟨exists_runs_pruneRound hcut, fun rest v t hr => hfin.admits hfs hcut hone hsrc hlen hmax hr⟩

/-! ## A queue full of one failure -/

namespace Station

/-- Two days after the first upload, and the cutoff of a prune round then. -/
def later : DateTime := .ofSecs 172800 ⟨by decide, by decide⟩

def laterCutoff : DateTime := .ofSecs 86400 ⟨by decide, by decide⟩

theorem pruneCutoff_later :
    ClassifyPoller.pruneCutoff Config.plain.retentionHours later = some laterCutoff := rfl

/-- The record of a first upload that perchpub has rejected. -/
def rejectedRecord : ClipQueueEntry :=
  undeliverableRecord (startAttempt firstEntry epoch) epoch "http_status" (some 422)
    (ClientError.http "" 422 "" none).display

/-- The station after the rejection, with a second clip to submit. -/
def refilled : Station :=
  ⟨(movedDelivered uploading.fs rejectedRecord).put (.source "in.mp4") footage, none, ∅, {"c1"}⟩

theorem exec_refilled : ∃ tr, Exec (Step Config.plain) blank tr refilled := by
  have hterm : classifyUploadError (.http "" 422 "" none) = .terminal := rfl
  have hfin : FinishRun Config.plain.schedule uploading.fs (startAttempt firstEntry epoch) epoch
      (.error (.http "" 422 "" none)) (movedDelivered uploading.fs rejectedRecord) :=
    .terminal hterm nofun
  obtain ⟨rest, hs⟩ := Step.exists_finish rfl hfin
  exact ⟨_, (exec_uploading.snoc hs).snoc (.capture _ "in.mp4" footage)⟩

theorem refilled_inv : Inv refilled := by
  obtain ⟨tr, h⟩ := exec_refilled
  exact blank_initial.inv.exec h

theorem refilled_sidecar : refilled.fs.get (.queue .delivered "c1" .json) =
    some (.sidecar rejectedRecord) := by
  have hid : rejectedRecord.clipId = "c1" := rfl
  have hget : (movedDelivered uploading.fs rejectedRecord).get
      (.queue .delivered rejectedRecord.clipId .json) = some (.sidecar rejectedRecord) :=
    get_movedDelivered
  rw [hid] at hget
  simp [refilled, FileMap.get_put, hget]

theorem refilled_allFinished : AllFinished refilled.fs laterCutoff := by
  have hphase : ∀ c (p : Phase c), At refilled.fs c p → p = .gone ∨ c = "c1" ∧
      ∃ d : ClosedEntry c, p = .delivered d ∧ d.1 = rejectedRecord := by
    intro c p hp
    by_cases hc : c = "c1"
    · subst hc
      obtain ⟨e, he, hent, ⟨⟨⟩, -⟩ | ⟨⟨⟩, -⟩ | ⟨-, d, rfl⟩⟩ :=
        Phase.file_json_eq_some ((hp.sidecar (by simp)).symm.trans refilled_sidecar)
      exact Or.inr ⟨rfl, d, rfl, hp.entry_delivered refilled_sidecar⟩
    · have hunused : c ∉ refilled.used := by simpa [refilled] using hc
      exact Or.inl (hp.unique (refilled_inv.unused c hunused))
  have hempty : ∀ d c x, d ≠ .corrupt → d ≠ .delivered → Ext.IsMain x →
      refilled.fs.get (.queue d c x) = none := by
    intro d c x hd hdel hx
    obtain ⟨p, hp⟩ := refilled_inv.tidy c
    rw [hp d x hd hx]
    rcases hphase c p hp with rfl | ⟨-, e, rfl, -⟩
    · rfl
    · exact Phase.slot_of_ne hdel _ _ _
  refine ⟨fun c x hx => hempty .pending c x (by simp) (by simp) hx,
    fun c x hx => hempty .inflight c x (by simp) (by simp) hx, fun c e he => ?_⟩
  obtain ⟨p, hp⟩ := refilled_inv.tidy c
  rcases hphase c p hp with rfl | ⟨-, d, rfl, hd⟩
  · cases (hp.sidecar (by simp)).symm.trans he
  · rw [← hp.entry_delivered he, hd]
    exact ⟨Or.inl rfl, epoch, rfl, by decide⟩

theorem refilled_source : refilled.fs.get (.source "in.mp4") = some footage := by
  simp [refilled, FileMap.get_put]

theorem footage_len : ∃ len, footage.HasLen len := ⟨1, rfl⟩

theorem footage_le : ∀ len, footage.HasLen len → len ≤ 1 := by
  intro len hlen
  have hone : len.toNat = 1 := hlen
  have h1 : (1 : UInt64).toNat = 1 := rfl
  rw [UInt64.le_iff_toNat_le, hone, h1]

end Station

/-- Under the evicting policy a queue of one slot admits the clip. -/
theorem finished_queue_admits_refilled :
    ∃ rest v t, Runs Clocked
      (ClassifyPoller.pruneRound Config.plain.retentionHours Station.refilled.seen)
      (Station.refilled.fs, Station.later :: rest) v (t, []) ∧
      ∃ a u e, Runs Nominal (submit Config.plain.profile ⟨1, 1, .dropOldestUndelivered⟩ "c2"
        (.source "in.mp4") ⟨Station.epoch⟩) t a u ∧ a.2 = .ok e := by
  obtain ⟨tr, h⟩ := Station.exec_refilled
  have hone : (1 : UInt32) ≤ (⟨1, 1, .dropOldestUndelivered⟩ : QueuePolicy).maxClips := by decide
  obtain ⟨⟨rest, v, t, hr⟩, hadmits⟩ := finished_queue_admits Station.blank_initial h
    Station.pruneCutoff_later Station.refilled_allFinished hone Station.refilled_source
    Station.footage_len Station.footage_le
  obtain ⟨⟨a, u, ha⟩, hall⟩ := hadmits rest v t hr
  obtain ⟨e, he⟩ := (hall a u ha).mpr (Or.inl rfl)
  exact ⟨rest, v, t, hr, a, u, e, ha, he⟩

/-- Under the refusing policy it does not: the Undeliverable entry keeps the only slot. -/
theorem refuse_new_refuses_refilled :
    (∃ tr, Exec (Step Config.plain) Station.blank tr Station.refilled) ∧
    AllFinished Station.refilled.fs Station.laterCutoff ∧
    (∃ rest v t, Runs Clocked
      (ClassifyPoller.pruneRound Config.plain.retentionHours Station.refilled.seen)
      (Station.refilled.fs, Station.later :: rest) v (t, [])) ∧
    ∀ rest v t, Runs Clocked
      (ClassifyPoller.pruneRound Config.plain.retentionHours Station.refilled.seen)
      (Station.refilled.fs, Station.later :: rest) v (t, []) →
      ∀ a u, Runs Nominal (submit Config.plain.profile ⟨1, 1, .refuseNew⟩ "c2"
        (.source "in.mp4") ⟨Station.epoch⟩) t a u → ¬ ∃ e, a.2 = .ok e := by
  refine ⟨Station.exec_refilled, Station.refilled_allFinished,
    exists_runs_pruneRound Station.pruneCutoff_later, fun rest v t hr a u ha hok => ?_⟩
  have hone : (1 : UInt32) ≤ (⟨1, 1, .refuseNew⟩ : QueuePolicy).maxClips := by decide
  have hroom := ((Station.refilled_allFinished.admits Station.refilled_inv.tidy
    Station.pruneCutoff_later hone Station.refilled_source Station.footage_len
    Station.footage_le hr).2 a u ha).mp hok
  have hmem : Path.queue .delivered "c1" .json ∈ undeliverables Station.refilled.fs :=
    mem_undeliverables.mpr ⟨"c1", Station.rejectedRecord, rfl, Station.refilled_sidecar, rfl⟩
  have hcard := Finset.card_pos.mpr ⟨_, hmem⟩
  have hmax : (1 : UInt32).toNat = 1 := rfl
  rcases hroom with h | h | h
  · cases h
  · dsimp only at h
    omega
  · exact absurd h (by decide)

end Perchstation
