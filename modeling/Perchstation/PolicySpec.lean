import Perchstation.Queue.Candidates
import Perchstation.Queue.StoreRules
import Perchstation.Station

/-!
# Policy spec — what one call of the eviction policy comes to

On a store that can be counted the verdict, the files that go and the records are a function of the
store.  The candidates go in their order, as few of them as make room; the running totals are what a
census of the files left would show.
-/

namespace Perchstation

open Resumption QueueStore

variable {fs t : Fs} {policy : QueuePolicy} {incoming : UInt64} {cs done : List EvictableEntry}
  {profile : Profile}

/-- A store whose entries decode, bear their own names and can be counted, with what is to come. -/
structure Countable (fs : Fs) (incoming : UInt64) : Prop where
  legible : Legible fs
  named : Named fs
  entries : queueEntries fs < 2 ^ 32 - 1
  bytes : queueBytes fs + incoming.toNat < 2 ^ 64

/-! ## The specification -/

/-- There is room for one more clip of `incoming` bytes. -/
def Fits (policy : QueuePolicy) (incoming : UInt64) (fs : Fs) : Prop :=
  queueEntries fs + 1 ≤ policy.maxClips.toNat ∧
    queueBytes fs + incoming.toNat ≤ policy.maxBytes.toNat

/-- There would be room if all that is not in `inflight/` or Delivered were gone. -/
def FloorFits (policy : QueuePolicy) (incoming : UInt64) (fs : Fs) : Prop :=
  floorEntries fs + 1 ≤ policy.maxClips.toNat ∧
    floorBytes fs + incoming.toNat ≤ policy.maxBytes.toNat

/-- `done` is the shortest prefix of the candidates whose eviction makes room. -/
structure ShortestFit (policy : QueuePolicy) (incoming : UInt64) (fs : Fs)
    (cs done : List EvictableEntry) : Prop where
  isPrefix : done <+: cs
  fits : Fits policy incoming (afterEvicting fs done)
  shortest : ∀ done', done' <+: cs → Fits policy incoming (afterEvicting fs done') →
    done.length ≤ done'.length

/-- Every census of the store shows these totals, in both profiles. -/
def CensusShows (fs : Fs) (clips : UInt32) (bytes : UInt64) : Prop :=
  (∃ v t, Runs Nominal takeCensus fs v t) ∧
    ∀ profile v t, Runs Nominal takeCensus fs v t →
      ∃ census, v = .ok census ∧ censusTotals profile census = some (clips, bytes)

/-- The records name the evicted clips, each with the totals after its eviction. -/
structure Recorded (fs : Fs) (done : List EvictableEntry) (records : List EvictionRecord) :
    Prop where
  clipIds : records.map EvictionRecord.clipId = done.map fun e => e.entry.clipId
  remaining : ∀ i r, records[i]? = some r →
    CensusShows (afterEvicting fs (done.take (i + 1))) r.remainingClips r.remainingBytes

/-- Refused, with the totals and nothing evicted. -/
def Refused (policy : QueuePolicy) (fs : Fs) (v : PolicyOutcome) : Prop :=
  v.evictions = [] ∧ ∃ clips bytes,
    v.result = .error (.queueFull clips policy.maxClips bytes policy.maxBytes) ∧
      clips.toNat = queueEntries fs ∧ bytes.toNat = queueBytes fs

/-- The sequential specification of a call, `cs` being the candidates in order. -/
structure Enforced (policy : QueuePolicy) (incoming : UInt64) (fs : Fs) (cs : List EvictableEntry)
    (v : PolicyOutcome) (t : Fs) : Prop where
  refuseNew : policy.eviction = .refuseNew → t = fs ∧ v.evictions = [] ∧
    (Fits policy incoming fs → v.result = .ok ()) ∧
    (¬ Fits policy incoming fs → Refused policy fs v)
  dropOldest : policy.eviction = .dropOldestUndelivered →
    (FloorFits policy incoming fs → v.result = .ok () ∧
      ∃ done, ShortestFit policy incoming fs cs done ∧ t = afterEvicting fs done ∧
        Recorded fs done v.evictions) ∧
    (¬ FloorFits policy incoming fs → Refused policy fs v ∧ t = fs)
  inflight : ∀ c x, t.get (.queue .inflight c x) = fs.get (.queue .inflight c x)
  delivered : ∀ c e x, fs.get (.queue .delivered c .json) = some (.sidecar e) →
    isUndeliverable e = false → t.get (.queue .delivered c x) = fs.get (.queue .delivered c x)
  bounded : v.result = .ok () → ∀ c n clipMeta e u,
    Runs Nominal (enqueueWithId c (.source n) clipMeta) t (.ok e) u → e.byteSize = incoming →
      queueEntries u ≤ policy.maxClips.toNat ∧ queueBytes u ≤ policy.maxBytes.toNat

/-! ## Counting -/

theorem Legible.afterEvicting (h : Legible fs) (done : List EvictableEntry) :
    Legible (afterEvicting fs done) := by
  intro d c hd hs
  unfold Perchstation.afterEvicting at hs ⊢
  rw [FileMap.get_delAll] at hs ⊢
  split_ifs at hs ⊢
  · cases hs
  · exact h d c hd hs

theorem Named.afterEvicting (h : Named fs) (done : List EvictableEntry) :
    Named (afterEvicting fs done) := by
  refine h.of_subset fun d c e he => ?_
  unfold Perchstation.afterEvicting at he
  rw [FileMap.get_delAll] at he
  split_ifs at he
  exact he

/-- A store that can be counted shows its slots and bytes. -/
theorem censusShows (h : Legible fs) {clips : UInt32} {bytes : UInt64}
    (hclips : clips.toNat = queueEntries fs) (hbytes : bytes.toNat = queueBytes fs) :
    CensusShows fs clips bytes := by
  have hlt := clips.toNat_lt
  have hlt' := bytes.toNat_lt
  constructor
  · obtain ⟨li, ld, lp, hc⟩ := exists_censusFrom fs
    exact ⟨_, fs, runs_takeCensus.mpr ⟨rfl, li, ld, lp, hc, rfl⟩⟩
  · intro profile v t hrun
    obtain ⟨rfl, li, ld, lp, hc, rfl⟩ := runs_takeCensus.mp hrun
    have hok := h.censusResult_eq hc
    refine ⟨_, hok, ?_⟩
    have hpending : tally t .pending sizeOf < 2 ^ 64 :=
      (Nat.le_add_left _ _).trans_lt (hbytes ▸ hlt')
    obtain ⟨tc, tb, htot, htc, htb⟩ :=
      @AgreesWith.totals t _ profile (h.agreesWith hc hok) hpending
    rw [htot]
    have hc' : tc = clips := UInt32.toNat_inj.mp (by omega)
    have hb' : tb = bytes := UInt64.toNat_inj.mp (by omega)
    rw [hc', hb']

/-- Totals that can be counted breach no ceiling exactly if they fit. -/
theorem breaches_eq_false_iff_of_lt {clips : UInt32} {bytes : UInt64}
    (hc : clips.toNat < 2 ^ 32 - 1) (hb : bytes.toNat + incoming.toNat < 2 ^ 64) :
    breaches policy incoming clips bytes = false ↔
      clips.toNat + 1 ≤ policy.maxClips.toNat ∧
        bytes.toNat + incoming.toNat ≤ policy.maxBytes.toNat := by
  rw [breaches_eq_false_iff, min_eq_left (by omega), min_eq_left (by omega)]

/-- What the loop has counted after a first part of the candidates is what is left. -/
theorem CandidateOrder.counts (hcs : CandidateOrder fs cs) (h : Countable fs incoming)
    {tc : UInt32} {tb : UInt64} (htc : tc.toNat = queueEntries fs) (htb : tb.toNat = queueBytes fs)
    (hdone : done <+: cs) :
    (afterClips tc done).toNat = queueEntries (afterEvicting fs done) ∧
      (afterBytes tb done).toNat = queueBytes (afterEvicting fs done) := by
  obtain ⟨hentries, hbytes⟩ := hcs.totals_afterEvicting h.legible h.named hdone
  rw [toNat_afterClips, toNat_afterBytes, htc, htb]
  omega

theorem CandidateOrder.fits_iff (hcs : CandidateOrder fs cs) (h : Countable fs incoming)
    {tc : UInt32} {tb : UInt64} (htc : tc.toNat = queueEntries fs) (htb : tb.toNat = queueBytes fs)
    (hdone : done <+: cs) :
    breaches policy incoming (afterClips tc done) (afterBytes tb done) = false ↔
      Fits policy incoming (afterEvicting fs done) := by
  obtain ⟨hentries, hbytes⟩ := hcs.totals_afterEvicting h.legible h.named hdone
  obtain ⟨hclips, hsize⟩ := hcs.counts h htc htb hdone
  have hlt := h.entries
  have hlt' := h.bytes
  rw [breaches_eq_false_iff_of_lt (by omega) (by omega), hclips, hsize]
  exact Iff.rfl

/-- With all candidates gone only the floor is left. -/
theorem CandidateOrder.fits_all_iff (hcs : CandidateOrder fs cs) (h : Countable fs incoming) :
    Fits policy incoming (afterEvicting fs cs) ↔ FloorFits policy incoming fs := by
  obtain ⟨hentries, hbytes⟩ := hcs.totals_afterEvicting h.legible h.named (List.prefix_refl cs)
  have hlen := hcs.length_eq h.legible
  have hfreed := hcs.freedBytes_eq h.legible
  have hsum : queueBytes fs = floorBytes fs + tally fs .pending sizeOf := rfl
  have hslots : queueEntries (afterEvicting fs cs) = floorEntries fs := by omega
  have hleft : queueBytes (afterEvicting fs cs) = floorBytes fs := by omega
  rw [Fits, FloorFits, hslots, hleft]

/-! ## A call -/

/-- The census of a store that can be counted. -/
def countedCensus (fs : Fs) (cs : List EvictableEntry) : Census :=
  ⟨UInt32.ofNat (floorEntries fs), UInt64.ofNat (floorBytes fs), cs⟩

section Counted

variable {v : PolicyOutcome} (hcs : CandidateOrder fs cs) (h : Countable fs incoming)

include hcs h

theorem toNat_floorClips : (countedCensus fs cs).floorClips.toNat = floorEntries fs := by
  have hlen := hcs.length_eq h.legible
  have hlt := h.entries
  exact UInt32.toNat_ofNat_of_lt' (show floorEntries fs < 2 ^ 32 by omega)

omit hcs in
theorem toNat_floorBytes : (countedCensus fs cs).floorBytes.toNat = floorBytes fs := by
  have hle : floorBytes fs ≤ queueBytes fs := Nat.le_add_right _ _
  have hlt := h.bytes
  exact UInt64.toNat_ofNat_of_lt' (show floorBytes fs < 2 ^ 64 by omega)

omit hcs in
theorem toNat_totalClips : (UInt32.ofNat (queueEntries fs)).toNat = queueEntries fs := by
  have hlt := h.entries
  exact UInt32.toNat_ofNat_of_lt' (show queueEntries fs < 2 ^ 32 by omega)

omit hcs in
theorem toNat_totalBytes : (UInt64.ofNat (queueBytes fs)).toNat = queueBytes fs := by
  have hlt := h.bytes
  exact UInt64.toNat_ofNat_of_lt' (show queueBytes fs < 2 ^ 64 by omega)

/-- Whatever the listings, the census is that of the store. -/
theorem censusResult_countable {li ld lp : List Path} (hc : CensusFrom fs li ld lp) :
    censusResult fs li ld lp = .ok (countedCensus fs cs) := by
  have hok := h.legible.censusResult_eq hc
  have hagrees := h.legible.agreesWith hc hok
  have hslots := hagrees.slots
  have hbytes := hagrees.bytes
  have hlen := hcs.length_eq h.legible
  have hle : floorBytes fs ≤ queueBytes fs := Nat.le_add_right _ _
  have hlt := h.entries
  have hlt' := h.bytes
  rw [min_eq_left (by omega)] at hslots hbytes
  generalize censusOf _ _ _ = census at hok hslots hbytes
  obtain ⟨floorClips, floorBytes, candidates⟩ := census
  have horder := hcs.unique h.legible h.named (h.legible.candidateOrder hc hok)
  have hclips := UInt32.toNat_inj.mp (hslots.trans (toNat_floorClips hcs h).symm)
  have hsize := UInt64.toNat_inj.mp (hbytes.trans (@toNat_floorBytes fs incoming cs h).symm)
  dsimp only at horder hclips hsize
  rw [hok, horder, hclips, hsize]
  rfl

/-- The runs of a call all come to the same. -/
theorem runs_applyPolicy_countable :
    Runs Nominal (applyPolicy profile policy incoming) fs v t ↔
      v = enforceResult policy incoming (countedCensus fs cs) (.ofNat (queueEntries fs))
        (.ofNat (queueBytes fs)) ∧
      t = afterEvicting fs (evictedBy policy incoming (countedCensus fs cs)
        (.ofNat (queueEntries fs)) (.ofNat (queueBytes fs))) := by
  have hshows := censusShows h.legible (toNat_totalClips h) (toNat_totalBytes h)
  rw [runs_applyPolicy_iff]
  constructor
  · rintro ⟨li, ld, lp, hc, hres⟩
    have hok := censusResult_countable hcs h hc
    rcases hres with ⟨err, herr, -⟩ | ⟨census, tc, tb, hok', htot, rfl, rfl⟩
    · rw [hok] at herr
      cases herr
    · obtain ⟨census', heq, htot'⟩ :=
        hshows.2 profile _ fs (runs_takeCensus.mpr ⟨rfl, li, ld, lp, hc, rfl⟩)
      obtain rfl := Except.ok.inj (heq.symm.trans hok')
      obtain rfl := Except.ok.inj (hok.symm.trans hok')
      obtain ⟨rfl, rfl⟩ := Prod.mk.inj (Option.some.inj (htot.symm.trans htot'))
      exact ⟨rfl, rfl⟩
  · rintro ⟨rfl, rfl⟩
    obtain ⟨v, t, hrun⟩ := hshows.1
    obtain ⟨census, hv, htot⟩ := hshows.2 profile v t hrun
    obtain ⟨rfl, li, ld, lp, hc, hres⟩ := runs_takeCensus.mp hrun
    have hok := censusResult_countable hcs h hc
    obtain rfl := Except.ok.inj (hv.symm.trans (hres.trans hok))
    exact ⟨li, ld, lp, hc, Or.inr ⟨_, _, _, hok, htot, rfl, rfl⟩⟩

end Counted

/-! ## What stays -/

/-- Only candidates lose files. -/
theorem CandidateOrder.untouched (hcs : CandidateOrder fs cs) (h : Legible fs) (hn : Named fs)
    (hdone : done <+: cs) {d : Dir} {c : ClipId} {x : Ext}
    (hnot : ∀ e ∈ cs, e.dir = d → e.entry.clipId = c → False) :
    (afterEvicting fs done).get (.queue d c x) = fs.get (.queue d c x) := by
  unfold afterEvicting
  rw [FileMap.get_delAll, if_neg]
  intro hmem
  obtain ⟨e, he, hf⟩ := List.mem_flatMap.mp hmem
  have hin := hcs.present h hn (hdone.subset he)
  rcases List.mem_cons.mp hf with hmp4 | hjson
  · obtain ⟨rfl, rfl, -⟩ := Path.queue.inj hmp4
    exact hnot e (hdone.subset he) rfl rfl
  · obtain ⟨rfl, rfl, -⟩ := Path.queue.inj (List.mem_singleton.mp hjson)
    exact hnot e (hdone.subset he) rfl rfl

/-- An enqueued clip takes one slot and its bytes, or those of the entry it replaces. -/
theorem enqueued_totals {n : String} {m : Blob} {e : ClipQueueEntry} :
    queueEntries (enqueued fs n m e) ≤ queueEntries fs + 1 ∧
      queueBytes (enqueued fs n m e) ≤ queueBytes fs + e.byteSize.toNat := by
  have hother : ∀ d c, d ≠ .pending ∨ c ≠ e.clipId →
      (enqueued fs n m e).get (.queue d c .json) = fs.get (.queue d c .json) := by
    intro d c hne
    rw [get_enqueued, if_neg, if_neg (by simp), if_neg (by simp), if_neg (by simp)]
    intro hp
    obtain ⟨rfl, rfl, -⟩ := Path.queue.inj hp
    rcases hne with hne | hne
    · exact hne rfl
    · exact hne rfl
  have hkeep : ∀ d, d ≠ .pending → ∀ f, tally (enqueued fs n m e) d f = tally fs d f :=
    fun d hd f => tally_congr (fun c => hother d c (Or.inl hd)) f
  have hnew : entryAt (enqueued fs n m e) (.queue .pending e.clipId .json) = some e :=
    entryAt_sidecar.mpr (by rw [get_enqueued, if_pos rfl])
  have hadd : ∀ f, tally (enqueued fs n m e) .pending f ≤ tally fs .pending f + f e := by
    intro f
    have hchange := tally_change (fun c hc => hother .pending c (Or.inr hc)) f
    rw [hnew, Option.elim_some] at hchange
    omega
  have hslot := hadd fun _ => 1
  have hsize := hadd sizeOf
  have hentry : sizeOf e = e.byteSize.toNat := rfl
  unfold queueEntries queueBytes
  rw [hkeep .inflight (by decide), hkeep .delivered (by decide), hkeep .inflight (by decide)]
  omega

/-! ## The specification is met -/

section Met

variable (hcs : CandidateOrder fs cs) (h : Countable fs incoming)

/-- The verdict on a store that can be counted. -/
def verdict (policy : QueuePolicy) (incoming : UInt64) (fs : Fs) (cs : List EvictableEntry) :
    PolicyOutcome :=
  enforceResult policy incoming (countedCensus fs cs) (.ofNat (queueEntries fs))
    (.ofNat (queueBytes fs))

/-- The candidates that go. -/
def going (policy : QueuePolicy) (incoming : UInt64) (fs : Fs) (cs : List EvictableEntry) :
    List EvictableEntry :=
  evictedBy policy incoming (countedCensus fs cs) (.ofNat (queueEntries fs)) (.ofNat (queueBytes fs))

theorem going_isPrefix : going policy incoming fs cs <+: cs := evictedBy_isPrefix

include h in
theorem refused (v : PolicyOutcome) (hv : v = ⟨[], .error (.queueFull (.ofNat (queueEntries fs))
    policy.maxClips (.ofNat (queueBytes fs)) policy.maxBytes)⟩) : Refused policy fs v := by
  subst hv
  exact ⟨rfl, _, _, rfl, toNat_totalClips h, toNat_totalBytes h⟩

include hcs h

omit hcs in
theorem breaches_now_iff : breaches policy incoming (.ofNat (queueEntries fs))
    (.ofNat (queueBytes fs)) = false ↔ Fits policy incoming fs := by
  have hlt := h.entries
  have hlt' := h.bytes
  rw [breaches_eq_false_iff_of_lt, toNat_totalClips h, toNat_totalBytes h]
  · exact Iff.rfl
  · rwa [toNat_totalClips h]
  · rwa [toNat_totalBytes h]

theorem breaches_floor_iff : breaches policy incoming (countedCensus fs cs).floorClips
    (countedCensus fs cs).floorBytes = false ↔ FloorFits policy incoming fs := by
  have hlen := hcs.length_eq h.legible
  have hle : floorBytes fs ≤ queueBytes fs := Nat.le_add_right _ _
  have hlt := h.entries
  have hlt' := h.bytes
  rw [breaches_eq_false_iff_of_lt, toNat_floorClips hcs h, toNat_floorBytes h]
  · exact Iff.rfl
  · rw [toNat_floorClips hcs h]
    omega
  · rw [toNat_floorBytes h]
    omega

theorem Fits.floorFits (hfits : Fits policy incoming fs) : FloorFits policy incoming fs := by
  obtain ⟨hentries, hbytes⟩ := hcs.totals_afterEvicting h.legible h.named (List.prefix_refl cs)
  obtain ⟨hclips, hsize⟩ := hfits
  exact (hcs.fits_all_iff h).mp ⟨by omega, by omega⟩

/-- What is admitted fits. -/
theorem fits_of_verdict (hv : (verdict policy incoming fs cs).result = .ok ()) :
    Fits policy incoming (afterEvicting fs (going policy incoming fs cs)) :=
  (hcs.fits_iff h (toNat_totalClips h) (toNat_totalBytes h) going_isPrefix).mp
    (breaches_of_enforceResult_eq_ok hv).1

/-- The records of the loop. -/
theorem recorded (hdone : done <+: cs) :
    Recorded fs done
      (recordsOf policy incoming (.ofNat (queueEntries fs)) (.ofNat (queueBytes fs)) done) := by
  constructor
  · exact clipIds_recordsOf _ _ _
  · intro i r hr
    rw [getElem?_recordsOf] at hr
    obtain ⟨e, -, rfl⟩ := Option.map_eq_some_iff.mp hr
    obtain ⟨hclips, hbytes⟩ := hcs.counts h (toNat_totalClips h) (toNat_totalBytes h)
      ((List.take_prefix (i + 1) done).trans hdone)
    exact censusShows (h.legible.afterEvicting _) hclips hbytes

/-- If the floor leaves room the loop stops at the shortest prefix that makes it. -/
theorem evictedOf_shortestFit (hfloor : FloorFits policy incoming fs) :
    breaches policy incoming
        (afterClips (.ofNat (queueEntries fs)) (evictedOf policy incoming
          (.ofNat (queueEntries fs)) (.ofNat (queueBytes fs)) cs))
        (afterBytes (.ofNat (queueBytes fs)) (evictedOf policy incoming
          (.ofNat (queueEntries fs)) (.ofNat (queueBytes fs)) cs)) = false ∧
      ShortestFit policy incoming fs cs
        (evictedOf policy incoming (.ofNat (queueEntries fs)) (.ofNat (queueBytes fs)) cs) := by
  have hiff : ∀ done, done <+: cs → (breaches policy incoming
      (afterClips (.ofNat (queueEntries fs)) done) (afterBytes (.ofNat (queueBytes fs)) done) = false ↔
        Fits policy incoming (afterEvicting fs done)) :=
    fun done hdone => hcs.fits_iff h (toNat_totalClips h) (toNat_totalBytes h) hdone
  have hpre := @evictedOf_isPrefix policy incoming (.ofNat (queueEntries fs))
    (.ofNat (queueBytes fs)) cs
  have hafter : breaches policy incoming
      (afterClips (.ofNat (queueEntries fs)) (evictedOf policy incoming
        (.ofNat (queueEntries fs)) (.ofNat (queueBytes fs)) cs))
      (afterBytes (.ofNat (queueBytes fs)) (evictedOf policy incoming
        (.ofNat (queueEntries fs)) (.ofNat (queueBytes fs)) cs)) = false := by
    by_contra hb
    rw [Bool.not_eq_false] at hb
    -- all candidates are gone, and the floor fits
    have hall := evictedOf_eq_of_breaches hb
    rw [hall, (hiff cs (List.prefix_refl cs)).mpr ((hcs.fits_all_iff h).mpr hfloor)] at hb
    cases hb
  exact ⟨hafter, hpre, (hiff _ hpre).mp hafter, fun done' hdone' hfits =>
    evictedOf_shortest hdone' ((hiff done' hdone').mpr hfits)⟩

omit hcs in
/-- Without evictions a call is admitted just if the store fits as it is. -/
theorem verdict_refuseNew (hrefuse : policy.eviction = .refuseNew) :
    going policy incoming fs cs = [] ∧ (verdict policy incoming fs cs).evictions = [] ∧
      (Fits policy incoming fs → (verdict policy incoming fs cs).result = .ok ()) ∧
      (¬ Fits policy incoming fs → Refused policy fs (verdict policy incoming fs cs)) := by
  have hnow := @breaches_now_iff fs policy incoming h
  unfold verdict going enforceResult evictedBy
  rw [hrefuse]
  by_cases hb : breaches policy incoming (.ofNat (queueEntries fs)) (.ofNat (queueBytes fs)) = false
  · simp only [hb, Bool.false_eq_true, if_false]
    exact ⟨trivial, trivial, fun _ => trivial, fun hnot => absurd (hnow.mp hb) hnot⟩
  · have hnofit : ¬ Fits policy incoming fs := mt hnow.mpr hb
    rw [Bool.not_eq_false] at hb
    simp only [hb, if_true]
    exact ⟨trivial, trivial, fun hfits => absurd hfits hnofit, fun _ => refused h _ rfl⟩

/-- With the room that the floor leaves, a call evicts the shortest prefix after which it fits. -/
theorem verdict_dropOldest (hdrop : policy.eviction = .dropOldestUndelivered)
    (hfloor : FloorFits policy incoming fs) :
    (verdict policy incoming fs cs).result = .ok () ∧
      ShortestFit policy incoming fs cs (going policy incoming fs cs) ∧
      Recorded fs (going policy incoming fs cs) (verdict policy incoming fs cs).evictions := by
  have hnow := @breaches_now_iff fs policy incoming h
  unfold verdict going enforceResult evictedBy
  rw [hdrop]
  by_cases hb : breaches policy incoming (.ofNat (queueEntries fs)) (.ofNat (queueBytes fs)) = false
  · simp only [hb, Bool.false_eq_true, if_false]
    exact ⟨trivial, ⟨List.nil_prefix, hnow.mp hb, fun _ _ _ => Nat.zero_le _⟩,
      @recorded fs policy incoming cs [] hcs h List.nil_prefix⟩
  · rw [Bool.not_eq_false] at hb
    obtain ⟨hafter, hshort⟩ := evictedOf_shortestFit hcs h hfloor
    simp only [hb, (breaches_floor_iff hcs h).mpr hfloor, if_true, Bool.false_eq_true, if_false,
      evictRun_eq]
    refine ⟨if_neg ?_, hshort, recorded hcs h hshort.isPrefix⟩
    rw [Bool.not_eq_true]
    exact hafter

/-- If the floor is too high, a call refuses. -/
theorem verdict_noRoom (hdrop : policy.eviction = .dropOldestUndelivered)
    (hfloor : ¬ FloorFits policy incoming fs) :
    Refused policy fs (verdict policy incoming fs cs) ∧ going policy incoming fs cs = [] := by
  have hb : breaches policy incoming (.ofNat (queueEntries fs)) (.ofNat (queueBytes fs)) = true := by
    rw [← Bool.not_eq_false, breaches_now_iff h]
    exact fun hfits => hfloor (hfits.floorFits hcs h)
  have hf : breaches policy incoming (countedCensus fs cs).floorClips
      (countedCensus fs cs).floorBytes = true := by
    rw [← Bool.not_eq_false, breaches_floor_iff hcs h]
    exact hfloor
  unfold verdict going enforceResult evictedBy
  rw [hdrop]
  simp only [hb, hf, if_true]
  exact ⟨refused h _ rfl, trivial⟩

theorem inflight_untouched (c : ClipId) (x : Ext) :
    (afterEvicting fs (going policy incoming fs cs)).get (.queue .inflight c x) =
      fs.get (.queue .inflight c x) := by
  refine hcs.untouched h.legible h.named going_isPrefix fun e he hd _ => ?_
  obtain ⟨location, entry⟩ := e
  cases location with
  | deliveredUndeliverable => cases hd
  | pending => cases hd

/-- Of `delivered/` only Undeliverable entries go. -/
theorem delivered_untouched {c : ClipId} {e : ClipQueueEntry}
    (hget : fs.get (.queue .delivered c .json) = some (.sidecar e))
    (hkept : isUndeliverable e = false) (x : Ext) :
    (afterEvicting fs (going policy incoming fs cs)).get (.queue .delivered c x) =
      fs.get (.queue .delivered c x) := by
  refine hcs.untouched h.legible h.named going_isPrefix fun e' he' hd hc => ?_
  have hin := hcs.present h.legible h.named he'
  have hundel := ((hcs.mem_iff h.legible e').mp he').1
  obtain ⟨location, entry⟩ := e'
  cases location with
  | deliveredUndeliverable =>
    subst hc
    have heq : entry = e := sidecar_unique hin hget
    rw [← heq, hundel rfl] at hkept
    cases hkept
  | pending => cases hd

/-- An admitted clip keeps the store within its ceilings. -/
theorem bounded_verdict (hv : (verdict policy incoming fs cs).result = .ok ()) {c : ClipId}
    {n : String} {clipMeta : ClipMeta} {e : ClipQueueEntry} {u : Fs}
    (hrun : Runs Nominal (enqueueWithId c (.source n) clipMeta)
      (afterEvicting fs (going policy incoming fs cs)) (.ok e) u)
    (hsize : e.byteSize = incoming) :
    queueEntries u ≤ policy.maxClips.toNat ∧ queueBytes u ≤ policy.maxBytes.toNat := by
  obtain ⟨hclips, hbytes⟩ := fits_of_verdict hcs h hv
  rcases runs_enqueueWithId.mp hrun with ⟨-, herr, -⟩ | ⟨m, len, at_, -, -, hok, rfl⟩
  · cases herr
  obtain rfl := Except.ok.inj hok
  obtain ⟨hslot, hadd⟩ := @enqueued_totals (afterEvicting fs (going policy incoming fs cs)) n m
    (.new c clipMeta.capturedAt at_ len)
  rw [hsize] at hadd
  exact ⟨hslot.trans hclips, hadd.trans hbytes⟩

theorem enforced_verdict :
    Enforced policy incoming fs cs (verdict policy incoming fs cs)
      (afterEvicting fs (going policy incoming fs cs)) where
  refuseNew hrefuse := by
    obtain ⟨hnone, hverdict⟩ : going policy incoming fs cs = [] ∧ _ := verdict_refuseNew h hrefuse
    exact ⟨by rw [hnone]; rfl, hverdict⟩
  dropOldest hdrop := by
    constructor
    · intro hfloor
      obtain ⟨hok, hshort, hrec⟩ := verdict_dropOldest hcs h hdrop hfloor
      exact ⟨hok, _, hshort, rfl, hrec⟩
    · intro hfloor
      obtain ⟨hrefused, hnone⟩ := verdict_noRoom hcs h hdrop hfloor
      exact ⟨hrefused, by rw [hnone]; rfl⟩
  inflight := inflight_untouched hcs h
  delivered _ _ x hget hkept := delivered_untouched hcs h hget hkept x
  bounded hv _ _ _ _ _ hrun hsize := bounded_verdict hcs h hv hrun hsize

end Met

/-! ## Every call -/

/-- On every store that can be counted the candidates have one order and a call, in either profile
and whatever the listings, comes to one outcome, which is the one specified. -/
theorem applyPolicy_enforces (h : Countable fs incoming) (policy : QueuePolicy) :
    ∃ cs, CandidateOrder fs cs ∧ (∀ cs', CandidateOrder fs cs' → cs' = cs) ∧
      ∃ v t, Enforced policy incoming fs cs v t ∧
        ∀ profile v' t', Runs Nominal (applyPolicy profile policy incoming) fs v' t' ↔
          v' = v ∧ t' = t := by
  obtain ⟨cs, hcs⟩ := h.legible.exists_candidateOrder
  exact ⟨cs, hcs, fun cs' hcs' => hcs.unique h.legible h.named hcs', _, _, enforced_verdict hcs h,
    fun profile v' t' => runs_applyPolicy_countable hcs h⟩

/-- A queue with one clip of one byte. -/
def oneClip : Fs := FileMap.empty.put (.queue .pending "c1" .json) (.sidecar Station.firstEntry)

theorem applyPolicy_enforces_oneClip :
    ∃ cs, CandidateOrder oneClip cs ∧ (∀ cs', CandidateOrder oneClip cs' → cs' = cs) ∧
      ∃ v t, Enforced ⟨1, 1, .dropOldestUndelivered⟩ 1 oneClip cs v t ∧
        ∀ profile v' t', Runs Nominal (applyPolicy profile ⟨1, 1, .dropOldestUndelivered⟩ 1)
          oneClip v' t' ↔ v' = v ∧ t' = t := by
  have hempty : Named FileMap.empty := fun _ _ _ he => by simp at he
  have hother : ∀ d f, d ≠ .pending → tally oneClip d f = tally FileMap.empty d f := by
    intro d f hd
    refine tally_congr (fun c => ?_) f
    rw [oneClip, FileMap.get_put, if_neg fun hp => hd (Path.queue.inj hp).1]
  have hpending : ∀ f, tally oneClip .pending f = f Station.firstEntry := fun f => by
    rw [oneClip, tally_put (by simp), tally_empty, Nat.zero_add]
  have hentries : queueEntries oneClip < 2 ^ 32 - 1 := by
    rw [queueEntries, hother .inflight _ (by decide), hother .delivered _ (by decide), hpending]
    decide
  have hbytes : queueBytes oneClip + (1 : UInt64).toNat < 2 ^ 64 := by
    rw [queueBytes, hother .inflight _ (by decide), hpending]
    decide
  exact applyPolicy_enforces ⟨Legible.empty.put_sidecar _ _ _,
    hempty.put_sidecar .pending Station.firstEntry, hentries, hbytes⟩ _

end Perchstation
