import Perchstation.Queue.Accounting
import Perchstation.Queue.Eviction

/-!
# Totals — a census against the store it was taken of

The floor saturates and the candidates' bytes are an iterator sum.  Up to saturation a census has the
slots and bytes of its store; only the iterator sum can go wrong.
-/

namespace Perchstation

open Resumption QueueStore

variable {fs t : Fs} {li ld lp : List Path} {census : Census} {profile : Profile}

/-! ## The machine sums -/

theorem toNat_addSlots (clips : UInt32) (entries : List ClipQueueEntry) :
    (addSlots clips entries).toNat = min (clips.toNat + entries.length) (2 ^ 32 - 1) := by
  induction entries generalizing clips with
  | nil =>
    have hlt := clips.toNat_lt
    show clips.toNat = min (clips.toNat + 0) (2 ^ 32 - 1)
    omega
  | cons e rest ih =>
    show (addSlots (saturatingAdd32 clips 1) rest).toNat = _
    rw [ih, saturatingAdd32_toNat, List.length_cons]
    show min (min (clips.toNat + 1) _ + _) _ = _
    omega

theorem toNat_addBytes (bytes : UInt64) (entries : List ClipQueueEntry) :
    (addBytes bytes entries).toNat = min (bytes.toNat + (entries.map sizeOf).sum) (2 ^ 64 - 1) := by
  induction entries generalizing bytes with
  | nil =>
    have hlt := bytes.toNat_lt
    show bytes.toNat = min (bytes.toNat + 0) (2 ^ 64 - 1)
    omega
  | cons e rest ih =>
    show (addBytes (saturatingAdd64 bytes e.byteSize) rest).toNat = _
    rw [ih, saturatingAdd64_toNat, List.map_cons, List.sum_cons]
    show min (min (bytes.toNat + e.byteSize.toNat) _ + _) _ =
      min (bytes.toNat + (e.byteSize.toNat + _)) _
    omega

/-- Below `2^64` the iterator sum is exact in either profile. -/
theorem sumBytes_exact {bs : List UInt64} (h : (bs.map UInt64.toNat).sum < 2 ^ 64) :
    ∃ total, sumBytes profile bs = some total ∧ total.toNat = (bs.map UInt64.toNat).sum := by
  induction bs with
  | nil => exact ⟨0, rfl, rfl⟩
  | cons b rest ih =>
    rw [List.map_cons, List.sum_cons] at h ⊢
    obtain ⟨total, hsum, htotal⟩ := ih (by omega)
    have hfits : b.toNat + total.toNat < 2 ^ 64 := by omega
    refine ⟨b + total, ?_, ?_⟩
    · rw [sumBytes, hsum]
      exact if_pos (Or.inl hfits)
    · rw [UInt64.toNat_add, Nat.mod_eq_of_lt hfits, htotal]

/-- From `2^64` on it traps in a debug build. -/
theorem sumBytes_debug {bs : List UInt64} (h : 2 ^ 64 ≤ (bs.map UInt64.toNat).sum) :
    sumBytes .debug bs = none := by
  induction bs with
  | nil => exact absurd h (by decide)
  | cons b rest ih =>
    rw [List.map_cons, List.sum_cons] at h
    rw [sumBytes]
    by_cases hrest : (rest.map UInt64.toNat).sum < 2 ^ 64
    · obtain ⟨total, hsum, htotal⟩ := @sumBytes_exact .debug rest hrest
      rw [hsum]
      exact if_neg (by simp; omega)
    · rw [ih (not_lt.mp hrest)]

/-! ## The census -/

/-- The entries a legible store's census is made of. -/
theorem Legible.censusResult_eq (h : Legible fs) (hc : CensusFrom fs li ld lp) :
    censusResult fs li ld lp =
      .ok (censusOf (li.filterMap (entryAt fs)) (ld.filterMap (entryAt fs))
        (lp.filterMap (entryAt fs))) := by
  rw [censusResult, h.decodeAll_eq (by decide) hc.inflight, h.decodeAll_eq (by decide) hc.delivered,
    h.decodeAll_eq (by decide) hc.pending]

/-- A census agrees with its store, up to saturation of the floor. -/
structure AgreesWith (fs : Fs) (census : Census) : Prop where
  slots : census.floorClips.toNat = min (floorEntries fs) (2 ^ 32 - 1)
  bytes : census.floorBytes.toNat = min (floorBytes fs) (2 ^ 64 - 1)
  candidates : floorEntries fs + census.candidates.length = queueEntries fs
  freed : freedBytes census.candidates = tally fs .pending sizeOf
  mem : ∀ e, e ∈ census.candidates ↔ (e.location = .deliveredUndeliverable →
    isUndeliverable e.entry = true) ∧ ∃ c, fs.get (.queue e.dir c .json) = some (.sidecar e.entry)

theorem freedBytes_perm {es es' : List EvictableEntry} (h : es.Perm es') :
    freedBytes es = freedBytes es' :=
  (h.map _).sum_eq

theorem freedBytes_append (es es' : List EvictableEntry) :
    freedBytes (es ++ es') = freedBytes es + freedBytes es' := by
  unfold freedBytes
  rw [List.map_append, List.sum_append]

theorem length_eq_tally {d : Dir} {l : List Path} (hl : fs.Lists (fun p => p.inDir d) l) :
    (l.filterMap (entryAt fs)).length = tally fs d fun _ => 1 := by
  simp [← sum_entries hl]

/-- Entries of one kind, counted. -/
theorem length_filter_eq_sum (es : List ClipQueueEntry) (q : ClipQueueEntry → Bool) :
    (es.filter q).length = (es.map fun e => if q e then 1 else 0).sum := by
  induction es with
  | nil => rfl
  | cons e rest ih =>
    rw [List.filter_cons, List.map_cons, List.sum_cons, ← ih]
    split_ifs
    · rw [List.length_cons, Nat.add_comm]
    · exact (Nat.zero_add _).symm

theorem Legible.agreesWith (h : Legible fs) (hc : CensusFrom fs li ld lp)
    (hok : censusResult fs li ld lp = .ok census) : AgreesWith fs census := by
  rw [h.censusResult_eq hc] at hok
  obtain rfl := Except.ok.inj hok
  have hkept : ((ld.filterMap (entryAt fs)).filter fun e => !isUndeliverable e).length =
      tally fs .delivered fun e => if isUndeliverable e then 0 else 1 := by
    rw [length_filter_eq_sum, ← sum_entries hc.delivered]
    congr 1
    refine List.map_congr_left fun e _ => ?_
    cases isUndeliverable e <;> rfl
  have hsplit : ((ld.filterMap (entryAt fs)).filter isUndeliverable).length +
      ((ld.filterMap (entryAt fs)).filter fun e => !isUndeliverable e).length =
      tally fs .delivered fun _ => 1 := by
    rw [← length_eq_tally hc.delivered]
    exact (List.length_eq_length_filter_add isUndeliverable).symm
  refine ⟨?_, ?_, ?_, ?_, fun e => ?_⟩
  · -- the clips and the bytes that no eviction frees
    show (addSlots (addSlots 0 _) _).toNat = _
    rw [toNat_addSlots, toNat_addSlots, length_eq_tally hc.inflight, hkept]
    show min (min (0 + _) _ + _) _ = min (_ + _) _
    omega
  · show (addBytes 0 _).toNat = _
    rw [toNat_addBytes, sum_entries hc.inflight]
    show min (0 + _) _ = _
    rw [Nat.zero_add, floorBytes]
  · -- with the candidates they make up the queue
    show floorEntries fs + (sortByKey _ ++ sortByKey _).length = _
    rw [List.length_append, sortByKey, sortByKey, List.length_insertionSort,
      List.length_insertionSort, List.length_map, List.length_map, length_eq_tally hc.pending,
      floorEntries, queueEntries]
    omega
  · show freedBytes (sortByKey _ ++ sortByKey _) = _
    rw [freedBytes_append, sortByKey, sortByKey, freedBytes_perm (List.perm_insertionSort _ _),
      freedBytes_perm (List.perm_insertionSort _ _), ← sum_entries hc.pending]
    have hnone : ∀ es : List ClipQueueEntry,
        freedBytes (es.map (EvictableEntry.mk .deliveredUndeliverable)) = 0 := by
      intro es
      rw [freedBytes, List.map_map]
      exact List.sum_eq_zero fun n hn => by
        obtain ⟨e, -, rfl⟩ := List.mem_map.mp hn
        rfl
    rw [hnone, Nat.zero_add, freedBytes, List.map_map]
    rfl
  · rw [mem_candidates]
    obtain ⟨location, entry⟩ := e
    cases location with
    | deliveredUndeliverable =>
      simp [EvictableEntry.dir, mem_entries hc.delivered, and_comm]
    | pending => simp [EvictableEntry.dir, mem_entries hc.pending]

/-- The sidecar of a candidate. -/
def EvictableEntry.sidecar (e : EvictableEntry) : Path := .queue e.dir e.entry.clipId .json

/-- In a store with proper names the candidates are different sidecars, each at its place. -/
theorem AgreesWith.present (h : AgreesWith fs census) (hn : Named fs) {e : EvictableEntry}
    (he : e ∈ census.candidates) : fs.get e.sidecar = some (.sidecar e.entry) := by
  obtain ⟨c, hc⟩ := ((h.mem e).mp he).2
  rw [EvictableEntry.sidecar, hn _ c _ hc, hc]

theorem Named.nodup_candidates (hn : Named fs) (h : Legible fs) (hc : CensusFrom fs li ld lp)
    (hok : censusResult fs li ld lp = .ok census) :
    (census.candidates.map EvictableEntry.sidecar).Nodup := by
  rw [h.censusResult_eq hc] at hok
  obtain rfl := Except.ok.inj hok
  have hpart : ∀ {d l} (location : EvictableLocation) (q : ClipQueueEntry → Bool),
      fs.Lists (fun p => p.inDir d) l →
        ((sortByKey (((l.filterMap (entryAt fs)).filter q).map (EvictableEntry.mk location))).map
          EvictableEntry.sidecar).Nodup := by
    intro d l location q hl
    rw [sortByKey, ((List.perm_insertionSort _ _).map _).nodup_iff, List.map_map]
    have hids := hn.nodup_clipIds hl
    rw [List.Nodup, List.pairwise_map] at hids ⊢
    refine (hids.filter q).imp fun hne heq => hne ?_
    exact (Path.queue.inj heq).2.1
  have hpending := hpart .pending (fun _ => true) hc.pending
  rw [List.filter_true] at hpending
  show ((sortByKey _ ++ sortByKey _).map EvictableEntry.sidecar).Nodup
  rw [List.map_append]
  refine List.Nodup.append (hpart .deliveredUndeliverable _ hc.delivered) hpending ?_
  -- the two parts are in different directories
  intro p hp hp'
  obtain ⟨e, he, rfl⟩ := List.mem_map.mp hp
  obtain ⟨e', he', heq⟩ := List.mem_map.mp hp'
  obtain ⟨_, -, rfl⟩ := List.mem_map.mp ((List.mem_insertionSort _).mp he)
  obtain ⟨_, -, rfl⟩ := List.mem_map.mp ((List.mem_insertionSort _).mp he')
  have hdir : Dir.pending = Dir.delivered := (Path.queue.inj heq).1
  cases hdir

/-- With candidates below `2^64` bytes the totals are those of the store, saturated. -/
theorem AgreesWith.totals (h : AgreesWith fs census) (hfits : tally fs .pending sizeOf < 2 ^ 64) :
    ∃ tc tb, censusTotals profile census = some (tc, tb) ∧
      tc.toNat = min (queueEntries fs) (2 ^ 32 - 1) ∧
      tb.toNat = min (queueBytes fs) (2 ^ 64 - 1) := by
  have hsum : ((census.candidates.map EvictableEntry.onDiskBytes).map UInt64.toNat).sum =
      tally fs .pending sizeOf := by
    rw [List.map_map]
    exact h.freed
  obtain ⟨total, htotal, hnat⟩ := @sumBytes_exact profile _ (hsum ▸ hfits)
  refine ⟨_, _, by simp only [censusTotals, htotal]; rfl, ?_, ?_⟩
  · have hlen := h.candidates
    rw [saturatingAdd32_toNat, h.slots]
    split_ifs with hlt
    · rw [UInt32.toNat_ofNat_of_lt' hlt]
      omega
    · show min (_ + 4294967295) _ = _
      omega
  · rw [saturatingAdd64_toNat, h.bytes, hnat, hsum, queueBytes, floorBytes]
    omega

/-- From `2^64` bytes on they trap in a debug build. -/
theorem AgreesWith.totals_debug (h : AgreesWith fs census)
    (hover : 2 ^ 64 ≤ tally fs .pending sizeOf) : censusTotals .debug census = none := by
  have hsum : ((census.candidates.map EvictableEntry.onDiskBytes).map UInt64.toNat).sum =
      tally fs .pending sizeOf := by
    rw [List.map_map]
    exact h.freed
  rw [censusTotals, sumBytes_debug (hsum ▸ hover)]

/-! ## The store after evictions -/

/-- Evicting entries that are there takes the share of each away. -/
theorem tally_afterEvicting {done : List EvictableEntry}
    (hnd : (done.map EvictableEntry.sidecar).Nodup)
    (hin : ∀ e ∈ done, fs.get e.sidecar = some (.sidecar e.entry)) (d : Dir)
    (f : ClipQueueEntry → ℕ) :
    tally (afterEvicting fs done) d f + (done.map fun e => if d = e.dir then f e.entry else 0).sum =
      tally fs d f := by
  induction done generalizing fs with
  | nil => rfl
  | cons e rest ih =>
    obtain ⟨hnot, hrest⟩ := List.nodup_cons.mp hnd
    have hkeep : ∀ e' ∈ rest, (fs.delAll e.files).get e'.sidecar = some (.sidecar e'.entry) := by
      intro e' he'
      have hne : e'.sidecar ≠ e.sidecar := fun heq => hnot (heq ▸ List.mem_map_of_mem he')
      rw [FileMap.get_delAll, if_neg, hin e' (List.mem_cons_of_mem _ he')]
      intro hmem
      rcases List.mem_cons.mp hmem with hmp4 | hjson
      · simp [EvictableEntry.sidecar] at hmp4
      · exact hne (List.mem_singleton.mp hjson)
    have hhead := @tally_evict fs d e (hin e List.mem_cons_self) f
    rw [afterEvicting_cons, List.map_cons, List.sum_cons, ← hhead, ← ih hrest hkeep]
    omega

section Evicted

variable {done : List EvictableEntry}

/-- The store after evicting entries, each of which was there. -/
theorem totals_afterEvicting (hnd : (done.map EvictableEntry.sidecar).Nodup)
    (hin : ∀ e ∈ done, fs.get e.sidecar = some (.sidecar e.entry)) :
    queueEntries (afterEvicting fs done) + done.length = queueEntries fs ∧
      queueBytes (afterEvicting fs done) + freedBytes done = queueBytes fs := by
  have hnone : ∀ f : ClipQueueEntry → ℕ,
      (done.map fun e => if Dir.inflight = e.dir then f e.entry else 0).sum = 0 := by
    intro f
    refine List.sum_eq_zero fun n hn => ?_
    obtain ⟨e, -, rfl⟩ := List.mem_map.mp hn
    obtain ⟨location, entry⟩ := e
    cases location <;> rfl
  have hslots : (done.map fun e => if Dir.delivered = e.dir then 1 else 0).sum +
      (done.map fun e => if Dir.pending = e.dir then 1 else 0).sum = done.length := by
    clear hnd hin hnone
    induction done with
    | nil => rfl
    | cons e rest ih =>
      obtain ⟨location, entry⟩ := e
      rw [List.map_cons, List.map_cons, List.sum_cons, List.sum_cons, List.length_cons, ← ih]
      cases location <;> simp [EvictableEntry.dir] <;> omega
  have hbytes : (done.map fun e => if Dir.pending = e.dir then sizeOf e.entry else 0).sum =
      freedBytes done := by
    refine congrArg List.sum (List.map_congr_left fun e _ => ?_)
    obtain ⟨location, entry⟩ := e
    cases location <;> rfl
  have hi := fun f => tally_afterEvicting hnd hin .inflight f
  have hd := tally_afterEvicting hnd hin .delivered fun _ => 1
  have hp := fun f => tally_afterEvicting hnd hin .pending f
  simp only [hnone, Nat.add_zero] at hi
  have hp1 := hp fun _ => 1
  have hp2 := hp sizeOf
  unfold queueEntries queueBytes
  rw [hi, hi]
  omega

end Evicted

end Perchstation
