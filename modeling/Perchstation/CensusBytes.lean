import Perchstation.Queue.Candidates
import Perchstation.Station

/-!
# Census bytes — when the byte arithmetic of a census is right

The bytes of the candidates are an iterator sum, which leaves `u64` for sizes that add up to `2^64`;
and a total that saturated is too small a start for the running differences of the eviction loop.
These are the only two ways for the verdict to come out wrong, whatever the store.
-/

namespace Perchstation

open Resumption QueueStore

variable {fs t : Fs}

/-- The census of a store and what is admitted on it are exact or saturated, in both profiles. -/
structure CensusExact (fs : Fs) : Prop where
  totals : ∀ profile census t, Runs Nominal takeCensus fs (.ok census) t →
    ∃ tc tb, censusTotals profile census = some (tc, tb) ∧
      tb.toNat = min (2 ^ 64 - 1) (queueBytes fs)
  admitted : ∀ profile policy incoming v t, policy.maxBytes.toNat < 2 ^ 64 - 1 →
    Runs Nominal (applyPolicy profile policy incoming) fs v t → v.result = .ok () →
      queueBytes t + incoming.toNat ≤ policy.maxBytes.toNat

/-- The loop's byte count after evicting `done`, as it starts from the saturated total. -/
def runningBytes (fs : Fs) (done : List EvictableEntry) : ℕ :=
  min (queueBytes fs) (2 ^ 64 - 1) - freedBytes done

/-- The bytes waiting in `pending/` add up in `u64`, and after the eviction of any first part of the
candidates what is left is no more than the floor or the loop's own count stands for. -/
structure SumsFit (fs : Fs) : Prop where
  fits : tally fs .pending sizeOf < 2 ^ 64
  stops : ∀ cs, CandidateOrder fs cs → ∀ done, done <+: cs →
    queueBytes (afterEvicting fs done) ≤ max (floorBytes fs) (runningBytes fs done) ∨
      2 ^ 64 - 1 ≤ max (floorBytes fs) (runningBytes fs done)

/-- The sizes that make it so where each sidecar is named after its clip: all bytes of the queue add
up in `u64`, or the floor alone saturates, or there is no more than one size to subtract. -/
structure SizesFit (fs : Fs) : Prop where
  fits : tally fs .pending sizeOf < 2 ^ 64
  stops : queueBytes fs < 2 ^ 64 ∨ 2 ^ 64 - 1 ≤ floorBytes fs ∨
    ∀ c c' e e', fs.get (.queue .pending c .json) = some (.sidecar e) →
      fs.get (.queue .pending c' .json) = some (.sidecar e') → e.byteSize ≠ 0 → e'.byteSize ≠ 0 →
        c = c'

/-! ## Files left -/

theorem tally_le_of_subset (h : ∀ p b, t.get p = some b → fs.get p = some b) (d : Dir)
    (f : ClipQueueEntry → ℕ) : tally t d f ≤ tally fs d f := by
  have hentry : ∀ p ∈ sidecarsIn t d, p ∈ sidecarsIn fs d ∧ entryAt t p = entryAt fs p := by
    intro p hp
    obtain ⟨c, rfl, hs⟩ := mem_sidecarsIn.mp hp
    obtain ⟨b, hb⟩ := Option.isSome_iff_exists.mp hs
    have hb' := h _ b hb
    exact ⟨mem_sidecarsIn.mpr ⟨c, rfl, by rw [hb']; rfl⟩, by rw [entryAt, entryAt, hb, hb']⟩
  unfold tally
  rw [Finset.sum_congr rfl fun p hp => by rw [(hentry p hp).2]]
  exact Finset.sum_le_sum_of_subset fun p hp => (hentry p hp).1

/-- Evicting more leaves no more. -/
theorem queueBytes_afterEvicting_antitone {done done' : List EvictableEntry} (h : done' <+: done) :
    queueBytes (afterEvicting fs done) ≤ queueBytes (afterEvicting fs done') := by
  have hsub : ∀ p b, (afterEvicting fs done).get p = some b →
      (afterEvicting fs done').get p = some b := by
    intro p b hb
    unfold afterEvicting at *
    rw [FileMap.get_delAll] at hb ⊢
    split_ifs at hb with hmem
    rw [if_neg fun hmem' => hmem ?_, hb]
    obtain ⟨e, he, hf⟩ := List.mem_flatMap.mp hmem'
    exact List.mem_flatMap.mpr ⟨e, h.subset he, hf⟩
  exact Nat.add_le_add (tally_le_of_subset hsub _ _) (tally_le_of_subset hsub _ _)

theorem afterEvicting_nil (fs : Fs) : afterEvicting fs [] = fs := rfl

/-! ## Both ways -/

/-- Sums that fit make the census exact and what is admitted fit. -/
theorem SumsFit.censusExact (h : SumsFit fs) (hlegible : Legible fs) : CensusExact fs := by
  constructor
  · intro profile census t hrun
    obtain ⟨rfl, li, ld, lp, hc, hok⟩ := runs_takeCensus.mp hrun
    obtain ⟨tc, tb, htot, -, htb⟩ :=
      (hlegible.agreesWith hc hok.symm).totals h.fits
    exact ⟨tc, tb, htot, by omega⟩
  · intro profile policy incoming v t hmax hrun hv
    obtain ⟨li, ld, lp, hc, hres⟩ := runs_applyPolicy_iff.mp hrun
    rcases hres with ⟨err, -, rfl, -⟩ | ⟨census, tc, tb, hok, htot, rfl, rfl⟩
    · cases hv
    have hagrees := hlegible.agreesWith hc hok
    obtain ⟨tc', tb', htot', -, htb⟩ := hagrees.totals h.fits
    obtain ⟨rfl, rfl⟩ := Prod.mk.inj (Option.some.inj (htot.symm.trans htot'))
    obtain ⟨hafter, hfloor⟩ := breaches_of_enforceResult_eq_ok hv
    have hbytes := (breaches_eq_false_iff.mp hafter).2
    rw [toNat_afterBytes, htb] at hbytes
    rcases hfloor with hnone | hfloor
    · rw [hnone] at hbytes ⊢
      rw [afterEvicting_nil]
      have hfreed : freedBytes [] = 0 := rfl
      omega
    · -- the loop's count and the floor fit, so what is left does
      have hfloorBytes := (breaches_eq_false_iff.mp hfloor).2
      have hstop := h.stops _ (hlegible.candidateOrder hc hok) _
        (@evictedBy_isPrefix policy incoming census tc tb)
      rw [hagrees.bytes] at hfloorBytes
      unfold runningBytes at hstop
      omega

/-- The iterator sum of an exact census does not trap. -/
theorem CensusExact.pending_lt (h : CensusExact fs) (hlegible : Legible fs) :
    tally fs .pending sizeOf < 2 ^ 64 := by
  by_contra hover
  obtain ⟨li, ld, lp, hc⟩ := exists_censusFrom fs
  have hok := hlegible.censusResult_eq hc
  obtain ⟨tc, tb, htot, -⟩ :=
    h.totals .debug _ fs (runs_takeCensus.mpr ⟨rfl, li, ld, lp, hc, hok.symm⟩)
  rw [(hlegible.agreesWith hc hok).totals_debug (not_lt.mp hover)] at htot
  cases htot

/-- An exact census has sums that fit: the ceiling to try is the floor, or the loop's count after the
evictions in question. -/
theorem CensusExact.sumsFit (h : CensusExact fs) (hlegible : Legible fs) : SumsFit fs := by
  have hfits := h.pending_lt hlegible
  refine ⟨hfits, fun cs hcs done hdone => ?_⟩
  obtain ⟨li, ld, lp, census, hc, hok, rfl⟩ := hlegible.census_of_candidateOrder hcs
  -- else a policy with the larger of the two sums as its ceiling admits too much
  by_contra hbad
  rw [not_or, not_le, not_le] at hbad
  obtain ⟨hleft, hsmall⟩ := hbad
  generalize hM : max (floorBytes fs) (runningBytes fs done) = M at hleft hsmall
  have hagrees := hlegible.agreesWith hc hok
  obtain ⟨tc, tb, htot, -, htb⟩ := @AgreesWith.totals _ _ .release hagrees hfits
  let policy : QueuePolicy := ⟨4294967295, UInt64.ofNat M, .dropOldestUndelivered⟩
  have hlt : M < UInt64.size := hsmall.trans (by decide)
  have hmax : policy.maxBytes.toNat = M := UInt64.toNat_ofNat_of_lt' hlt
  -- only bytes matter to this policy
  have hbreach : ∀ clips bytes, bytes.toNat ≤ M → breaches policy 0 clips bytes = false := by
    intro clips bytes hle
    refine breaches_eq_false_iff.mpr ⟨min_le_right _ _, ?_⟩
    rw [hmax]
    exact (min_le_left _ _).trans hle
  have hafterDone : breaches policy 0 (afterClips tc done) (afterBytes tb done) = false := by
    refine hbreach _ _ ?_
    rw [toNat_afterBytes, htb]
    unfold runningBytes at hM
    omega
  have hshort : evictedOf policy 0 tc tb census.candidates <+: done :=
    List.prefix_of_prefix_length_le (evictedOf_isPrefix _ _ _) hdone
      (evictedOf_shortest hdone hafterDone)
  have hok' : (enforceResult policy 0 census tc tb).result = .ok () := by
    refine enforceResult_eq_ok_iff.mpr (Or.inr ⟨rfl, hbreach _ _ ?_, ?_⟩)
    · rw [hagrees.bytes]
      omega
    · by_contra hb
      rw [Bool.not_eq_false] at hb
      -- the loop went through all candidates, and so not past `done`
      have hall := evictedOf_eq_of_breaches hb
      rw [hall] at hb hshort
      rw [hdone.eq_of_length_le hshort.length_le, hb] at hafterDone
      cases hafterDone
  have hadmitted := h.admitted .release policy 0 _ _ (by omega)
    (runs_applyPolicy_iff.mpr ⟨li, ld, lp, hc, Or.inr ⟨census, tc, tb, hok, htot, rfl, rfl⟩⟩) hok'
  have hby : evictedBy policy 0 census tc tb <+: done := by
    unfold evictedBy
    split
    · show (if _ then [] else _) <+: done
      split
      · exact List.nil_prefix
      · exact hshort
    · exact List.nil_prefix
  have hmore := @queueBytes_afterEvicting_antitone fs _ _ hby
  rw [hmax] at hadmitted
  omega

/-! ## Sizes -/

/-- Prefixes that free nothing or everything have one entry of some size among them. -/
theorem eq_of_freedBytes {cs : List EvictableEntry}
    (h : ∀ done, done <+: cs → freedBytes done = 0 ∨ freedBytes done = freedBytes cs)
    {e e' : EvictableEntry} (he : e ∈ cs) (he' : e' ∈ cs) (hs : e.onDiskBytes ≠ 0)
    (hs' : e'.onDiskBytes ≠ 0) : e = e' := by
  induction cs with
  | nil => cases he
  | cons a rest ih =>
    by_cases ha : a.onDiskBytes = 0
    · -- the first entry is of no account
      have hskip : ∀ es, freedBytes (a :: es) = freedBytes es := by
        intro es
        rw [freedBytes, List.map_cons, List.sum_cons, ha]
        exact Nat.zero_add _
      refine ih (fun done hdone => ?_) ?_ ?_
      · have hcons := h (a :: done) ((List.prefix_cons_inj a).mpr hdone)
        rwa [hskip, hskip] at hcons
      · exact (List.mem_cons.mp he).resolve_left fun heq => hs (heq ▸ ha)
      · exact (List.mem_cons.mp he').resolve_left fun heq => hs' (heq ▸ ha)
    · -- the first entry is all there is to free
      have hsize : a.onDiskBytes.toNat ≠ 0 := fun h0 => ha (UInt64.toNat_inj.mp h0)
      have hfirst := h [a] ⟨rest, rfl⟩
      have hsplit : freedBytes (a :: rest) = freedBytes [a] + freedBytes rest :=
        freedBytes_append [a] rest
      have hone : freedBytes [a] = a.onDiskBytes.toNat := Nat.add_zero _
      have hnone : ∀ b ∈ rest, b.onDiskBytes = 0 := by
        intro b hb
        have hzero : freedBytes rest = 0 := by omega
        exact UInt64.toNat_inj.mp (List.sum_eq_zero_iff.mp hzero _ (List.mem_map_of_mem hb))
      rw [(List.mem_cons.mp he).resolve_right fun hb => hs (hnone _ hb),
        (List.mem_cons.mp he').resolve_right fun hb => hs' (hnone _ hb)]

/-- With one entry of some size every prefix frees nothing or everything. -/
theorem freedBytes_of_unique {cs done : List EvictableEntry} (hnd : cs.Nodup)
    (h : ∀ e ∈ cs, ∀ e' ∈ cs, e.onDiskBytes ≠ 0 → e'.onDiskBytes ≠ 0 → e = e')
    (hdone : done <+: cs) :
    freedBytes done = 0 ∨ freedBytes done = freedBytes cs := by
  obtain ⟨rest, rfl⟩ := hdone
  by_cases hzero : freedBytes done = 0
  · exact Or.inl hzero
  refine Or.inr ?_
  have hsized : ∃ e ∈ done, e.onDiskBytes ≠ 0 := by
    by_contra hnone
    push Not at hnone
    exact hzero (List.sum_eq_zero fun n hn => by
      obtain ⟨e, he, rfl⟩ := List.mem_map.mp hn
      rw [hnone e he]
      rfl)
  obtain ⟨e, he, hs⟩ := hsized
  have hrest : freedBytes rest = 0 := by
    refine List.sum_eq_zero fun n hn => ?_
    obtain ⟨e', he', rfl⟩ := List.mem_map.mp hn
    by_contra hs'
    have heq := h e (List.mem_append_left _ he) e' (List.mem_append_right _ he') hs fun h0 =>
      hs' (by rw [h0]; rfl)
    exact (List.nodup_append.mp hnd).2.2 e he e' he' heq
  rw [freedBytes_append, hrest, Nat.add_zero]

/-- Past `u64` and with room for the floor, a first part must free nothing or everything. -/
theorem SumsFit.sizesFit (h : SumsFit fs) (hn : Named fs) (hlegible : Legible fs) :
    SizesFit fs := by
  obtain ⟨hfits, hstops⟩ := h
  refine ⟨hfits, ?_⟩
  by_contra hbad
  push Not at hbad
  obtain ⟨hover, hfloor, c, c', e, e', he, he', hs, hs', hne⟩ := hbad
  obtain ⟨cs, hcs⟩ := hlegible.exists_candidateOrder
  have hmem : ∀ c e, fs.get (.queue .pending c .json) = some (.sidecar e) → ⟨.pending, e⟩ ∈ cs :=
    fun c e he => (hcs.mem_iff hlegible _).mpr ⟨by simp, c, he⟩
  have hfreed : ∀ done, done <+: cs → freedBytes done = 0 ∨ freedBytes done = freedBytes cs := by
    intro done hdone
    have hstop := hstops cs hcs done hdone
    have hleft := (hcs.totals_afterEvicting hlegible hn hdone).2
    have hall := hcs.freedBytes_eq hlegible
    have hpart : freedBytes done ≤ freedBytes cs := by
      obtain ⟨rest, rfl⟩ := hdone
      rw [freedBytes_append]
      exact Nat.le_add_right _ _
    have hsum : queueBytes fs = floorBytes fs + tally fs .pending sizeOf := rfl
    unfold runningBytes at hstop
    omega
  have heq := eq_of_freedBytes hfreed (hmem c e he) (hmem c' e' he') hs hs'
  injection heq with _ heq
  rw [← hn _ c e he, ← hn _ c' e' he', heq] at hne
  exact hne rfl

/-- Only candidates of `pending/` have a size, and one clip has one sidecar there. -/
theorem CandidateOrder.eq_of_sized {cs : List EvictableEntry} (hcs : CandidateOrder fs cs)
    (hn : Named fs) (hlegible : Legible fs)
    (hone : ∀ c c' e e', fs.get (.queue .pending c .json) = some (.sidecar e) →
      fs.get (.queue .pending c' .json) = some (.sidecar e') → e.byteSize ≠ 0 →
      e'.byteSize ≠ 0 → c = c') {e e' : EvictableEntry} (he : e ∈ cs) (he' : e' ∈ cs)
    (hs : e.onDiskBytes ≠ 0) (hs' : e'.onDiskBytes ≠ 0) : e = e' := by
  obtain ⟨location, entry⟩ := e
  obtain ⟨location', entry'⟩ := e'
  cases location with
  | deliveredUndeliverable => exact absurd rfl hs
  | pending =>
    cases location' with
    | deliveredUndeliverable => exact absurd rfl hs'
    | pending =>
      have hin := hcs.present hlegible hn he
      have hin' := hcs.present hlegible hn he'
      have hclip : entry.clipId = entry'.clipId := hone _ _ _ _ hin hin' hs hs'
      have hentry : fs.get (.queue .pending entry.clipId .json) = some (.sidecar entry') := by
        rw [hclip]
        exact hin'
      have heq : entry = entry' := sidecar_unique hin hentry
      rw [heq]

theorem SizesFit.sumsFit (h : SizesFit fs) (hn : Named fs) (hlegible : Legible fs) :
    SumsFit fs := by
  obtain ⟨hfits, hstops⟩ := h
  refine ⟨hfits, fun cs hcs done hdone => ?_⟩
  have hleft := (hcs.totals_afterEvicting hlegible hn hdone).2
  have hall := hcs.freedBytes_eq hlegible
  have hsum : queueBytes fs = floorBytes fs + tally fs .pending sizeOf := rfl
  have hfreed : queueBytes fs < 2 ^ 64 ∨ 2 ^ 64 - 1 ≤ floorBytes fs ∨ freedBytes done = 0 ∨
      freedBytes done = freedBytes cs := by
    rcases hstops with hsmall | hfloor | hone
    · exact Or.inl hsmall
    · exact Or.inr (Or.inl hfloor)
    · have hnd : cs.Nodup := (hcs.nodup_sidecars hlegible hn).of_map
      exact Or.inr (Or.inr (freedBytes_of_unique hnd
        (fun _ he _ he' => hcs.eq_of_sized hn hlegible hone he he') hdone))
  unfold runningBytes
  omega

/-! ## Every store -/

/-- The census arithmetic of a store of decodable sidecars is exact or saturating exactly if its sums
fit: where sidecars are named after their clips, exactly if its sizes do. -/
theorem censusExact_iff (h : Legible fs) :
    (CensusExact fs ↔ SumsFit fs) ∧ (Named fs → (CensusExact fs ↔ SizesFit fs)) := by
  have hiff : CensusExact fs ↔ SumsFit fs :=
    ⟨fun hexact => hexact.sumsFit h, fun hfit => hfit.censusExact h⟩
  refine ⟨hiff, fun hn => hiff.trans ?_⟩
  exact ⟨fun hfit => hfit.sizesFit hn h, fun hfit => hfit.sumsFit hn h⟩

/-- A sidecar that records `n` bytes. -/
def ofBytes (clipId : ClipId) (n : UInt64) : ClipQueueEntry :=
  .new clipId Station.epoch Station.epoch n

/-- Two clips wait for delivery and one is being delivered. -/
def sized : Fs :=
  ((FileMap.empty.put (.queue .inflight "c" .json) (.sidecar (ofBytes "c" 7))).put
    (.queue .pending "a" .json) (.sidecar (ofBytes "a" 3))).put
      (.queue .pending "b" .json) (.sidecar (ofBytes "b" 5))

theorem tally_sized : tally sized .pending sizeOf = 8 ∧ tally sized .inflight sizeOf = 7 := by
  have helsewhere : ∀ {fs : Fs} {c e} d d', d ≠ d' →
      tally (fs.put (.queue d' c .json) (.sidecar e)) d sizeOf = tally fs d sizeOf := by
    intro fs c e d d' hd
    exact tally_congr (fun c' => by simp [FileMap.get_put, hd]) sizeOf
  unfold sized
  constructor
  · rw [tally_put (by simp [FileMap.get_put]), tally_put (by simp [FileMap.get_put]),
      helsewhere _ _ (by decide), tally_empty]
    rfl
  · rw [helsewhere _ _ (by decide), helsewhere _ _ (by decide), tally_put (by simp), tally_empty]
    rfl

/-- Their sizes add up, so the census of the three is exact. -/
theorem censusExact_sized : queueBytes sized = 15 ∧ CensusExact sized := by
  obtain ⟨hpending, hinflight⟩ := tally_sized
  have hlegible : Legible sized :=
    ((Legible.empty.put_sidecar _ _ _).put_sidecar _ _ _).put_sidecar _ _ _
  have hempty : Named FileMap.empty := fun _ _ _ he => by simp at he
  have hnamed : Named sized :=
    ((hempty.put_sidecar .inflight (ofBytes "c" 7)).put_sidecar .pending (ofBytes "a" 3)).put_sidecar
      .pending (ofBytes "b" 5)
  have hbytes : queueBytes sized = 15 := by
    unfold queueBytes
    omega
  have hfit : SizesFit sized := ⟨by omega, Or.inl (by omega)⟩
  exact ⟨hbytes, ((censusExact_iff hlegible).2 hnamed).mpr hfit⟩

/-- A sidecar that records half of what `u64` can count. -/
def half (clipId : ClipId) : ClipQueueEntry :=
  .new clipId Station.epoch Station.epoch 9223372036854775808

/-- Two of them wait for delivery. -/
def twoHalves : Fs :=
  (FileMap.empty.put (.queue .pending "a" .json) (.sidecar (half "a"))).put
    (.queue .pending "b" .json) (.sidecar (half "b"))

/-- Together they are past `u64`: a debug build panics on them. -/
theorem twoHalves_not_exact :
    Legible twoHalves ∧ Named twoHalves ∧ ¬ CensusExact twoHalves := by
  have hlegible : Legible twoHalves := (Legible.empty.put_sidecar _ _ _).put_sidecar _ _ _
  have hempty : Named FileMap.empty := fun _ _ _ he => by simp at he
  have hnamed : Named twoHalves :=
    (hempty.put_sidecar .pending (half "a")).put_sidecar .pending (half "b")
  refine ⟨hlegible, hnamed, fun h => ?_⟩
  have hfits := (h.sumsFit hlegible).fits
  unfold twoHalves at hfits
  rw [tally_put (by simp [FileMap.get_put]), tally_put (by simp), tally_empty] at hfits
  exact absurd hfits (by decide)

end Perchstation
