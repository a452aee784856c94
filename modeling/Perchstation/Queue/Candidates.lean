import Perchstation.Queue.Order
import Perchstation.Queue.Totals

/-!
# Candidates — the order in which clips may be evicted

What there is to evict, said of the store alone: the Undeliverable entries of `delivered/` by
`(captured_at, clip_id)`, then the entries of `pending/` by the same key.  The candidates of a census
are in such an order, and every such order is that of some census.
-/

namespace Perchstation

open QueueStore Sorting

variable {fs : Fs} {li ld lp : List Path} {census : Census} {cs : List EvictableEntry}

/-- `a` may be evicted before `b`. -/
def MayPrecede (a b : EvictableEntry) : Prop :=
  a.location = .deliveredUndeliverable ∧ b.location = .pending ∨
    a.location = b.location ∧ sortKey a ≤ sortKey b

/-- The Undeliverable entries among the files of a listing. -/
def undeliverableOf (fs : Fs) (ld : List Path) : List EvictableEntry :=
  ((ld.filterMap (entryAt fs)).filter isUndeliverable).map (.mk .deliveredUndeliverable)

/-- The entries among the files of a listing, as pending ones. -/
def pendingOf (fs : Fs) (lp : List Path) : List EvictableEntry :=
  (lp.filterMap (entryAt fs)).map (.mk .pending)

/-- The candidates of a store, in the order of their eviction. -/
structure CandidateOrder (fs : Fs) (cs : List EvictableEntry) : Prop where
  sorted : cs.Pairwise MayPrecede
  lists : ∃ ld lp, fs.Lists (fun p => p.inDir .delivered) ld ∧
    fs.Lists (fun p => p.inDir .pending) lp ∧ cs.Perm (undeliverableOf fs ld ++ pendingOf fs lp)

theorem location_of_mem_undeliverableOf {e : EvictableEntry} (h : e ∈ undeliverableOf fs ld) :
    e.location = .deliveredUndeliverable := by
  obtain ⟨_, -, rfl⟩ := List.mem_map.mp h
  rfl

theorem location_of_mem_pendingOf {e : EvictableEntry} (h : e ∈ pendingOf fs lp) :
    e.location = .pending := by
  obtain ⟨_, -, rfl⟩ := List.mem_map.mp h
  rfl

theorem exists_perm_undeliverableOf (h : cs.Perm (undeliverableOf fs ld)) :
    ∃ ld', ld'.Perm ld ∧ undeliverableOf fs ld' = cs := by
  unfold undeliverableOf at h ⊢
  simp only [List.filter_filterMap, List.map_filterMap] at h ⊢
  exact exists_perm_filterMap h

theorem exists_perm_pendingOf (h : cs.Perm (pendingOf fs lp)) :
    ∃ lp', lp'.Perm lp ∧ pendingOf fs lp' = cs := by
  unfold pendingOf at h ⊢
  simp only [List.map_filterMap] at h ⊢
  exact exists_perm_filterMap h

/-! ## The candidates of a census -/

/-- One part of the candidates, sorted. -/
theorem pairwise_sortByKey (es : List EvictableEntry) :
    (sortByKey es).Pairwise fun a b => sortKey a ≤ sortKey b :=
  (pairwise_insertionSort sortKeyLe_iff es).imp fun h => (sortKeyLe_iff _ _).mp h

theorem Legible.candidateOrder (h : Legible fs) (hc : CensusFrom fs li ld lp)
    (hok : censusResult fs li ld lp = .ok census) : CandidateOrder fs census.candidates := by
  rw [h.censusResult_eq hc] at hok
  obtain rfl := Except.ok.inj hok
  refine ⟨?_, ld, lp, hc.delivered, hc.pending,
    (List.perm_insertionSort _ _).append (List.perm_insertionSort _ _)⟩
  show (sortByKey (undeliverableOf fs ld) ++ sortByKey (pendingOf fs lp)).Pairwise MayPrecede
  have hfirst : ∀ a ∈ sortByKey (undeliverableOf fs ld), a.location = .deliveredUndeliverable :=
    fun a ha => location_of_mem_undeliverableOf ((List.mem_insertionSort _).mp ha)
  have hsecond : ∀ a ∈ sortByKey (pendingOf fs lp), a.location = .pending :=
    fun a ha => location_of_mem_pendingOf ((List.mem_insertionSort _).mp ha)
  refine List.pairwise_append.mpr ⟨?_, ?_, fun a ha b hb => Or.inl ⟨hfirst a ha, hsecond b hb⟩⟩
  · exact (pairwise_sortByKey _).imp_of_mem fun ha hb hle =>
      Or.inr ⟨(hfirst _ ha).trans (hfirst _ hb).symm, hle⟩
  · exact (pairwise_sortByKey _).imp_of_mem fun ha hb hle =>
      Or.inr ⟨(hsecond _ ha).trans (hsecond _ hb).symm, hle⟩

/-- Candidates in order are those of `delivered/` and then those of `pending/`. -/
theorem eq_append_of_sorted (h : cs.Pairwise MayPrecede) :
    cs = (cs.filter fun e => e.location = .deliveredUndeliverable) ++
      cs.filter fun e => e.location = .pending := by
  induction cs with
  | nil => rfl
  | cons a rest ih =>
    obtain ⟨ha, hrest⟩ := List.pairwise_cons.mp h
    rw [List.filter_cons, List.filter_cons]
    cases hloc : a.location with
    | deliveredUndeliverable =>
      simp only [decide_true, reduceCtorEq, decide_false, if_true, Bool.false_eq_true, if_false,
        List.cons_append]
      rw [← ih hrest]
    | pending =>
      -- what follows a pending entry is pending
      have hpending : ∀ b ∈ rest, b.location = .pending := by
        intro b hb
        rcases ha b hb with ⟨hdel, -⟩ | ⟨heq, -⟩
        · rw [hloc] at hdel
          cases hdel
        · rw [← heq, hloc]
      have hnone : (rest.filter fun e => e.location = .deliveredUndeliverable) = [] := by
        refine List.filter_eq_nil_iff.mpr fun b hb => ?_
        rw [hpending b hb]
        decide
      have hall : (rest.filter fun e => e.location = .pending) = rest :=
        List.filter_eq_self.mpr fun b hb => by simp [hpending b hb]
      simp [hnone, hall]

theorem sortByKey_of_sorted (h : cs.Pairwise MayPrecede)
    (hloc : ∀ a ∈ cs, ∀ b ∈ cs, a.location = b.location) : sortByKey cs = cs := by
  refine List.Pairwise.insertionSort_eq (h.imp_of_mem fun ha hb hab => ?_)
  rcases hab with ⟨hdel, hpen⟩ | ⟨-, hle⟩
  · have heq := hloc _ ha _ hb
    rw [hdel, hpen] at heq
    cases heq
  · exact (sortKeyLe_iff _ _).mpr hle

/-- Every order of the candidates is that of a census: one that finds the files in that order. -/
theorem Legible.census_of_candidateOrder (h : Legible fs) (hcs : CandidateOrder fs cs) :
    ∃ li ld lp census, CensusFrom fs li ld lp ∧ censusResult fs li ld lp = .ok census ∧
      census.candidates = cs := by
  obtain ⟨hsorted, ld, lp, hld, hlp, hperm⟩ := hcs
  have hsplit := eq_append_of_sorted hsorted
  have hdels : (cs.filter fun e => e.location = .deliveredUndeliverable).Perm
      (undeliverableOf fs ld) := by
    refine (hperm.filter _).trans (List.Perm.of_eq ?_)
    rw [List.filter_append, List.filter_eq_self.mpr, List.filter_eq_nil_iff.mpr, List.append_nil]
    · intro e he
      rw [location_of_mem_pendingOf he]
      decide
    · intro e he
      simp [location_of_mem_undeliverableOf he]
  have hpens : (cs.filter fun e => e.location = .pending).Perm (pendingOf fs lp) := by
    refine (hperm.filter _).trans (List.Perm.of_eq ?_)
    rw [List.filter_append, List.filter_eq_nil_iff.mpr, List.filter_eq_self.mpr, List.nil_append]
    · intro e he
      simp [location_of_mem_pendingOf he]
    · intro e he
      rw [location_of_mem_undeliverableOf he]
      decide
  obtain ⟨ld', hld', hdels⟩ := exists_perm_undeliverableOf hdels
  obtain ⟨lp', hlp', hpens⟩ := exists_perm_pendingOf hpens
  obtain ⟨li, hli⟩ := fs.exists_lists fun p => p.inDir .inflight
  have hc : CensusFrom fs li ld' lp' :=
    ⟨hli, ⟨hld'.nodup_iff.mpr hld.nodup, fun p => hld'.mem_iff.trans hld.mem⟩,
      ⟨hlp'.nodup_iff.mpr hlp.nodup, fun p => hlp'.mem_iff.trans hlp.mem⟩⟩
  refine ⟨li, ld', lp', _, hc, h.censusResult_eq hc, ?_⟩
  show sortByKey (undeliverableOf fs ld') ++ sortByKey (pendingOf fs lp') = cs
  have hmem : ∀ {q : EvictableEntry → Bool}, ∀ a ∈ cs.filter q, q a = true := fun a ha =>
    (List.mem_filter.mp ha).2
  rw [hdels, hpens, sortByKey_of_sorted (hsorted.filter _), sortByKey_of_sorted (hsorted.filter _),
    ← hsplit]
  · intro a ha b hb
    rw [of_decide_eq_true (hmem a ha), of_decide_eq_true (hmem b hb)]
  · intro a ha b hb
    rw [of_decide_eq_true (hmem a ha), of_decide_eq_true (hmem b hb)]

theorem Legible.exists_candidateOrder (h : Legible fs) : ∃ cs, CandidateOrder fs cs := by
  obtain ⟨li, ld, lp, hc⟩ := exists_censusFrom fs
  exact ⟨_, h.candidateOrder hc (h.censusResult_eq hc)⟩

/-! ## What there is to evict -/

section Order

variable {done : List EvictableEntry} (h : Legible fs) (hcs : CandidateOrder fs cs)

include h hcs

theorem CandidateOrder.agreesWith : ∃ census, AgreesWith fs census ∧ census.candidates = cs := by
  obtain ⟨li, ld, lp, census, hc, hok, heq⟩ := h.census_of_candidateOrder hcs
  exact ⟨census, h.agreesWith hc hok, heq⟩

theorem CandidateOrder.freedBytes_eq : freedBytes cs = tally fs .pending sizeOf := by
  obtain ⟨census, hagrees, rfl⟩ := hcs.agreesWith h
  exact hagrees.freed

theorem CandidateOrder.length_eq : floorEntries fs + cs.length = queueEntries fs := by
  obtain ⟨census, hagrees, rfl⟩ := hcs.agreesWith h
  exact hagrees.candidates

theorem CandidateOrder.mem_iff (e : EvictableEntry) :
    e ∈ cs ↔ (e.location = .deliveredUndeliverable → isUndeliverable e.entry = true) ∧
      ∃ c, fs.get (.queue e.dir c .json) = some (.sidecar e.entry) := by
  obtain ⟨census, hagrees, rfl⟩ := hcs.agreesWith h
  exact hagrees.mem e

variable (hn : Named fs)

include hn

theorem CandidateOrder.present {e : EvictableEntry} (he : e ∈ cs) :
    fs.get e.sidecar = some (.sidecar e.entry) := by
  obtain ⟨census, hagrees, rfl⟩ := hcs.agreesWith h
  exact hagrees.present hn he

theorem CandidateOrder.nodup_sidecars : (cs.map EvictableEntry.sidecar).Nodup := by
  obtain ⟨li, ld, lp, census, hc, hok, rfl⟩ := h.census_of_candidateOrder hcs
  exact hn.nodup_candidates h hc hok

/-- The eviction of a first part of the candidates takes its slots and bytes away. -/
theorem CandidateOrder.totals_afterEvicting (hdone : done <+: cs) :
    queueEntries (afterEvicting fs done) + done.length = queueEntries fs ∧
      queueBytes (afterEvicting fs done) + freedBytes done = queueBytes fs :=
  Perchstation.totals_afterEvicting
    ((hdone.sublist.map _).nodup (hcs.nodup_sidecars h hn))
    fun _ he => hcs.present h hn (hdone.subset he)

omit hn in
/-- Names tell the candidates apart, so there is one order. -/
theorem CandidateOrder.unique (hn : Named fs) {cs' : List EvictableEntry}
    (hcs' : CandidateOrder fs cs') : cs' = cs := by
  obtain ⟨ld, lp, hld, hlp, hperm⟩ := hcs.lists
  obtain ⟨ld', lp', hld', hlp', hperm'⟩ := hcs'.lists
  have hdels : (undeliverableOf fs ld').Perm (undeliverableOf fs ld) :=
    (((hld'.perm hld).filterMap _).filter _).map _
  have hpens : (pendingOf fs lp').Perm (pendingOf fs lp) := ((hlp'.perm hlp).filterMap _).map _
  have hall : cs'.Perm cs := hperm'.trans ((hdels.append hpens).trans hperm.symm)
  refine hall.eq_of_pairwise (fun a b ha hb hab hba => ?_) hcs'.sorted hcs.sorted
  have hloc : a.location = b.location ∧ sortKey a = sortKey b := by
    rcases hab with ⟨hdel, hpen⟩ | ⟨hloc, hle⟩
    · rcases hba with ⟨hdel', -⟩ | ⟨hloc', -⟩
      · rw [hpen] at hdel'
        cases hdel'
      · rw [hdel, hpen] at hloc'
        cases hloc'
    · rcases hba with ⟨hdel, hpen⟩ | ⟨-, hle'⟩
      · rw [hdel, hpen] at hloc
        cases hloc
      · exact ⟨hloc, le_antisymm hle hle'⟩
  have hclip : a.entry.clipId = b.entry.clipId :=
    congrArg Prod.snd (congrArg ofLex hloc.2)
  have hsidecar : a.sidecar = b.sidecar := by
    rw [EvictableEntry.sidecar, EvictableEntry.sidecar, hclip, EvictableEntry.dir,
      EvictableEntry.dir, hloc.1]
  have hina := hcs.present h hn (hall.mem_iff.mp ha)
  have hinb := hcs.present h hn hb
  have hentry : a.entry = b.entry :=
    Blob.sidecar.inj (Option.some.inj (hina.symm.trans ((congrArg fs.get hsidecar).trans hinb)))
  obtain ⟨location, entry⟩ := a
  obtain ⟨location', entry'⟩ := b
  obtain rfl : location = location' := hloc.1
  obtain rfl : entry = entry' := hentry
  rfl

end Order

end Perchstation
