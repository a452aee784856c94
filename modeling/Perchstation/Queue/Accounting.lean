import Mathlib.Algebra.BigOperators.Group.Finset.Basic
import Mathlib.Algebra.Order.BigOperators.Group.Finset
import Perchstation.Queue.Kept
import Perchstation.Queue.PolicyRules

/-!
# Accounting — the slots and bytes a store really has

The entries and the recorded media bytes of a store, as sums over its sidecars.  A listing gives the
same sums in whatever order it comes, and an eviction takes its candidate's share away.
-/

namespace Perchstation

open QueueStore

variable {fs t : Fs} {d : Dir} {l : List Path} {p : Path} {f : ClipQueueEntry → ℕ}

/-! ## Sums over a directory -/

/-- The sidecars of a directory. -/
def sidecarsIn (fs : Fs) (d : Dir) : Finset Path :=
  fs.names.filter fun p => p.inDir d ∧ p.hasExt .json

theorem mem_sidecarsIn : p ∈ sidecarsIn fs d ↔ ∃ c, p = .queue d c .json ∧ (fs.get p).isSome := by
  rw [sidecarsIn, Finset.mem_filter, FileMap.mem_names, inDir_and_hasExt_iff,
    ← Option.isSome_iff_ne_none]
  constructor
  · rintro ⟨hs, c, hc⟩
    exact ⟨c, hc, hs⟩
  · rintro ⟨c, hc, hs⟩
    exact ⟨hs, c, hc⟩

/-- The sum of `f` over the entries of a directory. -/
def tally (fs : Fs) (d : Dir) (f : ClipQueueEntry → ℕ) : ℕ :=
  ∑ p ∈ sidecarsIn fs d, (entryAt fs p).elim 0 f

/-- The entries of the queue. -/
def queueEntries (fs : Fs) : ℕ :=
  tally fs .inflight (fun _ => 1) + tally fs .delivered (fun _ => 1) +
    tally fs .pending (fun _ => 1)

/-- The bytes an entry records. -/
def sizeOf (e : ClipQueueEntry) : ℕ := e.byteSize.toNat

/-- The recorded bytes of the media in the queue: what is in `delivered/` has none. -/
def queueBytes (fs : Fs) : ℕ := tally fs .inflight sizeOf + tally fs .pending sizeOf

/-- The slots that eviction cannot free. -/
def floorEntries (fs : Fs) : ℕ :=
  tally fs .inflight (fun _ => 1) +
    tally fs .delivered (fun e => if isUndeliverable e then 0 else 1)

/-- The bytes that eviction cannot free. -/
def floorBytes (fs : Fs) : ℕ := tally fs .inflight sizeOf

/-- Every sidecar of the three directories decodes. -/
def Legible (fs : Fs) : Prop :=
  ∀ d c, d ≠ .corrupt → (fs.get (.queue d c .json)).isSome →
    ∃ e, fs.get (.queue d c .json) = some (.sidecar e)

theorem entryAt_sidecar {c : ClipId} {e : ClipQueueEntry} :
    entryAt fs (.queue d c .json) = some e ↔ fs.get (.queue d c .json) = some (.sidecar e) := by
  unfold entryAt
  rw [if_pos (by simp [Path.hasExt])]
  rcases fs.get (.queue d c .json) with _ | _ | _ <;> simp

/-- A legible directory reads as the entries of its sidecars. -/
theorem Legible.decodeAll_eq (h : Legible fs) (hd : d ≠ .corrupt)
    (hl : fs.Lists (fun p => p.inDir d) l) : decodeAll fs l = .ok (l.filterMap (entryAt fs)) := by
  refine decodeAll_eq_filterMap fun p hp hx => ?_
  obtain ⟨hin, hs⟩ := hl.mem.mp hp
  obtain ⟨c, rfl⟩ := inDir_and_hasExt_iff.mp ⟨hin, hx⟩
  exact h d c hd hs

/-- The sums over a listing are those of the directory. -/
theorem sum_entries (hl : fs.Lists (fun p => p.inDir d) l) (f : ClipQueueEntry → ℕ) :
    ((l.filterMap (entryAt fs)).map f).sum = tally fs d f := by
  have hset : sidecarsIn fs d = (l.filter (·.hasExt .json)).toFinset := by
    ext p
    rw [mem_sidecarsIn, List.mem_toFinset, mem_sidecars hl]
  rw [tally, hset, List.sum_toFinset _ (hl.nodup.filter _)]
  -- what is no sidecar has no entry
  clear hl hset
  induction l with
  | nil => rfl
  | cons p rest ih =>
    rw [List.filterMap_cons, List.filter_cons]
    by_cases hx : p.hasExt .json = true
    · rw [if_pos hx, List.map_cons, List.sum_cons, ← ih]
      cases entryAt fs p <;> simp
    · have hnone : entryAt fs p = none := by rw [entryAt, if_neg hx]
      rw [if_neg hx, hnone, ← ih]

theorem path_of_entryAt (hl : fs.Lists (fun p => p.inDir d) l) (hp : p ∈ l) {e : ClipQueueEntry}
    (he : entryAt fs p = some e) :
    ∃ c, p = .queue d c .json ∧ fs.get (.queue d c .json) = some (.sidecar e) := by
  have hx : p.hasExt .json = true := by
    by_contra hx
    rw [entryAt, if_neg hx] at he
    cases he
  obtain ⟨c, rfl⟩ := inDir_and_hasExt_iff.mp ⟨(hl.mem.mp hp).1, hx⟩
  exact ⟨c, rfl, entryAt_sidecar.mp he⟩

theorem mem_entries (hl : fs.Lists (fun p => p.inDir d) l) {e : ClipQueueEntry} :
    e ∈ l.filterMap (entryAt fs) ↔ ∃ c, fs.get (.queue d c .json) = some (.sidecar e) := by
  rw [List.mem_filterMap]
  constructor
  · rintro ⟨p, hp, he⟩
    obtain ⟨c, -, hc⟩ := path_of_entryAt hl hp he
    exact ⟨c, hc⟩
  · rintro ⟨c, hc⟩
    exact ⟨_, hl.mem.mpr ⟨by simp [Path.inDir], by simp [hc]⟩, entryAt_sidecar.mpr hc⟩

/-- In a store with proper names no two entries of a directory share a clip-id. -/
theorem Named.nodup_clipIds (h : Named fs) (hl : fs.Lists (fun p => p.inDir d) l) :
    ((l.filterMap (entryAt fs)).map ClipQueueEntry.clipId).Nodup := by
  have hpath : ∀ p ∈ l, ∀ e, entryAt fs p = some e → p = .queue d e.clipId .json := by
    intro p hp e he
    obtain ⟨c, rfl, hc⟩ := path_of_entryAt hl hp he
    rw [h d c e hc]
  rw [List.Nodup, List.pairwise_map, List.pairwise_filterMap]
  refine hl.nodup.imp_of_mem fun hp hq hne e he e' he' heq => hne ?_
  rw [hpath _ hp e he, hpath _ hq e' he', heq]

/-! ## One sidecar more or less -/

/-- Only the sidecar of `c` has changed, and the sum by its entries. -/
theorem tally_change {c : ClipId}
    (h : ∀ c', c' ≠ c → t.get (.queue d c' .json) = fs.get (.queue d c' .json))
    (f : ClipQueueEntry → ℕ) :
    tally t d f + (entryAt fs (.queue d c .json)).elim 0 f =
      tally fs d f + (entryAt t (.queue d c .json)).elim 0 f := by
  have hsplit : ∀ fs : Fs, tally fs d f =
      ∑ p ∈ (sidecarsIn fs d).erase (.queue d c .json), (entryAt fs p).elim 0 f +
        (entryAt fs (.queue d c .json)).elim 0 f := by
    intro fs
    rw [tally]
    by_cases hmem : Path.queue d c .json ∈ sidecarsIn fs d
    · exact (Finset.sum_erase_add _ _ hmem).symm
    · have hnone : entryAt fs (.queue d c .json) = none := by
        rw [Option.eq_none_iff_forall_not_mem]
        intro e he
        exact hmem (mem_sidecarsIn.mpr ⟨c, rfl, by simp [entryAt_sidecar.mp he]⟩)
      rw [Finset.erase_eq_of_notMem hmem, hnone, Option.elim_none, Nat.add_zero]
  have hrest : ∑ p ∈ (sidecarsIn t d).erase (.queue d c .json), (entryAt t p).elim 0 f =
      ∑ p ∈ (sidecarsIn fs d).erase (.queue d c .json), (entryAt fs p).elim 0 f := by
    have hset : (sidecarsIn t d).erase (.queue d c .json) =
        (sidecarsIn fs d).erase (.queue d c .json) := by
      ext p
      rw [Finset.mem_erase, Finset.mem_erase, mem_sidecarsIn, mem_sidecarsIn]
      refine and_congr_right fun hne => exists_congr fun c' => and_congr_right ?_
      rintro rfl
      rw [h c' fun heq => hne (by rw [heq])]
    rw [hset]
    refine Finset.sum_congr rfl fun p hp => ?_
    obtain ⟨hne, hp⟩ := Finset.mem_erase.mp hp
    obtain ⟨c', rfl, -⟩ := mem_sidecarsIn.mp hp
    rw [entryAt, entryAt, h c' fun heq => hne (by rw [heq])]
  rw [hsplit t, hsplit fs, hrest]
  omega

theorem tally_congr (h : ∀ c, t.get (.queue d c .json) = fs.get (.queue d c .json))
    (f : ClipQueueEntry → ℕ) : tally t d f = tally fs d f := by
  have hchange := tally_change (c := "") (fun c' _ => h c') f
  have hentry : entryAt t (.queue d "" .json) = entryAt fs (.queue d "" .json) := by
    rw [entryAt, entryAt, h]
  rw [hentry] at hchange
  omega

/-- A new sidecar adds its share. -/
theorem tally_put {c : ClipId} {e : ClipQueueEntry} (hnew : fs.get (.queue d c .json) = none)
    (f : ClipQueueEntry → ℕ) :
    tally (fs.put (.queue d c .json) (.sidecar e)) d f = tally fs d f + f e := by
  have hkeep : ∀ c', c' ≠ c → (fs.put (.queue d c .json) (.sidecar e)).get (.queue d c' .json) =
      fs.get (.queue d c' .json) := fun c' hc => by simp [FileMap.get_put, hc]
  have hchange := tally_change hkeep f
  have hnone : entryAt fs (.queue d c .json) = none := by
    rw [Option.eq_none_iff_forall_not_mem]
    intro e' he'
    rw [entryAt_sidecar.mp he'] at hnew
    cases hnew
  have hsome : entryAt (fs.put (.queue d c .json) (.sidecar e)) (.queue d c .json) = some e :=
    entryAt_sidecar.mpr (by simp [FileMap.get_put])
  rw [hnone, hsome] at hchange
  exact hchange

theorem tally_empty (d : Dir) (f : ClipQueueEntry → ℕ) : tally FileMap.empty d f = 0 := rfl

theorem Legible.empty : Legible FileMap.empty := fun _ _ _ hs => by simp at hs

theorem Legible.put_sidecar (h : Legible fs) (d : Dir) (c : ClipId) (e : ClipQueueEntry) :
    Legible (fs.put (.queue d c .json) (.sidecar e)) := by
  intro d' c' hd hs
  rw [FileMap.get_put] at hs ⊢
  split_ifs at hs ⊢ with hp
  · exact ⟨e, rfl⟩
  · exact h d' c' hd hs

/-- An eviction takes the share of its candidate away. -/
theorem tally_evict {e : EvictableEntry}
    (h : fs.get (.queue e.dir e.entry.clipId .json) = some (.sidecar e.entry))
    (f : ClipQueueEntry → ℕ) :
    tally (fs.delAll e.files) d f + (if d = e.dir then f e.entry else 0) = tally fs d f := by
  have hget : ∀ d' c', (fs.delAll e.files).get (.queue d' c' .json) =
      if d' = e.dir ∧ c' = e.entry.clipId then none else fs.get (.queue d' c' .json) := by
    intro d' c'
    rw [FileMap.get_delAll]
    simp [EvictableEntry.files]
  split_ifs with hd
  · subst hd
    have hchange := tally_change (t := fs.delAll e.files) (c := e.entry.clipId)
      (fun c' hc => (hget e.dir c').trans (if_neg fun hh => hc hh.2)) f
    have hgone : entryAt (fs.delAll e.files) (.queue e.dir e.entry.clipId .json) = none := by
      rw [Option.eq_none_iff_forall_not_mem]
      intro e' he'
      have hsome := entryAt_sidecar.mp he'
      rw [hget, if_pos ⟨rfl, rfl⟩] at hsome
      cases hsome
    rw [entryAt_sidecar.mpr h, hgone] at hchange
    exact hchange
  · exact tally_congr (fun c => by rw [hget, if_neg fun hh => hd hh.1]) f

end Perchstation
