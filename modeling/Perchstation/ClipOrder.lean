import Perchstation.Lib.BasicIsoOrder
import Perchstation.Queue.Order
import Perchstation.TimeBounds

/-!
# Clip order — the order of enqueue, of the file names and of eviction

The counter is padded to three digits, so within one second the ids of the enqueues 999 and 1000 are
in the wrong order, and so at every later power of ten.  Those are the only places: a process whose
captures come in order keeps all three orders the same exactly if a second ends at each of them.
-/

namespace Perchstation

open BasicIso QueueStore Sorting

/-- The capture times and the ids of the clips a process enqueues, from what its counter shows. -/
def enqueuedClips (seq : UInt32) : List DateTime → List (DateTime × ClipId)
  | [] => []
  | capturedAt :: rest =>
    (capturedAt, nextClipId capturedAt seq) :: enqueuedClips (seq + 1) rest

/-- The ids are increasing, and so on any subset of the clips the scan of `pending/` and the
eviction order go through them in the order of enqueue. -/
structure OrderKept (clips : List (DateTime × ClipId)) : Prop where
  ids : (clips.map Prod.snd).Pairwise (· < ·)
  scan : ∀ l : List (DateTime × ClipId), l.Sublist clips → ∀ paths : List Path,
    paths.Perm (l.map fun clip => .sidecar .pending clip.2) →
      sortPaths paths = l.map fun clip => .sidecar .pending clip.2
  eviction : ∀ l : List (DateTime × ClipId), l.Sublist clips → ∀ es es' : List EvictableEntry,
    (es.map fun e => (e.entry.capturedAt, e.entry.clipId)) = l → es'.Perm es → sortByKey es' = es

/-- The first instant of year 0. -/
def startOfYear0 : ℤ := -62167219200 * nanosPerSec

theorem inFourDigitYear {t : DateTime} (h : startOfYear0 ≤ t.1 ∧ t.1 ≤ endOfYear9999) :
    InFourDigitYear t.timestamp := by
  have hstart : yearStart 10000 = 3652425 := by decide
  unfold InFourDigitYear FourDigitYear DateTime.timestamp epochDay
  unfold startOfYear0 endOfYear9999 nanosPerSec at h
  unfold nanosPerSec
  omega

/-! ## The ids -/

theorem getElem?_enqueuedClips (seq : UInt32) (captures : List DateTime) (i : ℕ) :
    (enqueuedClips seq captures)[i]? =
      captures[i]?.map fun t => (t, nextClipId t (seq + UInt32.ofNat i)) := by
  induction captures generalizing seq i with
  | nil => simp [enqueuedClips]
  | cons t rest ih =>
    cases i with
    | zero => simp [enqueuedClips]
    | succ i =>
      unfold enqueuedClips
      rw [List.getElem?_cons_succ, List.getElem?_cons_succ, ih]
      have hseq : seq + 1 + UInt32.ofNat i = seq + UInt32.ofNat (i + 1) := by
        rw [UInt32.ofNat_add, UInt32.add_assoc, UInt32.add_comm 1]
        rfl
      rw [hseq]

/-- The `i`-th clip of a process, from its start on. -/
theorem getElem?_clips {captures : List DateTime} {i : ℕ} {clip : DateTime × ClipId} :
    (enqueuedClips 0 captures)[i]? = some clip ↔
      captures[i]? = some clip.1 ∧ clip.2 = nextClipId clip.1 (UInt32.ofNat i) := by
  rw [getElem?_enqueuedClips, UInt32.zero_add, Option.map_eq_some_iff]
  constructor
  · rintro ⟨t, ht, rfl⟩
    exact ⟨ht, rfl⟩
  · rintro ⟨ht, hid⟩
    exact ⟨clip.1, ht, by rw [← hid]⟩

/-- What follows the ids does not matter to their order either. -/
theorem nextClipId_append_lt {t t' : DateTime} {i j : ℕ} (hj : j < 2 ^ 32)
    (ht : InFourDigitYear t.timestamp) (ht' : InFourDigitYear t'.timestamp)
    (hle : t.timestamp ≤ t'.timestamp) (hij : i < j)
    (hpow : t.timestamp = t'.timestamp → ∀ k, 3 ≤ k → 10 ^ k ≤ j → 10 ^ k ≤ i)
    (suffix : String) :
    nextClipId t (UInt32.ofNat i) ++ suffix < nextClipId t' (UInt32.ofNat j) ++ suffix := by
  have htoNat : ∀ n, n < 2 ^ 32 → (UInt32.ofNat n).toNat = n :=
    fun n hn => UInt32.toNat_ofNat_of_lt' hn
  rw [String.lt_iff_toList_lt, String.toList_append, String.toList_append]
  unfold nextClipId
  rw [String.toList_ofList, String.toList_ofList, htoNat i (by omega), htoNat j hj,
    List.append_assoc, List.append_assoc]
  rcases hle.lt_or_eq with hlt | heq
  · exact basicIso_append_lt ht ht' hlt _ _
  · rw [heq]
    refine List.append_left_lt (List.cons_lt_cons_self.mpr ?_)
    exact append_lt_append _ _ (length_padded_eq_of_no_power (by decide) hij (hpow heq))
      (padded_lt_padded (by decide) hij (hpow heq))

/-- At a power of ten within one second the later id comes first. -/
theorem nextClipId_boundary {t t' : DateTime} {k : ℕ} (hk : 3 ≤ k) (hlt : 10 ^ k < 2 ^ 32)
    (heq : t.timestamp = t'.timestamp) :
    nextClipId t' (UInt32.ofNat (10 ^ k)) < nextClipId t (UInt32.ofNat (10 ^ k - 1)) := by
  have htoNat : ∀ n, n < 2 ^ 32 → (UInt32.ofNat n).toNat = n :=
    fun n hn => UInt32.toNat_ofNat_of_lt' hn
  unfold nextClipId
  rw [String.lt_iff_toList_lt, String.toList_ofList, String.toList_ofList, htoNat _ hlt,
    htoNat _ (by omega), heq]
  exact List.append_left_lt (List.cons_lt_cons_self.mpr (padded_boundary (by decide) hk))

/-! ## The three orders -/

/-- The clip comes first by capture time and by id, whatever follows the id. -/
def ComesFirst (clip clip' : DateTime × ClipId) : Prop :=
  clip.1 ≤ clip'.1 ∧ ∀ suffix : String, clip.2 ++ suffix < clip'.2 ++ suffix

theorem ComesFirst.id_lt {clip clip' : DateTime × ClipId} (h : ComesFirst clip clip') :
    clip.2 < clip'.2 := by
  have hid := h.2 ""
  rwa [String.append_empty, String.append_empty] at hid

theorem orderKept_of_comesFirst {clips : List (DateTime × ClipId)}
    (h : clips.Pairwise ComesFirst) : OrderKept clips := by
  refine ⟨List.pairwise_map.mpr (h.imp ComesFirst.id_lt), ?_, ?_⟩
  · intro l hl paths hperm
    refine sortPaths_eq_of_perm (List.pairwise_map.mpr ?_) hperm
    exact (h.sublist hl).imp fun hfirst => hfirst.2 ".json"
  · intro l hl es es' hkeys hperm
    refine sortByKey_eq_of_perm ?_ hperm
    have hes := h.sublist hl
    rw [← hkeys, List.pairwise_map] at hes
    refine hes.imp fun hfirst => Prod.Lex.toLex_lt_toLex.mpr ?_
    rcases hfirst.1.lt_or_eq with hlt | heq
    · exact Or.inl hlt
    · exact Or.inr ⟨heq, hfirst.id_lt⟩

section Process

variable {captures : List DateTime}

/-- No second goes on from one less than a power of ten to the power. -/
def SecondsEnd (captures : List DateTime) : Prop :=
  ∀ k t t', 3 ≤ k → captures[10 ^ k - 1]? = some t → captures[10 ^ k]? = some t' →
    t.timestamp ≠ t'.timestamp

theorem le_of_getElem? (hsorted : captures.Pairwise (· ≤ ·)) {i j : ℕ} {t t' : DateTime}
    (hij : i ≤ j) (hi : captures[i]? = some t) (hj : captures[j]? = some t') : t ≤ t' := by
  obtain ⟨hi', rfl⟩ := List.getElem?_eq_some_iff.mp hi
  obtain ⟨hj', rfl⟩ := List.getElem?_eq_some_iff.mp hj
  rcases hij.lt_or_eq with hlt | rfl
  · exact List.pairwise_iff_getElem.mp hsorted i j hi' hj' hlt
  · exact le_rfl

theorem timestamp_mono {t t' : DateTime} (h : t ≤ t') : t.timestamp ≤ t'.timestamp :=
  Int.ediv_le_ediv (by decide) h

/-- Between two clips of one second there is no power of ten. -/
theorem no_power_of_secondsEnd (hsorted : captures.Pairwise (· ≤ ·)) (hend : SecondsEnd captures)
    {i j : ℕ} {t t' : DateTime} (hi : captures[i]? = some t) (hj : captures[j]? = some t')
    (heq : t.timestamp = t'.timestamp) {k : ℕ} (hk : 3 ≤ k) (hle : 10 ^ k ≤ j) : 10 ^ k ≤ i := by
  by_contra hlt
  obtain ⟨hj', -⟩ := List.getElem?_eq_some_iff.mp hj
  have hbefore := List.getElem?_eq_getElem (show 10 ^ k - 1 < captures.length by omega)
  have hafter := List.getElem?_eq_getElem (show 10 ^ k < captures.length by omega)
  have h1 := timestamp_mono (le_of_getElem? hsorted (by omega) hi hbefore)
  have h2 := timestamp_mono (le_of_getElem? hsorted (by omega) hbefore hafter)
  have h3 := timestamp_mono (le_of_getElem? hsorted hle hafter hj)
  exact hend k _ _ hk hbefore hafter (by omega)

/-- In order at all, the ids have a second end at every power of ten. -/
theorem secondsEnd_of_ids (hlen : captures.length ≤ 2 ^ 32)
    (hids : ((enqueuedClips 0 captures).map Prod.snd).Pairwise (· < ·)) : SecondsEnd captures := by
  intro k t t' hk ht ht' heq
  obtain ⟨hlt, -⟩ := List.getElem?_eq_some_iff.mp ht'
  have hclip : (enqueuedClips 0 captures)[10 ^ k - 1]? =
      some (t, nextClipId t (UInt32.ofNat (10 ^ k - 1))) := getElem?_clips.mpr ⟨ht, rfl⟩
  have hclip' : (enqueuedClips 0 captures)[10 ^ k]? =
      some (t', nextClipId t' (UInt32.ofNat (10 ^ k))) := getElem?_clips.mpr ⟨ht', rfl⟩
  obtain ⟨h1, hget⟩ := List.getElem?_eq_some_iff.mp hclip
  obtain ⟨h2, hget'⟩ := List.getElem?_eq_some_iff.mp hclip'
  have hpos : 0 < 10 ^ k := Nat.pow_pos (by decide)
  have hid := List.pairwise_iff_getElem.mp (List.pairwise_map.mp hids) _ _ h1 h2 (by omega)
  rw [hget, hget'] at hid
  exact lt_asymm hid (nextClipId_boundary hk (by omega) heq)

/-- For every process whose captures come in order, within the years 0 to 9999 and the counter: the
ids are increasing and all three orders are the order of enqueue exactly if a second ends at every
power of ten from a thousand on. -/
theorem orderKept_iff (hlen : captures.length ≤ 2 ^ 32) (hsorted : captures.Pairwise (· ≤ ·))
    (hyears : ∀ t ∈ captures, startOfYear0 ≤ t.1 ∧ t.1 ≤ endOfYear9999) :
    OrderKept (enqueuedClips 0 captures) ↔ SecondsEnd captures := by
  constructor
  · intro hkept
    exact secondsEnd_of_ids hlen hkept.ids
  · intro hend
    refine orderKept_of_comesFirst (List.pairwise_iff_getElem.mpr fun i j hi hj hij => ?_)
    obtain ⟨ht, hid⟩ := getElem?_clips.mp (List.getElem?_eq_getElem hi)
    obtain ⟨ht', hid'⟩ := getElem?_clips.mp (List.getElem?_eq_getElem hj)
    have hle := le_of_getElem? hsorted hij.le ht ht'
    obtain ⟨hj', -⟩ := List.getElem?_eq_some_iff.mp ht'
    refine ⟨hle, fun suffix => ?_⟩
    rw [hid, hid']
    exact nextClipId_append_lt (by omega) (inFourDigitYear (hyears _ (List.mem_of_getElem? ht)))
      (inFourDigitYear (hyears _ (List.mem_of_getElem? ht'))) (timestamp_mono hle) hij
      (fun heq k hk hpow => no_power_of_secondsEnd hsorted hend ht ht' heq hk hpow) suffix

end Process

/-- Two captures in one second. -/
theorem orderKept_pair :
    OrderKept (enqueuedClips 0 [.ofSecs 0 (by decide), .ofSecs 0 (by decide)]) :=
  (orderKept_iff (by decide) (List.pairwise_pair.mpr le_rfl)
    (fun t ht => by
      obtain rfl : t = .ofSecs 0 (by decide) := by simpa using ht
      decide)).mpr fun k t t' hk ht ht' => by
    have hpow : 10 ^ 3 ≤ 10 ^ k := Nat.pow_le_pow_right (by decide) hk
    obtain ⟨hlt, -⟩ := List.getElem?_eq_some_iff.mp ht'
    simp only [List.length_cons, List.length_nil] at hlt
    omega

/-- A thousand and one captures in one second: the last id comes before the one of the thousandth. -/
theorem not_orderKept_thousand :
    ∃ captures : List DateTime, captures.length ≤ 2 ^ 32 ∧ captures.Pairwise (· ≤ ·) ∧
      (∀ t ∈ captures, startOfYear0 ≤ t.1 ∧ t.1 ≤ endOfYear9999) ∧
      ¬ OrderKept (enqueuedClips 0 captures) := by
  have hlen : (List.replicate 1001 (DateTime.ofSecs 0 (by decide))).length = 1001 :=
    List.length_replicate
  refine ⟨List.replicate 1001 (.ofSecs 0 (by decide)), by omega,
    List.pairwise_replicate.mpr (Or.inr le_rfl), ?_, ?_⟩
  · intro t ht
    rw [List.eq_of_mem_replicate ht]
    decide
  · intro hkept
    refine secondsEnd_of_ids (by omega) hkept.ids 3 (.ofSecs 0 (by decide))
      (.ofSecs 0 (by decide)) le_rfl ?_ ?_ rfl
    · exact List.getElem?_replicate_of_lt (by decide)
    · exact List.getElem?_replicate_of_lt (by decide)

end Perchstation
