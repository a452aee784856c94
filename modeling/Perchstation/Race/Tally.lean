import Mathlib.Algebra.BigOperators.Group.Finset.Basic
import Mathlib.Algebra.Order.BigOperators.Group.Finset
import Perchstation.Race.Runner

/-!
# Tally — the clips of a queue and their bytes

What the ceilings of the queue are about: the number of distinct clips with a file in one of the
three directories, and the bytes of all media files.  Neither a runner nor a sweep adds to them.
-/

namespace Perchstation

/-- Media or sidecar in one of the three directories. -/
def Path.isClipFile : Path → Bool
  | .queue d _ x => d ≠ .corrupt ∧ (x = .mp4 ∨ x = .json)
  | _ => false

/-- Media in one of the three directories. -/
def Path.isMedia : Path → Bool
  | .queue d _ x => d ≠ .corrupt ∧ x = .mp4
  | _ => false

/-- The bytes of a media file. -/
def Blob.size : Option Blob → ℕ
  | some (.bytes data) => data.length
  | _ => 0

/-- The distinct clips of the queue. -/
def clipsOf (fs : Fs) : Finset ClipId := (fs.names.filter fun p => p.isClipFile).image Path.fileStem

/-- The clips that have media. -/
def mediaClips (fs : Fs) : Finset ClipId := (fs.names.filter fun p => p.isMedia).image Path.fileStem

/-- The media bytes on disk. -/
def mediaBytes (fs : Fs) : ℕ := ∑ p ∈ fs.names.filter fun p => p.isMedia, Blob.size (fs.get p)

variable {fs t : Fs} {c : ClipId} {n : ClipId → UInt64} {new : ClipId → Prop}

theorem mem_clipsOf : c ∈ clipsOf fs ↔ (filesOf fs c).Stored := by
  simp only [clipsOf, Finset.mem_image, Finset.mem_filter, FileMap.mem_names]
  constructor
  · rintro ⟨p, ⟨hp, hc⟩, rfl⟩
    cases p with
    | source name => simp [Path.isClipFile] at hc
    | directory dir => simp [Path.isClipFile] at hc
    | queue d s x =>
      cases d <;> cases x <;> simp_all [Path.isClipFile, ClipFiles.Stored, filesOf, Path.fileStem]
  · rintro (h | h | h | h | h | h)
    · exact ⟨.media .pending c, ⟨h, rfl⟩, rfl⟩
    · exact ⟨.sidecar .pending c, ⟨h, rfl⟩, rfl⟩
    · exact ⟨.media .inflight c, ⟨h, rfl⟩, rfl⟩
    · exact ⟨.sidecar .inflight c, ⟨h, rfl⟩, rfl⟩
    · exact ⟨.media .delivered c, ⟨h, rfl⟩, rfl⟩
    · exact ⟨.sidecar .delivered c, ⟨h, rfl⟩, rfl⟩

theorem isMedia_iff {p : Path} : p.isMedia = true ↔
    ∃ c, p = .media .pending c ∨ p = .media .inflight c ∨ p = .media .delivered c := by
  cases p with
  | source name => simp [Path.isMedia]
  | directory dir => simp [Path.isMedia]
  | queue d s x => cases d <;> cases x <;> simp [Path.isMedia]

theorem LegalQueue.mem_mediaClips (h : LegalQueue n new fs) :
    c ∈ mediaClips fs ↔ (filesOf fs c).HasMedia := by
  simp only [mediaClips, Finset.mem_image, Finset.mem_filter, FileMap.mem_names]
  constructor
  · rintro ⟨p, ⟨hp, hm⟩, rfl⟩
    obtain ⟨c, rfl | rfl | rfl⟩ := isMedia_iff.mp hm
    · exact Or.inl hp
    · exact Or.inr hp
    · exact (hp (h c).noDelivered).elim
  · rintro (hm | hm)
    · exact ⟨.media .pending c, ⟨hm, rfl⟩, rfl⟩
    · exact ⟨.media .inflight c, ⟨hm, rfl⟩, rfl⟩

/-- The media of a legal clip is `n c` bytes long, in whatever directory it is. -/
theorem LegalQueue.mediaBytes_eq (h : LegalQueue n new fs) :
    mediaBytes fs = ∑ c ∈ mediaClips fs, (n c).toNat := by
  have hmedia : ∀ p ∈ fs.names.filter fun p => p.isMedia, ∃ c,
      (p = .media .pending c ∨ p = .media .inflight c) ∧ fs.get p ≠ none := by
    intro p hp
    obtain ⟨hp, hm⟩ := Finset.mem_filter.mp hp
    have hget := FileMap.mem_names.mp hp
    obtain ⟨c, rfl | rfl | rfl⟩ := isMedia_iff.mp hm
    · exact ⟨c, Or.inl rfl, hget⟩
    · exact ⟨c, Or.inr rfl, hget⟩
    · exact (hget (h c).noDelivered).elim
  unfold mediaBytes mediaClips
  rw [Finset.sum_image]
  · refine Finset.sum_congr rfl fun p hp => ?_
    obtain ⟨c, hc, hget⟩ := hmedia p hp
    obtain ⟨b, hb⟩ := Option.ne_none_iff_exists'.mp hget
    have hfootage : ClipFiles.Footage (n c) b := by
      rcases hc with rfl | rfl
      · exact (h c).pendingFootage b hb
      · exact (h c).inflightFootage b hb
    obtain ⟨data, rfl, hlen⟩ := hfootage
    rw [hb]
    rcases hc with rfl | rfl <;> exact hlen
  · intro p hp q hq hstem
    obtain ⟨c, hc, hget⟩ := hmedia p hp
    obtain ⟨c', hc', hget'⟩ := hmedia q hq
    have hsame : c = c' := by rcases hc with rfl | rfl <;> rcases hc' with rfl | rfl <;> exact hstem
    subst hsame
    rcases hc with rfl | rfl <;> rcases hc' with rfl | rfl
    · rfl
    · exact ((h c).oneMedia.elim hget hget').elim
    · exact ((h c).oneMedia.elim hget' hget).elim
    · rfl

/-! ## Nothing is added -/

theorem clipsOf_del_subset (fs : Fs) (p : Path) : clipsOf (fs.del p) ⊆ clipsOf fs :=
  Finset.image_subset_image (Finset.filter_subset_filter _ (fs.names_del_subset p))

theorem mediaClips_del_subset (fs : Fs) (p : Path) : mediaClips (fs.del p) ⊆ mediaClips fs :=
  Finset.image_subset_image (Finset.filter_subset_filter _ (fs.names_del_subset p))

theorem RunnerStep.clipsOf_subset (h : RunnerStep n fs t) : clipsOf t ⊆ clipsOf fs := by
  intro c hc
  rw [mem_clipsOf] at hc ⊢
  rcases h.files c with heq | hm
  · exact heq ▸ hc
  · exact hm.stored hc

theorem RunnerStep.mediaClips_subset (h : RunnerStep n fs t) (hl : LegalQueue n new fs) :
    mediaClips t ⊆ mediaClips fs := by
  intro c hc
  rw [(hl.runnerStep h).mem_mediaClips] at hc
  rw [hl.mem_mediaClips]
  rcases h.files c with heq | hm
  · exact heq ▸ hc
  · exact hm.hasMedia hc

end Perchstation
