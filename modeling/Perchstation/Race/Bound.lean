import Perchstation.Delivery.Requests
import Perchstation.Race.Reports

/-!
# The queue bound — a submission beside the runner

A submission sweeps the queue and then enqueues its clip.  If the census sees every clip that is
handed off and the victims of the sweep have not moved, what the sweep leaves has room for one more
clip, the runner adds nothing, and the clip takes the room (`Bounded`).  A hand-off inside the census
can go unseen: it arrives in `inflight/` behind the scan that has passed it and leaves `pending/`
before the scan that would find it.
-/

namespace Perchstation

open Interleaving Resumption QueueStore

/-- A rename out of another file system fails. -/
def CrossDevice : Env Req Rep Fs
  | fs, .rename (.source _) _, v, t => (∃ err, v = .error err) ∧ t = fs
  | _, _, _, _ => False

/-- The answers a submission can get. -/
def SubmitEnv : Env Req Rep Fs := fun fs r v t => SweepEnv fs r v t ∨ CrossDevice fs r v t

/-- Requests that neither a sweep makes nor another file system refuses. -/
def Req.isSure : Req → Bool
  | .metadata _ | .copy _ _ | .write _ _ | .now | .rename (.queue _ _ _) _ => true
  | _ => false

theorem submitEnv_sure {fs t : Fs} {r : Req} {v : Rep r} (hr : r.isSure = true)
    (hv : SubmitEnv fs r v t) : Nominal fs r v t := by
  rcases hv with (hv | hv) | hv
  · exact hv
  · cases r with
    | read p => cases hr
    | readDir d => cases hr
    | removeFile p => cases hr
    | _ => exact hv.elim
  · cases r with
    | rename src dst =>
      cases src with
      | source name => cases hr
      | _ => exact hv.elim
    | _ => exact hv.elim

/-- A file is submitted as the clip `clipId` to the queue `start`. -/
structure Submission where
  start : Fs
  policy : QueuePolicy
  clipId : ClipId
  name : String

namespace Submission

/-- The bytes of the file. -/
def size (S : Submission) : UInt64 := UInt64.ofNat (Blob.size (S.start.get (.source S.name)))

/-- The bytes recorded for each clip, the submitted one included. -/
def sizes (S : Submission) : ClipId → UInt64 :=
  Function.update (fun c => (filesOf S.start c).recorded) S.clipId S.size

abbrev IsNew (S : Submission) (c : ClipId) : Prop := c = S.clipId

/-- What the submission does, if the victims of its sweep have not moved, among the steps of the
runner, which hands off clips of `seen`. -/
abbrev Meets (S : Submission) (seen : ClipId → Prop) {α : Type} (post : α → Fs → Prop) (p : Act α)
    (fs : Fs) : Prop :=
  Upholds (fun s r v t => SubmitEnv s r v t ∧ VictimStays s r v) (LegalQueue S.sizes S.IsNew)
    (SeenStep S.sizes seen) (CaptureStep S.sizes S.IsNew) post p fs

/-- The file is untouched, and the queue has only lost clips. -/
structure Kept (S : Submission) (fs : Fs) : Prop where
  source : fs.get (.source S.name) = S.start.get (.source S.name)
  clips : clipsOf fs ⊆ clipsOf S.start
  media : mediaClips fs ⊆ mediaClips S.start

/-- After the sweep that evicted `names`. -/
structure Swept (S : Submission) (names : List ClipId) (fs : Fs) : Prop where
  room : Room S.sizes S.IsNew S.policy S.size names fs
  buried : ∀ c ∈ names, (filesOf fs c).Buried
  kept : S.Kept fs

/-- From the placing of the media on: without the new clip and those evicted, the queue is at most
`clips` clips of `bytes` bytes, which leave room for one more. -/
structure Bounded (S : Submission) (names : List ClipId) (fs : Fs) : Prop where
  fits : ∃ clips bytes, breaches S.policy S.size clips bytes = false ∧
    (clipsOf fs \ insert S.clipId names.toFinset).card ≤ clips.toNat ∧
    ∑ c ∈ mediaClips fs \ insert S.clipId names.toFinset, (S.sizes c).toNat ≤ bytes.toNat
  buried : ∀ c ∈ names, c ≠ S.clipId → (filesOf fs c).Buried
  clips : clipsOf fs ⊆ insert S.clipId (clipsOf S.start)
  media : mediaClips fs ⊆ insert S.clipId (mediaClips S.start)

/-- The media is in `pending/`, the sidecar is not. -/
structure Placed (S : Submission) (names : List ClipId) (fs : Fs) : Prop where
  bounded : S.Bounded names fs
  unlisted : (filesOf fs S.clipId).Unlisted
  placed : (filesOf fs S.clipId).pendingMp4 ≠ none

section Steps

variable {S : Submission} {seen : ClipId → Prop} {names : List ClipId} {fs t u : Fs}

theorem size_le (S : Submission) : S.size.toNat ≤ Blob.size (S.start.get (.source S.name)) := by
  unfold size
  rw [UInt64.toNat_ofNat']
  exact Nat.mod_le _ _

theorem sizes_clipId : S.sizes S.clipId = S.size := Function.update_self _ _ _

/-! ## The runner meanwhile -/

theorem Kept.runnerStep (h : S.Kept fs) (hl : LegalQueue S.sizes S.IsNew fs)
    (hs : RunnerStep S.sizes fs t) : S.Kept t where
  source := (hs.source S.name).trans h.source
  clips := hs.clipsOf_subset.trans h.clips
  media := (hs.mediaClips_subset hl).trans h.media

theorem Swept.runnerStep (h : S.Swept names fs) (hl : LegalQueue S.sizes S.IsNew fs)
    (hs : RunnerStep S.sizes fs t) : S.Swept names t where
  room := h.room.runnerStep hl hs
  buried c hc := hs.buried (h.buried c hc)
  kept := h.kept.runnerStep hl hs

/-- A step that adds nothing but files of the new clip. -/
theorem Bounded.shrink (h : S.Bounded names fs)
    (hclips : ∀ c, c ≠ S.clipId → c ∈ clipsOf t → c ∈ clipsOf fs)
    (hmedia : ∀ c, c ≠ S.clipId → c ∈ mediaClips t → c ∈ mediaClips fs)
    (hburied : ∀ c, c ≠ S.clipId → (filesOf fs c).Buried → (filesOf t c).Buried) :
    S.Bounded names t := by
  have hsdiff : ∀ {A B : Finset ClipId}, (∀ c, c ≠ S.clipId → c ∈ A → c ∈ B) →
      A \ insert S.clipId names.toFinset ⊆ B \ insert S.clipId names.toFinset := by
    intro A B hAB c hc
    obtain ⟨hin, hout⟩ := Finset.mem_sdiff.mp hc
    have hne : c ≠ S.clipId := fun heq => hout (heq ▸ Finset.mem_insert_self _ _)
    exact Finset.mem_sdiff.mpr ⟨hAB c hne hin, hout⟩
  have hinsert : ∀ {A B C : Finset ClipId}, (∀ c, c ≠ S.clipId → c ∈ A → c ∈ B) →
      B ⊆ insert S.clipId C → A ⊆ insert S.clipId C := by
    intro A B C hAB hBC c hc
    by_cases hne : c = S.clipId
    · exact hne ▸ Finset.mem_insert_self _ _
    · exact hBC (hAB c hne hc)
  obtain ⟨clips, bytes, hb, hcount, hsum⟩ := h.fits
  refine ⟨⟨clips, bytes, hb, ?_, ?_⟩, ?_, hinsert hclips h.clips, hinsert hmedia h.media⟩
  · exact (Finset.card_le_card (hsdiff hclips)).trans hcount
  · exact (Finset.sum_le_sum_of_subset (hsdiff hmedia)).trans hsum
  · exact fun c hc hne => hburied c hne (h.buried c hc hne)

theorem Bounded.runnerStep (h : S.Bounded names fs) (hl : LegalQueue S.sizes S.IsNew fs)
    (hs : RunnerStep S.sizes fs t) : S.Bounded names t :=
  h.shrink (fun _ _ hc => hs.clipsOf_subset hc) (fun _ _ hc => hs.mediaClips_subset hl hc)
    fun _ _ hb => hs.buried hb

/-- A step of the submission touches files of its clip. -/
theorem Bounded.touch (h : S.Bounded names fs) (hl : LegalQueue S.sizes S.IsNew fs)
    (hl' : LegalQueue S.sizes S.IsNew t)
    (hsame : ∀ c, c ≠ S.clipId → filesOf t c = filesOf fs c) : S.Bounded names t := by
  refine h.shrink (fun c hne hc => ?_) (fun c hne hc => ?_) fun c hne hb => ?_
  · rw [mem_clipsOf, hsame c hne] at hc
    exact mem_clipsOf.mpr hc
  · rw [hl'.mem_mediaClips, hsame c hne] at hc
    exact hl.mem_mediaClips.mpr hc
  · rw [hsame c hne]
    exact hb

theorem Placed.runnerStep (h : S.Placed names fs) (hl : LegalQueue S.sizes S.IsNew fs)
    (hs : RunnerStep S.sizes fs t) : S.Placed names t := by
  have hfiles : filesOf t S.clipId = filesOf fs S.clipId := by
    rcases hs.files S.clipId with heq | hm
    · exact heq
    · exact hm.unlisted h.unlisted
  exact ⟨h.bounded.runnerStep hl hs, hfiles ▸ h.unlisted, hfiles ▸ h.placed⟩

/-- With the room of the sweep, the queue is bounded. -/
theorem Swept.bounded (h : S.Swept names fs) : S.Bounded names fs := by
  obtain ⟨clips, bytes, hb, hcount, hsum⟩ := h.room.fits
  have hsub : ∀ A : Finset ClipId,
      A \ insert S.clipId names.toFinset ⊆ A \ names.toFinset :=
    fun A => Finset.sdiff_subset_sdiff subset_rfl (Finset.subset_insert _ _)
  refine ⟨⟨clips, bytes, hb, ?_, ?_⟩, fun c hc _ => h.buried c hc,
    h.kept.clips.trans (Finset.subset_insert _ _), h.kept.media.trans (Finset.subset_insert _ _)⟩
  · exact (Finset.card_le_card (hsub _)).trans hcount
  · exact (Finset.sum_le_sum_of_subset (hsub _)).trans hsum

theorem Swept.unlisted (h : S.Swept names fs) : (filesOf fs S.clipId).Unlisted := by
  have hfresh := h.room.fresh S.clipId rfl
  unfold ClipFiles.Stored at hfresh
  push Not at hfresh
  obtain ⟨-, h1, h2, h3, -, h4⟩ := hfresh
  exact ⟨h1, h2, h3, h4⟩

/-! ## Its own requests -/

/-- One request of the submission. -/
theorem request {α : Type} {post : α → Fs → Prop} {A : Fs → Prop} {r : Req} {f : Rep r → Act α}
    (hA : A fs)
    (hstable : ∀ s t, A s → LegalQueue S.sizes S.IsNew s → RunnerStep S.sizes s t → A t)
    (hstep : ∀ t v u, A t → LegalQueue S.sizes S.IsNew t → SubmitEnv t r v u →
      CaptureStep S.sizes S.IsNew t u ∧ S.Meets seen post (f v) u) :
    S.Meets seen post (Prog.request r >>= f) fs :=
  upholds_request hA (fun s t hrely hs _ ha => hstable s t ha hs hrely.runner)
    fun t v u ha hl hv => hstep t v u ha hl hv.1

theorem filesOf_del_source {name : String} {c : ClipId} :
    filesOf (fs.del (.source name)) c = filesOf fs c := by
  simp [filesOf, FileMap.get_del]

theorem filesOf_scratch {c c' : ClipId} {x : Ext} {b : Blob} (hx : x = .jsonTmp ∨ x = .mp4Tmp) :
    filesOf (fs.put (.queue .pending c x) b) c' = filesOf fs c' := by
  rcases hx with rfl | rfl <;> simp [filesOf, FileMap.get_put]

/-- A request that leaves the files of every clip alone. -/
theorem captureStep_same (hfiles : ∀ c, filesOf t c = filesOf fs c)
    (hscratch : ∀ d c, t.get (.queue d c .jsonTmp) = fs.get (.queue d c .jsonTmp) ∨
      (filesOf fs c).Unlisted) : CaptureStep S.sizes S.IsNew fs t :=
  ⟨fun c => by rw [hfiles c]; exact .same, hscratch⟩

/-- The media of the new clip arrives in `pending/`, from wherever. -/
theorem Bounded.place (h : S.Bounded names fs) (hl : LegalQueue S.sizes S.IsNew fs)
    (hu : (filesOf fs S.clipId).Unlisted) {b : Blob} (hb : ClipFiles.Footage S.size b)
    (hsame : ∀ c, c ≠ S.clipId → filesOf t c = filesOf fs c)
    (hown : filesOf t S.clipId = { filesOf fs S.clipId with pendingMp4 := some b })
    (hscratch : ∀ d c, t.get (.queue d c .jsonTmp) = fs.get (.queue d c .jsonTmp)) :
    CaptureStep S.sizes S.IsNew fs t ∧ S.Placed names t := by
  have hs : CaptureStep S.sizes S.IsNew fs t := by
    refine ⟨fun c => ?_, fun d c => Or.inl (hscratch d c)⟩
    by_cases hne : c = S.clipId
    · subst hne
      rw [hown]
      exact .submit rfl (.place hu (sizes_clipId.symm ▸ hb))
    · rw [hsame c hne]
      exact .same
  refine ⟨hs, h.touch hl (hl.captureStep hs) hsame, ?_, ?_⟩
  · rw [hown]
    exact ⟨hu.pendingSidecar, hu.inflightMp4, hu.inflightSidecar, hu.deliveredSidecar⟩
  · rw [hown]
    exact Option.some_ne_none b

/-- The file has been copied to a temporary file of `pending/`. -/
structure Copied (S : Submission) (names : List ClipId) (data : List UInt8) (fs : Fs) : Prop where
  bounded : S.Bounded names fs
  unlisted : (filesOf fs S.clipId).Unlisted
  scratch : fs.get (.queue .pending S.clipId .mp4Tmp) = some (.bytes data)

theorem Copied.runnerStep {data : List UInt8} (h : S.Copied names data fs)
    (hl : LegalQueue S.sizes S.IsNew fs) (hs : RunnerStep S.sizes fs t) : S.Copied names data t := by
  refine ⟨h.bounded.runnerStep hl hs, ?_, (hs.unlisted _ _ _ h.unlisted).trans h.scratch⟩
  rcases hs.files S.clipId with heq | hm
  · exact heq ▸ h.unlisted
  · exact (hm.unlisted h.unlisted).symm ▸ h.unlisted

/-- The removal of the file, whether it fails or not. -/
theorem meets_removeSource (h : S.Placed names fs) :
    S.Meets seen (fun r t => r = .ok () → S.Placed names t) (do
      let _ ← removeFile (.source S.name)
      return .ok () : Act (Except QueueError Unit)) fs := by
  refine request h (fun s t hs hl hst => hs.runnerStep hl hst) fun t v u ht hl hv => ?_
  have hkept : u = t ∨ u = t.del (.source S.name) := by
    rcases hv with hv | hv
    · rcases sweepEnv_removeFile hv with ⟨rfl, -⟩ | ⟨rfl, -⟩
      · exact Or.inr rfl
      · exact Or.inl rfl
    · exact hv.elim
  rcases hkept with rfl | rfl
  · exact ⟨.refl _, upholds_pure fun _ => ht⟩
  · have hfiles : ∀ c, filesOf (t.del (.source S.name)) c = filesOf t c :=
      fun c => filesOf_del_source
    have hstep : CaptureStep S.sizes S.IsNew t (t.del (.source S.name)) :=
      captureStep_same hfiles fun d c => Or.inl (by simp [FileMap.get_del])
    exact ⟨hstep, upholds_pure fun _ =>
      ⟨ht.bounded.touch hl (hl.captureStep hstep) fun c _ => hfiles c,
        (hfiles S.clipId).symm ▸ ht.unlisted, (hfiles S.clipId).symm ▸ ht.placed⟩⟩

/-- The copy takes the name of the media. -/
theorem meets_renameCopy {data : List UInt8} (hlen : data.length = S.size.toNat)
    (h : S.Copied names data fs) :
    S.Meets seen (fun r t => r = .ok () → S.Placed names t) (do
      match ← rename (.queue .pending S.clipId .mp4Tmp) (.media .pending S.clipId) with
      | .error source => return .error (.io (.media .pending S.clipId) source)
      | .ok () =>
        let _ ← removeFile (.source S.name)
        return .ok () : Act (Except QueueError Unit)) fs := by
  refine request h (fun s t hs hl hst => hs.runnerStep hl hst) fun t v u ht hl hv => ?_
  have hn : Nominal t _ v u := submitEnv_sure rfl hv
  simp only [Nominal, ht.scratch] at hn
  obtain ⟨rfl, rfl⟩ := hn
  have hdel : filesOf (t.del (.queue .pending S.clipId .mp4Tmp)) S.clipId =
      filesOf t S.clipId := filesOf_del_self
  obtain ⟨hstep, hplaced⟩ := ht.bounded.place hl ht.unlisted ⟨data, rfl, hlen⟩
    (t := (t.del (.queue .pending S.clipId .mp4Tmp)).put (.media .pending S.clipId)
      (.bytes data))
    (fun c hne => by rw [differIn_put.filesOf hne, differIn_del.filesOf hne])
    (by rw [filesOf_put_self, hdel]; rfl)
    (fun d c => by simp [FileMap.get_put, FileMap.get_del])
  exact ⟨hstep, meets_removeSource hplaced⟩

theorem meets_placeMedia (h : S.Swept names fs) {data : List UInt8}
    (hsource : S.start.get (.source S.name) = some (.bytes data))
    (hlen : data.length = S.size.toNat) :
    S.Meets seen (fun r t => r = .ok () → S.Placed names t)
      (placeMedia (.source S.name) (.media .pending S.clipId) (.queue .pending S.clipId .mp4Tmp))
      fs := by
  have hget : ∀ {t : Fs}, S.Swept names t → t.get (.source S.name) = some (.bytes data) :=
    fun ht => ht.kept.source.trans hsource
  refine request h (fun s t hs hl hst => hs.runnerStep hl hst) fun t v u ht hl hv => ?_
  rcases hv with (hv | hv) | ⟨⟨err, rfl⟩, rfl⟩
  · simp only [Nominal, hget ht] at hv
    obtain ⟨rfl, rfl⟩ := hv
    obtain ⟨hstep, hplaced⟩ := ht.bounded.place hl ht.unlisted ⟨data, rfl, hlen⟩
      (t := (t.del (.source S.name)).put (.media .pending S.clipId) (.bytes data))
      (fun c hne => by rw [differIn_put.filesOf hne, filesOf_del_source])
      (by rw [filesOf_put_self, filesOf_del_source]; rfl)
      (fun d c => by simp [FileMap.get_put, FileMap.get_del])
    exact ⟨hstep, upholds_pure fun _ => hplaced⟩
  · exact hv.elim
  · -- the file is on another file system
    refine ⟨.refl _, request ht (fun s t hs hl hst => hs.runnerStep hl hst) fun t v u ht hl hv => ?_⟩
    have hn : Nominal t _ v u := submitEnv_sure rfl hv
    simp only [Nominal, hget ht] at hn
    obtain ⟨rfl, rfl⟩ := hn
    have hfiles : ∀ c, filesOf (t.put (.queue .pending S.clipId .mp4Tmp) (.bytes data)) c =
        filesOf t c := fun c => filesOf_scratch (Or.inr rfl)
    have hstep : CaptureStep S.sizes S.IsNew t
        (t.put (.queue .pending S.clipId .mp4Tmp) (.bytes data)) :=
      captureStep_same hfiles fun d c => Or.inl (by simp [FileMap.get_put])
    have hcopied : S.Copied names data
        (t.put (.queue .pending S.clipId .mp4Tmp) (.bytes data)) :=
      ⟨ht.bounded.touch hl (hl.captureStep hstep) fun c _ => hfiles c,
        (hfiles S.clipId).symm ▸ ht.unlisted, by simp [FileMap.get_put]⟩
    exact ⟨hstep, meets_renameCopy hlen hcopied⟩

/-- A temporary sidecar is no file of the clip. -/
theorem Placed.writeScratch (h : S.Placed names fs) (hl : LegalQueue S.sizes S.IsNew fs) (b : Blob) :
    CaptureStep S.sizes S.IsNew fs (fs.put (.queue .pending S.clipId .jsonTmp) b) ∧
      S.Placed names (fs.put (.queue .pending S.clipId .jsonTmp) b) := by
  have hfiles : ∀ c, filesOf (fs.put (.queue .pending S.clipId .jsonTmp) b) c = filesOf fs c :=
    fun c => filesOf_scratch (Or.inl rfl)
  have hstep : CaptureStep S.sizes S.IsNew fs (fs.put (.queue .pending S.clipId .jsonTmp) b) := by
    refine captureStep_same hfiles fun d c => ?_
    by_cases hc : c = S.clipId
    · exact Or.inr (hc ▸ h.unlisted)
    · exact Or.inl (differIn_put.queue d c _ hc)
  exact ⟨hstep, h.bounded.touch hl (hl.captureStep hstep) fun c _ => hfiles c,
    (hfiles S.clipId).symm ▸ h.unlisted, (hfiles S.clipId).symm ▸ h.placed⟩

/-- The temporary sidecar takes its name: from now on the clip is in the queue. -/
theorem Placed.list (h : S.Placed names fs) (hl : LegalQueue S.sizes S.IsNew fs)
    {e : ClipQueueEntry} (hid : e.clipId = S.clipId) (hsize : e.byteSize = S.size)
    (hopen : e.isTerminal = false)
    (ht : t = (fs.del (.queue .pending S.clipId .jsonTmp)).put (.sidecar .pending S.clipId)
      (.sidecar e)) :
    CaptureStep S.sizes S.IsNew fs t ∧ S.Bounded names t := by
  subst ht
  have hd : DifferIn S.clipId fs ((fs.del (.queue .pending S.clipId .jsonTmp)).put
      (.sidecar .pending S.clipId) (.sidecar e)) := differIn_del.trans differIn_put
  have hown : filesOf ((fs.del (.queue .pending S.clipId .jsonTmp)).put
      (.sidecar .pending S.clipId) (.sidecar e)) S.clipId =
        { filesOf fs S.clipId with pendingSidecar := some (.sidecar e) } := by
    rw [filesOf_put_self, filesOf_del_self]
    rfl
  have hrecord : ClipFiles.RecordOf S.clipId (S.sizes S.clipId) (.sidecar e) :=
    ⟨e, rfl, hid, hsize.trans sizes_clipId.symm⟩
  have hstep : CaptureStep S.sizes S.IsNew fs ((fs.del (.queue .pending S.clipId .jsonTmp)).put
      (.sidecar .pending S.clipId) (.sidecar e)) := by
    refine ⟨fun c => ?_, fun d c => ?_⟩
    · by_cases hne : c = S.clipId
      · subst hne
        rw [hown]
        exact .submit rfl (.list h.unlisted h.placed hrecord ⟨e, rfl, hopen⟩)
      · rw [hd.filesOf hne]
        exact .same
    · by_cases hc : c = S.clipId
      · exact Or.inr (hc ▸ h.unlisted)
      · exact Or.inl (hd.queue d c _ hc)
  exact ⟨hstep, h.bounded.touch hl (hl.captureStep hstep) fun c hne => hd.filesOf hne⟩

theorem meets_writeSidecarAtomic (h : S.Placed names fs) {e : ClipQueueEntry}
    (hid : e.clipId = S.clipId) (hsize : e.byteSize = S.size) (hopen : e.isTerminal = false) :
    S.Meets seen (fun r t => r = .ok () ∧ S.Bounded names t)
      (writeSidecarAtomic (.sidecar .pending S.clipId) e) fs := by
  refine request h (fun s t hs hl hst => hs.runnerStep hl hst) fun t v u ht hl hv => ?_
  obtain ⟨rfl, rfl⟩ : v = .ok () ∧ u = t.put (.queue .pending S.clipId .jsonTmp) (.sidecar e) :=
    submitEnv_sure rfl hv
  obtain ⟨hstep, hplaced⟩ := ht.writeScratch hl (.sidecar e)
  refine ⟨hstep, request (A := fun s => S.Placed names s ∧
    s.get (.queue .pending S.clipId .jsonTmp) = some (.sidecar e))
    ⟨hplaced, by simp [FileMap.get_put]⟩ ?_ ?_⟩
  · rintro s t ⟨hs, htmp⟩ hl hst
    exact ⟨hs.runnerStep hl hst, (hst.unlisted _ _ _ hs.unlisted).trans htmp⟩
  · rintro s v u ⟨hs, htmp⟩ hl hv
    have hn : Nominal s (.rename (.queue .pending S.clipId .jsonTmp)
      (.sidecar .pending S.clipId)) v u := submitEnv_sure rfl hv
    simp only [Nominal, htmp] at hn
    obtain ⟨rfl, hu⟩ := hn
    obtain ⟨hstep, hbounded⟩ := hs.list hl hid hsize hopen hu
    exact ⟨hstep, upholds_pure ⟨rfl, hbounded⟩⟩

/-- The bytes the file system reports of the file. -/
theorem metadata_size (hmedia : ∀ b, S.start.get (.source S.name) = some b → ∃ data, b = .bytes data)
    (ht : t.get (.source S.name) = S.start.get (.source S.name)) {v : Except IoError UInt64}
    (hv : SubmitEnv t (.metadata (.source S.name)) v u) :
    u = t ∧ ((S.start.get (.source S.name) = none ∧ v = .error .notFound) ∨
      ∃ data, S.start.get (.source S.name) = some (.bytes data) ∧ data.length = S.size.toNat ∧
        v = .ok S.size) := by
  obtain ⟨rfl, hn⟩ := submitEnv_sure rfl hv
  refine ⟨rfl, ?_⟩
  rw [ht] at hn
  cases hb : S.start.get (.source S.name) with
  | none =>
    rw [hb] at hn
    exact Or.inl ⟨rfl, hn⟩
  | some b =>
    obtain ⟨data, rfl⟩ := hmedia b hb
    rw [hb] at hn
    obtain ⟨k, hlen, rfl⟩ := hn
    have hsize : S.size = k := by
      unfold size
      rw [hb]
      show UInt64.ofNat data.length = k
      rw [← (hlen : k.toNat = data.length), UInt64.ofNat_toNat]
    exact Or.inr ⟨data, rfl, hsize.symm ▸ hlen.symm, by rw [hsize]⟩

theorem meets_enqueueWithId
    (hmedia : ∀ b, S.start.get (.source S.name) = some b → ∃ data, b = .bytes data)
    {clipMeta : ClipMeta} (h : S.Swept names fs) :
    S.Meets seen (fun r t => ∀ entry, r = .ok entry → S.Bounded names t)
      (enqueueWithId S.clipId (.source S.name) clipMeta) fs := by
  refine request h (fun s t hs hl hst => hs.runnerStep hl hst) fun t v u ht hl hv => ?_
  obtain ⟨rfl, ⟨-, rfl⟩ | ⟨data, hsource, hlen, rfl⟩⟩ := metadata_size hmedia ht.kept.source hv
  · exact ⟨.refl _, upholds_pure fun entry hok => by cases hok⟩
  refine ⟨.refl _, (meets_placeMedia ht hsource hlen).bind fun r t hr => ?_⟩
  cases r with
  | error err => exact upholds_pure fun entry hok => by cases hok
  | ok =>
    refine request (hr rfl) (fun s t hs hl hst => hs.runnerStep hl hst) fun t v u ht hl hv => ?_
    obtain rfl : u = t := submitEnv_sure rfl hv
    refine ⟨.refl _, (meets_writeSidecarAtomic ht rfl rfl rfl).bind fun r t hr => ?_⟩
    obtain ⟨rfl, ht⟩ := hr
    exact upholds_pure fun _ _ => ht

theorem submitEnv_sweepsOnly {r : Req} {v : Rep r} (hr : SweepsOnly r) (hv : SubmitEnv fs r v t) :
    SweepEnv fs r v t := by
  rcases hv with hv | hv
  · exact hv
  · cases r with
    | rename src dst => exact hr.elim
    | _ => exact hv.elim

/-- The sweep does not touch the file. -/
theorem Kept.sweepsOnly (h : S.Kept fs) {r : Req} {v : Rep r} (hr : SweepsOnly r)
    (hv : SweepEnv fs r v t) : S.Kept t := by
  cases r with
  | readDir d =>
    obtain ⟨rfl, -⟩ := sweepEnv_readDir hv
    exact h
  | read p =>
    obtain ⟨rfl, -⟩ := sweepEnv_read hv
    exact h
  | abort => exact nomatch v
  | removeFile p =>
    cases p with
    | queue d c x =>
      rcases sweepEnv_removeFile hv with ⟨rfl, -⟩ | ⟨rfl, -⟩
      · exact ⟨(FileMap.get_del _ _ _).trans ((if_neg (by simp)).trans h.source),
          (clipsOf_del_subset _ _).trans h.clips, (mediaClips_del_subset _ _).trans h.media⟩
      · exact h
    | _ => exact hr.elim
  | _ => exact hr.elim

/-- The census of the submission, and the file untouched. -/
theorem meets_survey {had : Finset ClipId} (h : Sweepable S.sizes S.IsNew had True fs)
    (hkept : S.Kept fs) :
    S.Meets seen (fun r t => (∀ x, r = .ok x → Counted S.sizes S.IsNew seen had True x t) ∧ S.Kept t)
      survey fs := by
  have hlook : Within SweepsOnly survey := looksOnly_survey.mono fun r hr => by
    cases r <;> first | exact hr.elim | trivial
  have hcensus : S.Meets seen (fun r t => ∀ x, r = .ok x →
      Counted S.sizes S.IsNew seen had True x t) survey fs :=
    (census_survey h).of_env hlook fun s r v t hr hv =>
      ⟨submitEnv_sweepsOnly hr hv.1, hv.2⟩
  exact hcensus.frame (F := S.Kept) hlook hkept (fun s t hst hl hs => hs.runnerStep hl hst.runner)
    fun s r v t hr hv hs => hs.sweepsOnly hr (submitEnv_sweepsOnly hr hv.1)

/-- The sweep from its census on, if the clips of `seen` are among those found. -/
theorem meets_enforceOn {had : Finset ClipId} {profile : Profile} {r : Except QueueError Survey}
    (h : ∀ x, r = .ok x → Counted S.sizes S.IsNew seen had True x fs)
    (hseen : ∀ x, r = .ok x → ∀ c, seen c → S.IsNew c ∨ Among x.all c) (hkept : S.Kept fs) :
    S.Meets seen (fun o t => o.result = .ok () → S.Swept (evicted o.evictions) t)
      (enforceOn profile S.policy S.size r) fs := by
  have hwithin : Within SweepsOnly (enforceOn profile S.policy S.size r) :=
    (removesOnly_enforceOn profile S.policy S.size r).mono fun r hr => hr.sweepsOnly
  have hsweep : S.Meets seen (SweepEnds S.sizes S.IsNew True S.policy S.size)
      (enforceOn profile S.policy S.size r) fs :=
    (sweep_enforceOn h fun x hx _ => hseen x hx).of_env hwithin fun s r v t hr hv =>
      ⟨submitEnv_sweepsOnly hr hv.1, hv.2⟩
  have hframe := hsweep.frame (F := S.Kept) hwithin hkept
    (fun s t hst hl hs => hs.runnerStep hl hst.runner)
    fun s r v t hr hv hs => hs.sweepsOnly hr (submitEnv_sweepsOnly hr hv.1)
  exact hframe.mono fun o t ho hok => ⟨ho.1.room trivial hok, ho.1.buried, ho.2⟩

/-! ## The submission in two parts -/

/-- The bytes a submission is taken to bring. -/
def incoming : Except IoError UInt64 → UInt64
  | .ok n => n
  | .error _ => 0

/-- The first part of a submission: the size of the file, and the census. -/
def look (name : String) : Act (UInt64 × Except QueueError Survey) := do
  let len ← metadata (.source name)
  let r ← survey
  return (incoming len, r)

/-- The second part: the evictions and the new clip. -/
def act (profile : Profile) (policy : QueuePolicy) (clipId : ClipId) (name : String)
    (clipMeta : ClipMeta) (x : UInt64 × Except QueueError Survey) :
    Act (List EvictionRecord × Except InboxError ClipQueueEntry) := do
  let outcome ← enforceOn profile policy x.1 x.2
  match outcome.result with
  | .error err => return (outcome.evictions, .error err)
  | .ok () =>
    match ← enqueueWithId clipId (.source name) clipMeta with
    | .error err => return (outcome.evictions, .error (.queue err))
    | .ok entry => return (outcome.evictions, .ok entry)

theorem submit_eq (profile : Profile) (policy : QueuePolicy) (clipId : ClipId) (name : String)
    (clipMeta : ClipMeta) : submit profile policy clipId (.source name) clipMeta =
      look name >>= act profile policy clipId name clipMeta := by
  unfold submit look
  rw [bind_assoc]
  refine congrArg _ (funext fun len => ?_)
  dsimp only
  rw [applyPolicy_eq, bind_assoc, bind_assoc]
  cases len <;> rfl

/-- Requests other than the reading of a file. -/
def ReadsNone : Req → Prop
  | .read _ => False
  | _ => True

theorem readsNone_placeMedia (src dst tmp : Path) : Within ReadsNone (placeMedia src dst tmp) := by
  refine ⟨trivial, fun v => ?_⟩
  rcases v with err | _
  · refine ⟨trivial, fun v => ?_⟩
    rcases v with err | _
    · exact within_pure _
    · refine ⟨trivial, fun v => ?_⟩
      rcases v with err | _
      · exact within_pure _
      · exact ⟨trivial, fun _ => within_pure _⟩
  · exact within_pure _

theorem allowsRecords_readsNone : AllowsRecords ReadsNone :=
  ⟨fun _ _ => trivial, fun _ => trivial, fun _ _ _ => trivial⟩

theorem readsNone_enqueueWithId (c : ClipId) (p : Path) (clipMeta : ClipMeta) :
    Within ReadsNone (enqueueWithId c p clipMeta) := by
  refine ⟨trivial, fun v => ?_⟩
  rcases v with err | len
  · exact within_pure _
  · refine (readsNone_placeMedia _ _ _).bind fun r => ?_
    rcases r with err | _
    · exact within_pure _
    · refine ⟨trivial, fun at_ => ?_⟩
      refine allowsRecords_readsNone.within_writeSidecarAtomic.bind fun r => ?_
      rcases r with err | _
      · exact ⟨trivial, fun _ => within_pure _⟩
      · exact within_pure _

theorem readsNone_act (profile : Profile) (policy : QueuePolicy) (clipId : ClipId) (name : String)
    (clipMeta : ClipMeta) (x : UInt64 × Except QueueError Survey) :
    Within ReadsNone (act profile policy clipId name clipMeta x) := by
  have henforce : Within ReadsNone (enforceOn profile policy x.1 x.2) :=
    (removesOnly_enforceOn profile policy x.1 x.2).mono fun r hr => by
      cases r with
      | read p => exact hr.elim
      | _ => trivial
  refine henforce.bind fun o => ?_
  cases o.result with
  | error err => exact within_pure _
  | ok =>
    refine (readsNone_enqueueWithId _ _ _).bind fun r => ?_
    rcases r with err | entry <;> exact within_pure _

/-- Every sidecar read is among what the census found: later nothing is read. -/
theorem among_of_wasRead {profile : Profile} {policy : QueuePolicy} {clipId c : ClipId}
    {name : String} {clipMeta : ClipMeta} {x : UInt64 × Except QueueError Survey} {y : Survey}
    {r : List EvictionRecord × Except InboxError ClipQueueEntry} {h g : History Req Rep}
    (hlook : Follows (look name) h x) (hy : x.2 = .ok y)
    (hact : Follows (act profile policy clipId name clipMeta x) g r)
    (hread : WasRead c (h ++ g)) : Among y.all c := by
  obtain ⟨p, e, hmem, rfl⟩ := hread
  rcases List.mem_append.mp hmem with hmem | hmem
  · obtain ⟨len, h', rfl, hrest⟩ := follows_request_bind (r := Req.metadata (.source name)) hlook
    obtain ⟨h₁, h₂, s, rfl, hsurvey, hend⟩ := follows_bind hrest
    obtain ⟨rfl, rfl⟩ := follows_pure hend
    obtain rfl : s = .ok y := hy
    rcases List.mem_cons.mp hmem with heq | hmem
    · cases heq
    · rw [List.append_nil] at hmem
      exact List.mem_map_of_mem (mem_of_survey hsurvey hmem)
  · exact (follows_within (readsNone_act _ _ _ _ _ _) hact _ hmem : ReadsNone (.read p)).elim

/-- The size of the file and what the census found. -/
theorem meets_look {had : Finset ClipId}
    (hmedia : ∀ b, S.start.get (.source S.name) = some b → ∃ data, b = .bytes data)
    (h : Sweepable S.sizes S.IsNew had True S.start) :
    S.Meets seen (fun x t => x.1 = S.size ∧
        (∀ y, x.2 = .ok y → Counted S.sizes S.IsNew seen had True y t) ∧ S.Kept t)
      (look S.name) S.start := by
  refine request (A := fun t => Sweepable S.sizes S.IsNew had True t ∧ S.Kept t)
    ⟨h, rfl, subset_rfl, subset_rfl⟩
    (fun s t hs hl hst => ⟨hs.1.runnerStep hst, hs.2.runnerStep hl hst⟩) fun t v u ht hl hv => ?_
  obtain ⟨hqueue, hkept⟩ := ht
  obtain ⟨rfl, hreply⟩ := metadata_size hmedia hkept.source hv
  refine ⟨.refl _, (meets_survey hqueue hkept).bind fun r t hr => upholds_pure ⟨?_, hr⟩⟩
  rcases hreply with ⟨hnone, rfl⟩ | ⟨data, -, -, rfl⟩
  · simp [size, incoming, hnone, Blob.size]
  · rfl

/-- What a submission that succeeds has made of the queue. -/
def Ends (S : Submission) (r : List EvictionRecord × Except InboxError ClipQueueEntry) (t : Fs) :
    Prop := ∀ entry, r.2 = .ok entry → ∃ names, S.Bounded names t

/-- The second part, if the census saw the clips of `seen`. -/
theorem meets_act {had : Finset ClipId} {profile : Profile} {clipMeta : ClipMeta}
    {x : UInt64 × Except QueueError Survey}
    (hmedia : ∀ b, S.start.get (.source S.name) = some b → ∃ data, b = .bytes data)
    (hsize : x.1 = S.size) (h : ∀ y, x.2 = .ok y → Counted S.sizes S.IsNew seen had True y fs)
    (hseen : ∀ y, x.2 = .ok y → ∀ c, seen c → S.IsNew c ∨ Among y.all c) (hkept : S.Kept fs) :
    S.Meets seen S.Ends (act profile S.policy S.clipId S.name clipMeta x) fs := by
  unfold act
  rw [hsize]
  refine (meets_enforceOn h hseen hkept).bind fun o t ho => ?_
  cases hr : o.result with
  | error err => exact upholds_pure fun entry hok => by cases hok
  | ok =>
    refine (meets_enqueueWithId hmedia (ho hr)).bind fun r s hs => ?_
    cases r with
    | error err => exact upholds_pure fun entry hok => by cases hok
    | ok entry => exact upholds_pure fun entry' hok => ⟨_, hs entry rfl⟩

/-- Short of the largest counter values, no breach means room. -/
theorem fits_of_not_breaches {policy : QueuePolicy} {incoming : UInt64} {clips : UInt32}
    {bytes : UInt64} (h : breaches policy incoming clips bytes = false) :
    min (clips.toNat + 1) (2 ^ 32 - 1) ≤ policy.maxClips.toNat ∧
      min (bytes.toNat + incoming.toNat) (2 ^ 64 - 1) ≤ policy.maxBytes.toNat := by
  have hone : (1 : UInt32).toNat = 1 := rfl
  unfold breaches at h
  rw [decide_eq_false_iff_not, not_or] at h
  obtain ⟨hclips, hbytes⟩ := h
  have h1 := UInt32.le_iff_toNat_le.mp (UInt32.not_lt.mp hclips)
  have h2 := UInt64.le_iff_toNat_le.mp (UInt64.not_lt.mp hbytes)
  rw [saturatingAdd32_toNat, hone] at h1
  rw [saturatingAdd64_toNat] at h2
  exact ⟨h1, h2⟩

/-- At rest the bound of the policy holds. -/
theorem Bounded.within (h : S.Bounded names t) (hl : LegalQueue S.sizes S.IsNew t)
    (hrest : AllAtRest t) (hstart : LegalQueue S.sizes S.IsNew S.start)
    (hclips : (clipsOf S.start).card + 1 < 2 ^ 32)
    (hbytes : mediaBytes S.start + S.size.toNat < 2 ^ 64 ∨ S.policy.maxBytes.toNat + 1 < 2 ^ 64) :
    (clipsOf t).card ≤ S.policy.maxClips.toNat ∧ mediaBytes t ≤ S.policy.maxBytes.toNat := by
  obtain ⟨clips, bytes, hb, hcount, hsum⟩ := h.fits
  obtain ⟨hroom, hspace⟩ := fits_of_not_breaches hb
  have hgone : ∀ c ∈ names, c ≠ S.clipId → ¬(filesOf t c).Stored :=
    fun c hc hne => (h.buried c hc hne).not_stored (hrest c)
  constructor
  · -- at rest the clips evicted are gone, so the rest and the new one are all there is
    have hsub : clipsOf t ⊆ insert S.clipId (clipsOf t \ insert S.clipId names.toFinset) := by
      intro c hc
      by_cases hne : c = S.clipId
      · exact hne ▸ Finset.mem_insert_self _ _
      · refine Finset.mem_insert_of_mem (Finset.mem_sdiff.mpr ⟨hc, fun hin => ?_⟩)
        rcases Finset.mem_insert.mp hin with heq | hin
        · exact hne heq
        · exact hgone c (List.mem_toFinset.mp hin) hne (mem_clipsOf.mp hc)
    have h1 := (Finset.card_le_card hsub).trans (Finset.card_insert_le _ _)
    have h2 := (Finset.card_le_card h.clips).trans (Finset.card_insert_le _ _)
    omega
  · -- likewise their media
    have hnew : (S.sizes S.clipId).toNat = S.size.toNat := by rw [sizes_clipId]
    have hinsert : ∀ A : Finset ClipId, ∑ c ∈ insert S.clipId A, (S.sizes c).toNat ≤
        S.size.toNat + ∑ c ∈ A, (S.sizes c).toNat := by
      intro A
      by_cases hin : S.clipId ∈ A
      · rw [Finset.insert_eq_of_mem hin]
        omega
      · rw [Finset.sum_insert hin, hnew]
    have hsub : mediaClips t ⊆ insert S.clipId (mediaClips t \ insert S.clipId names.toFinset) := by
      intro c hc
      by_cases hne : c = S.clipId
      · exact hne ▸ Finset.mem_insert_self _ _
      · refine Finset.mem_insert_of_mem (Finset.mem_sdiff.mpr ⟨hc, fun hin => ?_⟩)
        rcases Finset.mem_insert.mp hin with heq | hin
        · exact hne heq
        · refine hgone c (List.mem_toFinset.mp hin) hne ?_
          rcases hl.mem_mediaClips.mp hc with hp | hi
          · exact Or.inl hp
          · exact Or.inr (Or.inr (Or.inl hi))
    have h1 := (Finset.sum_le_sum_of_subset (f := fun c => (S.sizes c).toNat) hsub).trans
      (hinsert _)
    have h2 := (Finset.sum_le_sum_of_subset (f := fun c => (S.sizes c).toNat) h.media).trans
      (hinsert _)
    rw [← hl.mediaBytes_eq] at h1 h2
    rw [← hstart.mediaBytes_eq] at h2
    omega

/-- The queue at the start, whole and without the new clip. -/
theorem sweepable_start (hwhole : AllWhole S.start) (hfresh : ¬(filesOf S.start S.clipId).Stored)
    (hclips : (clipsOf S.start).card ≤ S.policy.maxClips.toNat)
    (hbytes : mediaBytes S.start ≤ S.policy.maxBytes.toNat) :
    Sweepable S.sizes S.IsNew (mediaClips S.start) True S.start := by
  have hlegal : LegalQueue S.sizes S.IsNew S.start := by
    refine fun c => (hwhole c).legal (fun hst => ?_) _
    have hne : c ≠ S.clipId := by
      rintro rfl
      exact hfresh hst
    exact Function.update_of_ne hne _ _
  refine ⟨hlegal, fun c hc => hc ▸ hfresh, fun c => (hwhole c).paired, subset_rfl, fun _ => ?_,
    fun _ => ?_⟩
  · exact hclips.trans_lt S.policy.maxClips.toNat_lt
  · rw [← hlegal.mediaBytes_eq]
    exact hbytes.trans_lt S.policy.maxBytes.toNat_lt

/-- A run in which the victims have not moved and the census saw what was handed off. -/
theorem sound_of_run {profile : Profile} {clipMeta : ClipMeta}
    {tr : List (Move Party Rep ×
      Pool Req Rep (Party.Returns (List EvictionRecord × Except InboxError ClipQueueEntry)) Fs)}
    {b : Pool Req Rep (Party.Returns (List EvictionRecord × Except InboxError ClipQueueEntry)) Fs}
    {r : List EvictionRecord × Except InboxError ClipQueueEntry} (hwhole : AllWhole S.start)
    (hmedia : ∀ b, S.start.get (.source S.name) = some b → ∃ data, b = .bytes data)
    {had : Finset ClipId} (hqueue : Sweepable S.sizes S.IsNew had True S.start)
    (hseen : ∀ c, seen c → c = S.clipId ∨ WasRead c (history .capture tr))
    (hrun : Exec (PoolStep (Party.Fair SubmitEnv seen) Party.Launches)
      ⟨Party.beside (submit profile S.policy S.clipId (.source S.name) clipMeta), S.start⟩ tr b)
    (hcapture : b.prog .capture = .pure r) :
    Sound (Party.Fair SubmitEnv seen) (LegalQueue S.sizes S.IsNew)
      (Party.rely S.sizes S.IsNew seen) (Party.guar S.sizes S.IsNew seen) (Party.ends S.Ends) b := by
  have hstable : ∀ r s t, RunnerStep S.sizes s t → LegalQueue S.sizes S.IsNew s → S.Ends r s →
      S.Ends r t :=
    fun r s t hs hl hr entry hok => (hr entry hok).imp fun names hb => hb.runnerStep hl hs
  refine (Party.agreed hstable).sound_bind (i := .capture) (fun _ _ hl => hl)
    (fun x s t hst hl _ hx => ⟨hx.1, fun y hy => (hx.2.1 y hy).step hst,
      hx.2.2.runnerStep hl hst.runner⟩) hrun hcapture
    (submit_eq profile S.policy S.clipId S.name clipMeta) hqueue.legal (meets_look hmedia hqueue)
    (fun j hj => ?_) ?_
  · cases j with
    | capture => exact (hj rfl).elim
    | runner => exact upholds_pure fun c => (hwhole c).atRest
  · rintro tr₁ tr₂ c x rfl hrest hprog hlook ⟨hlen, hcounted, hkept⟩
    have hact := follows_of_exec (i := Party.capture) (fun _ _ hl => hl) hrest hcapture
    rw [hprog] at hact
    refine meets_act hmedia hlen hcounted (fun y hy c' hc' => ?_) hkept
    -- what is handed off in the run has been counted by now
    refine (hseen c' hc').imp_right fun hread => ?_
    rw [history_append] at hread
    exact among_of_wasRead hlook hy hact hread

end Steps

end Submission

/-- From a whole queue within the bounds, a submission of a new clip that succeeds beside the runner
leaves the queue within the bounds when both are done, if every clip whose media its sweep removes
from `pending/`, or misses there, has both its files there at that moment, every other clip handed
off in the run is one whose sidecar the census reads, and one more clip does not exceed the largest
counter values. -/
theorem queue_bound_survives_runner {fs₀ : Fs} {profile : Profile} {policy : QueuePolicy}
    {clipId : ClipId} {name : String} {clipMeta : ClipMeta}
    {tr : List (Move Party Rep ×
      Pool Req Rep (Party.Returns (List EvictionRecord × Except InboxError ClipQueueEntry)) Fs)}
    {b : Pool Req Rep (Party.Returns (List EvictionRecord × Except InboxError ClipQueueEntry)) Fs}
    {evictions : List EvictionRecord} {entry : ClipQueueEntry} {r : Except QueueError Unit}
    (hwhole : AllWhole fs₀)
    (hmedia : ∀ b, fs₀.get (.source name) = some b → ∃ data, b = .bytes data)
    (hfresh : ¬(filesOf fs₀ clipId).Stored)
    (hclips : (clipsOf fs₀).card ≤ policy.maxClips.toNat)
    (hbytes : mediaBytes fs₀ ≤ policy.maxBytes.toNat)
    (hcount : (clipsOf fs₀).card + 1 < 2 ^ 32)
    (hsize : mediaBytes fs₀ + Blob.size (fs₀.get (.source name)) < 2 ^ 64 ∨
      policy.maxBytes.toNat + 1 < 2 ^ 64)
    (hrun : Exec (Party.Step SubmitEnv)
      ⟨Party.beside (submit profile policy clipId (.source name) clipMeta), fs₀⟩ tr b)
    (hcapture : b.prog .capture = .pure (evictions, .ok entry)) (hrunner : b.prog .runner = .pure r)
    (hstay : ∀ a m c, Exec.Takes (Party.Step SubmitEnv)
      ⟨Party.beside (submit profile policy clipId (.source name) clipMeta), fs₀⟩ tr a m c →
      Party.VictimsStay a m)
    (hseen : ∀ a m c, Exec.Takes (Party.Step SubmitEnv)
      ⟨Party.beside (submit profile policy clipId (.source name) clipMeta), fs₀⟩ tr a m c →
      Party.HandsOffSeen (fun c => c = clipId ∨ WasRead c (history .capture tr)) a m c) :
    (clipsOf b.state).card ≤ policy.maxClips.toNat ∧
      mediaBytes b.state ≤ policy.maxBytes.toNat := by
  let S : Submission := ⟨fs₀, policy, clipId, name⟩
  have hqueue : Sweepable S.sizes S.IsNew (mediaClips S.start) True S.start :=
    Submission.sweepable_start hwhole hfresh hclips hbytes
  have hsound := Submission.sound_of_run (S := S) hwhole hmedia hqueue (fun _ hc => hc)
    (Party.exec_fair_iff.mpr ⟨hrun, hstay, hseen⟩) hcapture
  have hends : S.Ends (evictions, .ok entry) b.state := hsound.result hcapture
  obtain ⟨names, hbounded⟩ := hends entry rfl
  have hrest : AllAtRest b.state := hsound.result hrunner
  have hfits : mediaBytes fs₀ + S.size.toNat < 2 ^ 64 ∨ policy.maxBytes.toNat + 1 < 2 ^ 64 := by
    refine hsize.imp_left fun h => ?_
    have hle : S.size.toNat ≤ Blob.size (fs₀.get (.source name)) := S.size_le
    omega
  exact hbounded.within hsound.invariant hrest hqueue.legal hcount hfits

namespace HandoffRace

/-- A new clip beside the queue. -/
def staged : Fs := queued.put (.source "clip.mp4") (.bytes [1])

/-- The new clip beside the queue, the old one handed off. -/
def handedStaged : Fs := movedInflight staged (.bytes [0]) (startAttempt clip clip.capturedAt)

theorem filesOf_staged (c : ClipId) : filesOf staged c = filesOf queued c := by
  simp [filesOf, staged, FileMap.get_put]

theorem lists_staged {d : Dir} (hd : d ≠ .pending) : staged.Lists (fun p => p.inDir d) [] :=
  lists_nil fun c x => by simp [staged, queued, FileMap.get_put, hd]

theorem lists_handedStaged {d : Dir} (hd : d = .pending ∨ d = .delivered) :
    handedStaged.Lists (fun p => p.inDir d) [] := by
  refine lists_nil fun c x => ?_
  rcases hd with rfl | rfl <;> cases x <;>
    simp [handedStaged, movedInflight, replaceSidecar, moveMedia, staged, queued, FileMap.get_put,
      FileMap.get_del, startAttempt, clip, ClipQueueEntry.new]

/-- The submission of the new clip. -/
def submission (maxClips : UInt32) : Act (List EvictionRecord × Except InboxError ClipQueueEntry) :=
  submit .release ⟨maxClips, 100, .refuseNew⟩ "c2" (.source "clip.mp4") ⟨clip.capturedAt⟩

def newClip (c : ClipId) : ClipQueueEntry := .new c clip.capturedAt clip.capturedAt 1

/-- The queue with the new clip in it. -/
def withNewClip (c : ClipId) (fs : Fs) : Fs :=
  ((((fs.del (.source "clip.mp4")).put (.media .pending c) (.bytes [1])).put
    (.queue .pending c .jsonTmp) (.sidecar (newClip c))).del (.queue .pending c .jsonTmp)).put
    (.sidecar .pending c) (.sidecar (newClip c))

theorem runsTo_enqueue (c : ClipId) (fs : Fs)
    (hsource : fs.get (.source "clip.mp4") = some (.bytes [1])) :
    RunsTo (fun s r v t => SubmitEnv s r v t ∧ VictimStays s r v)
      (enqueueWithId c (.source "clip.mp4") ⟨clip.capturedAt⟩) fs (.pure (.ok (newClip c)))
      (withNewClip c fs) := by
  let placed : Fs := (fs.del (.source "clip.mp4")).put (.media .pending c) (.bytes [1])
  have hsize : SubmitEnv fs (.metadata (.source "clip.mp4")) (.ok 1) fs := by
    refine .inl (.inl ⟨rfl, ?_⟩)
    rw [hsource]
    exact ⟨1, rfl, rfl⟩
  have hplace : SubmitEnv fs (.rename (.source "clip.mp4") (.media .pending c)) (.ok ()) placed := by
    refine .inl (.inl ?_)
    simp only [Nominal, hsource]
    exact ⟨trivial, rfl⟩
  have hrecord : SubmitEnv (placed.put (.queue .pending c .jsonTmp) (.sidecar (newClip c)))
      (.rename (.queue .pending c .jsonTmp) (.sidecar .pending c)) (.ok ()) (withNewClip c fs) := by
    refine .inl (.inl ?_)
    simp only [Nominal, FileMap.get_put, if_true]
    exact ⟨trivial, rfl⟩
  exact runsTo_ask (.metadata (.source "clip.mp4")) (.ok 1) ⟨hsize, trivial⟩ <|
    runsTo_ask (.rename (.source "clip.mp4") (.media .pending c)) (.ok ()) ⟨hplace, trivial⟩ <|
    runsTo_ask .now clip.capturedAt ⟨.inl (.inl rfl), trivial⟩ <|
    runsTo_ask (.write (.queue .pending c .jsonTmp) (.sidecar (newClip c))) (.ok ())
      ⟨.inl (.inl ⟨rfl, rfl⟩), trivial⟩ <|
    runsTo_ask (.rename (.queue .pending c .jsonTmp) (.sidecar .pending c)) (.ok ())
      ⟨hrecord, trivial⟩ <|
    .refl _ _

theorem allWhole_staged : AllWhole staged := fun c => (filesOf_staged c).symm ▸ allWhole_queued c

/-- A clip handed off after the listing of `inflight/` is in none of the directories the census
lists from there on. -/
theorem runsTo_unseen : ∃ k,
    RunsTo SubmitEnv (submission 1) staged (.ask (.readDir .inflight) k) staged ∧
    RunsTo SubmitEnv (k (.ok [])) handedStaged (.pure ([], .ok (newClip "c2")))
      (withNewClip "c2" handedStaged) := by
  refine ⟨_, runsTo_ask (.metadata (.source "clip.mp4")) (.ok 1)
    (.inl (.inl ⟨rfl, 1, rfl, rfl⟩)) <| .refl _ _, ?_⟩
  have henqueue : RunsTo SubmitEnv (enqueueWithId "c2" (.source "clip.mp4") ⟨clip.capturedAt⟩)
      handedStaged (.pure (.ok (newClip "c2"))) (withNewClip "c2" handedStaged) :=
    (runsTo_enqueue "c2" handedStaged rfl).mono fun _ _ _ _ h => h.1
  exact runsTo_ask (.readDir .delivered) (.ok [])
      (.inl (.inl ⟨rfl, _, lists_handedStaged (.inr rfl), rfl⟩)) <|
    runsTo_ask (.readDir .pending) (.ok [])
      (.inl (.inl ⟨rfl, _, lists_handedStaged (.inl rfl), rfl⟩)) <|
    henqueue.bind _

/-- The submission of a third clip to a queue of two clips at most. -/
def crowdedSubmission : Act (List EvictionRecord × Except InboxError ClipQueueEntry) :=
  submit .release ⟨2, 100, .dropOldestUndelivered⟩ "c3" (.source "clip.mp4") ⟨clip.capturedAt⟩

/-- The younger clip is handed off. -/
def crowdedHanded : Fs :=
  movedInflight crowded (.bytes [1]) (startAttempt secondClip secondClip.capturedAt)

/-- The older clip is evicted. -/
def crowdedEvicted : Fs :=
  (crowdedHanded.del (.media .pending "c1")).del (.sidecar .pending "c1")

theorem runsTo_counted : ∃ k,
    RunsTo (Party.Fair SubmitEnv (· = "c2") .capture) crowdedSubmission crowded
      (.ask (.read (.sidecar .pending "c2")) k) crowded ∧
    RunsTo (Party.Fair SubmitEnv (· = "c2") .capture) (k (.ok (.sidecar secondClip))) crowdedHanded
      (.pure (reportOfOne.evictions, .ok (newClip "c3"))) (withNewClip "c3" crowdedEvicted) := by
  refine ⟨_, runsTo_ask (.metadata (.source "clip.mp4")) (.ok 1)
      ⟨.inl (.inl ⟨rfl, 1, rfl, rfl⟩), trivial⟩ <|
    runsTo_ask (.readDir .inflight) (.ok [])
      ⟨.inl (.inl ⟨rfl, _, lists_crowded (by decide), rfl⟩), trivial⟩ <|
    runsTo_ask (.readDir .delivered) (.ok [])
      ⟨.inl (.inl ⟨rfl, _, lists_crowded (by decide), rfl⟩), trivial⟩ <|
    runsTo_ask (.readDir .pending) (.ok _)
      ⟨.inl (.inl ⟨rfl, _, lists_pending_crowded, rfl⟩), trivial⟩ <|
    .refl _ _, ?_⟩
  exact runsTo_ask (.read (.sidecar .pending "c1")) (.ok (.sidecar clip))
      ⟨.inl (.inl ⟨rfl, rfl⟩), trivial⟩ <|
    runsTo_ask (.removeFile (.media .pending "c1")) (.ok ())
      ⟨.inl (.inl ⟨rfl, rfl⟩), fun _ => ⟨by decide, by decide⟩⟩ <|
    runsTo_ask (.removeFile (.sidecar .pending "c1")) (.ok ())
      ⟨.inl (.inl ⟨rfl, rfl⟩), trivial⟩ <|
    (runsTo_enqueue "c3" crowdedEvicted rfl).bind _

theorem runsTo_crowdedHanded : RunsTo (Party.Fair SubmitEnv (· = "c2") .runner)
    (RunnerOp.inflight secondClip secondClip.capturedAt).prog crowded (.pure (.ok ()))
    crowdedHanded :=
  runsTo_ask (.rename (.media .pending "c2") (.media .inflight "c2")) (.ok ())
      ⟨⟨rfl, rfl⟩, (differIn_del.trans differIn_put).handsOff⟩ <|
    runsTo_ask (.write (.queue .inflight "c2" .jsonTmp) _) (.ok ())
      ⟨⟨rfl, rfl⟩, differIn_put.handsOff⟩ <|
    runsTo_ask (.rename (.queue .inflight "c2" .jsonTmp) (.sidecar .inflight "c2")) (.ok ())
      ⟨⟨rfl, rfl⟩, (differIn_del.trans differIn_put).handsOff⟩ <|
    runsTo_ask (.removeFile (.sidecar .pending "c2")) (.ok ())
      ⟨⟨rfl, rfl⟩, differIn_del.handsOff⟩ <|
    .refl _ _

end HandoffRace

open HandoffRace

/-- A hand-off that falls between the listing of `inflight/` and that of `delivered/`: the
submission finds an empty queue, and one clip more than allowed is stored. -/
theorem unseen_handoff_breaks_bound :
    ∃ (tr : List (Move Party Rep ×
        Pool Req Rep (Party.Returns (List EvictionRecord × Except InboxError ClipQueueEntry)) Fs))
      (b : Pool Req Rep
        (Party.Returns (List EvictionRecord × Except InboxError ClipQueueEntry)) Fs),
      AllWhole staged ∧ ¬(filesOf staged "c2").Stored ∧ (clipsOf staged).card ≤ 1 ∧
      mediaBytes staged ≤ 100 ∧
      Exec (Party.Step SubmitEnv) ⟨Party.beside (submission 1), staged⟩ tr b ∧
      b.prog .capture = .pure ([], .ok (newClip "c2")) ∧ b.prog .runner = .pure (.ok ()) ∧
      1 < (clipsOf b.state).card := by
  obtain ⟨k, h1, h3⟩ := runsTo_unseen
  have hmove : RunsTo Nominal (RunnerOp.inflight clip clip.capturedAt).prog staged
      (.pure (.ok ())) handedStaged := by
    refine runsTo_pure ((runs_bind _ _ _ _ _).mpr ⟨.ok (startAttempt clip clip.capturedAt),
      handedStaged, ?_, rfl, rfl⟩)
    exact runs_transitionInflight.mpr (Or.inr ⟨.bytes [0], rfl, rfl, rfl⟩)
  have hlisted : SubmitEnv staged (.readDir .inflight) (.ok []) staged :=
    .inl (.inl ⟨rfl, _, lists_staged (by decide), rfl⟩)
  obtain ⟨tr, b, hrun, hcapture, hrunner, hstate, -⟩ := Party.exec_overtaken
    (E := Party.answers SubmitEnv) (.inflight clip clip.capturedAt) h1 hlisted rfl hmove h3
  have hfresh : ¬(filesOf staged "c2").Stored := by
    rw [filesOf_staged, filesOf_queued]
    simp [ClipFiles.Stored]
  have hcount : 1 < (clipsOf (withNewClip "c2" handedStaged)).card := by decide
  exact ⟨tr, b, allWhole_staged, hfresh, by decide, by decide, hrun, hcapture, hrunner,
    hstate ▸ hcount⟩

/-- A submission to a full queue: the census reads the younger of the two clips, which is then
handed off, and the older one makes room for the new one. -/
theorem queue_bound_survives_runner_overtaken :
    ∃ (tr : List (Move Party Rep ×
        Pool Req Rep (Party.Returns (List EvictionRecord × Except InboxError ClipQueueEntry)) Fs))
      (b : Pool Req Rep
        (Party.Returns (List EvictionRecord × Except InboxError ClipQueueEntry)) Fs),
      Exec (Party.Step SubmitEnv) ⟨Party.beside crowdedSubmission, crowded⟩ tr b ∧
      b.prog .capture = .pure (reportOfOne.evictions, .ok (newClip "c3")) ∧
      b.prog .runner = .pure (.ok ()) ∧ (filesOf b.state "c2").inflightSidecar ≠ none ∧
      (clipsOf b.state).card ≤ 2 ∧ mediaBytes b.state ≤ 100 := by
  obtain ⟨k, h1, h3⟩ := runsTo_counted
  have hanswer : Party.Fair SubmitEnv (· = "c2") .capture crowded (.read (.sidecar .pending "c2"))
      (.ok (.sidecar secondClip)) crowded := ⟨.inl (.inl ⟨rfl, rfl⟩), trivial⟩
  obtain ⟨tr, b, hrun, hcapture, hrunner, hstate, hread⟩ := Party.exec_overtaken
    (.inflight secondClip secondClip.capturedAt) h1 hanswer rfl runsTo_crowdedHanded h3
  obtain ⟨hrun', hstay, hseen⟩ := Party.exec_fair_iff.mp hrun
  have hwas : WasRead "c2" (history .capture tr) := ⟨_, secondClip, hread, rfl⟩
  have hfresh : ¬(filesOf crowded "c3").Stored := by
    rw [filesOf_crowded, filesOf_queued]
    simp [ClipFiles.Stored]
  have hmedia : ∀ b, crowded.get (.source "clip.mp4") = some b → ∃ data, b = .bytes data :=
    fun b hb => ⟨[1], by cases hb; rfl⟩
  obtain ⟨hcount, hsize⟩ := queue_bound_survives_runner allWhole_crowded hmedia hfresh (by decide)
    (by decide) (by decide) (Or.inl (by decide)) hrun' hcapture hrunner hstay
    fun a m c htk r v hm c' hp hnone => Or.inr (hseen a m c htk r v hm c' hp hnone ▸ hwas)
  have hin : (filesOf (withNewClip "c3" crowdedEvicted) "c2").inflightSidecar ≠ none := by decide
  exact ⟨tr, b, hrun', hcapture, hrunner, hstate ▸ hin, hcount, hsize⟩

end Perchstation
