import Perchstation.Lib.Interleaving
import Perchstation.Queue.Store
import Perchstation.Race.ClipFiles

/-!
# The runner's operations — what they do to each clip

The delivery runner makes one transition after the other while a capture submits a clip.  Each
request of a transition is a `RunnerMove` of its clip, provided the other side only makes sweep
and submission moves (`runner_upholds`).
-/

namespace Perchstation

open Interleaving Resumption QueueStore

/-- The files of the clip `c`. -/
def filesOf (fs : Fs) (c : ClipId) : ClipFiles where
  pendingMp4 := fs.get (.media .pending c)
  pendingSidecar := fs.get (.sidecar .pending c)
  inflightMp4 := fs.get (.media .inflight c)
  inflightSidecar := fs.get (.sidecar .inflight c)
  deliveredMp4 := fs.get (.media .delivered c)
  deliveredSidecar := fs.get (.sidecar .delivered c)

namespace ClipFiles

/-- The file in the directory and with the extension becomes `o`. -/
def set (v : ClipFiles) : Dir → Ext → Option Blob → ClipFiles
  | .pending, .mp4, o => { v with pendingMp4 := o }
  | .pending, .json, o => { v with pendingSidecar := o }
  | .inflight, .mp4, o => { v with inflightMp4 := o }
  | .inflight, .json, o => { v with inflightSidecar := o }
  | .delivered, .mp4, o => { v with deliveredMp4 := o }
  | .delivered, .json, o => { v with deliveredSidecar := o }
  | _, _, _ => v

end ClipFiles

section Files

variable {fs t : Fs} {c c' : ClipId} {d : Dir} {x : Ext} {b : Blob}

theorem filesOf_put_self : filesOf (fs.put (.queue d c x) b) c = (filesOf fs c).set d x (some b) := by
  cases d <;> cases x <;> simp [filesOf, ClipFiles.set, FileMap.get_put]

theorem filesOf_del_self : filesOf (fs.del (.queue d c x)) c = (filesOf fs c).set d x none := by
  cases d <;> cases x <;> simp [filesOf, ClipFiles.set, FileMap.get_del]

/-- The two stores differ in files of the clip `c` only. -/
structure DifferIn (c : ClipId) (fs t : Fs) : Prop where
  queue : ∀ d c' x, c' ≠ c → t.get (.queue d c' x) = fs.get (.queue d c' x)
  source : ∀ name, t.get (.source name) = fs.get (.source name)

theorem DifferIn.refl (c : ClipId) (fs : Fs) : DifferIn c fs fs :=
  ⟨fun _ _ _ _ => rfl, fun _ => rfl⟩

theorem differIn_put : DifferIn c fs (fs.put (.queue d c x) b) :=
  ⟨fun d' c' x' hc => by rw [FileMap.get_put, if_neg (by simp [hc])],
    fun name => by rw [FileMap.get_put, if_neg (by simp)]⟩

theorem differIn_del : DifferIn c fs (fs.del (.queue d c x)) :=
  ⟨fun d' c' x' hc => by rw [FileMap.get_del, if_neg (by simp [hc])],
    fun name => by rw [FileMap.get_del, if_neg (by simp)]⟩

theorem DifferIn.trans {u : Fs} (h : DifferIn c fs t) (h' : DifferIn c t u) : DifferIn c fs u :=
  ⟨fun d c' x hc => (h'.queue d c' x hc).trans (h.queue d c' x hc),
    fun name => (h'.source name).trans (h.source name)⟩

theorem DifferIn.filesOf (h : DifferIn c fs t) (hc : c' ≠ c) :
    Perchstation.filesOf t c' = Perchstation.filesOf fs c' := by
  simp only [Perchstation.filesOf, h.queue _ c' _ hc]

end Files

/-! ## The steps of both sides -/

section Steps

/-- Each clip of `n c` bytes is legal; the clips of `new` are being submitted. -/
def LegalQueue (n : ClipId → UInt64) (new : ClipId → Prop) (fs : Fs) : Prop :=
  ∀ c, (filesOf fs c).Legal c (n c) (new c)

/-- A step of the runner: moves of listed clips. -/
structure RunnerStep (n : ClipId → UInt64) (fs t : Fs) : Prop where
  files : ∀ c, filesOf t c = filesOf fs c ∨
    ClipFiles.RunnerMove c (n c) (filesOf fs c) (filesOf t c)
  unlisted : ∀ d c x, (filesOf fs c).Unlisted → t.get (.queue d c x) = fs.get (.queue d c x)
  source : ∀ name, t.get (.source name) = fs.get (.source name)

/-- What a capture's request does to a clip: it sweeps the old ones and submits the new ones. -/
inductive CaptureMove (n : UInt64) (new : Prop) (c : ClipId) (v : ClipFiles) : ClipFiles → Prop
  | same : CaptureMove n new c v v
  | sweep {w : ClipFiles} : ¬new → ClipFiles.SweepMove v w → CaptureMove n new c v w
  | submit {w : ClipFiles} : new → ClipFiles.SubmitMove c n v w → CaptureMove n new c v w

theorem CaptureMove.legal {n : UInt64} {new : Prop} {c : ClipId} {v w : ClipFiles}
    (h : CaptureMove n new c v w) (hv : v.Legal c n new) : w.Legal c n new := by
  cases h with
  | same => exact hv
  | sweep _ hm => exact hv.sweepMove hm
  | submit hnew hm => exact hv.submitMove hnew hm

/-- A step of a capture. -/
structure CaptureStep (n : ClipId → UInt64) (new : ClipId → Prop) (fs t : Fs) : Prop where
  files : ∀ c, CaptureMove (n c) (new c) c (filesOf fs c) (filesOf t c)
  scratch : ∀ d c, t.get (.queue d c .jsonTmp) = fs.get (.queue d c .jsonTmp) ∨
    (filesOf fs c).Unlisted

variable {n : ClipId → UInt64} {new : ClipId → Prop} {fs t : Fs} {c : ClipId}

theorem RunnerStep.refl (n : ClipId → UInt64) (fs : Fs) : RunnerStep n fs fs :=
  ⟨fun _ => Or.inl rfl, fun _ _ _ _ => rfl, fun _ => rfl⟩

theorem CaptureStep.refl (fs : Fs) : CaptureStep n new fs fs :=
  ⟨fun _ => .same, fun _ _ => Or.inl rfl⟩

/-- A step of the runner moves one listed clip. -/
theorem runnerStep_of (h : DifferIn c fs t) (hlisted : ¬(filesOf fs c).Unlisted)
    (hmove : filesOf t c = filesOf fs c ∨
      ClipFiles.RunnerMove c (n c) (filesOf fs c) (filesOf t c)) : RunnerStep n fs t where
  files c' := by
    by_cases hc : c' = c
    · subst hc
      exact hmove
    · exact Or.inl (h.filesOf hc)
  unlisted d c' x hu := by
    have hc : c' ≠ c := by
      rintro rfl
      exact hlisted hu
    exact h.queue d c' x hc
  source := h.source

theorem LegalQueue.runnerStep (h : LegalQueue n new fs) (hs : RunnerStep n fs t) :
    LegalQueue n new t := by
  intro c
  rcases hs.files c with heq | hm
  · rw [heq]
    exact h c
  · exact (h c).runnerMove hm

theorem LegalQueue.captureStep (h : LegalQueue n new fs) (hs : CaptureStep n new fs t) :
    LegalQueue n new t :=
  fun c => (hs.files c).legal (h c)

end Steps

/-! ## What the runner may rely on -/

namespace CaptureMove

variable {n : UInt64} {new : Prop} {c : ClipId} {v w : ClipFiles}

theorem inflight (h : CaptureMove n new c v w) :
    w.inflightMp4 = v.inflightMp4 ∧ w.inflightSidecar = v.inflightSidecar := by
  cases h with
  | same => exact ⟨rfl, rfl⟩
  | sweep _ hm => cases hm <;> exact ⟨rfl, rfl⟩
  | submit _ hm => cases hm <;> exact ⟨rfl, rfl⟩

/-- During a hand-off the sidecar of `pending/` stays. -/
theorem halfway (h : CaptureMove n new c v w) (hv : v.inflightMp4 ≠ none) :
    w.pendingSidecar = v.pendingSidecar := by
  cases h with
  | same => rfl
  | sweep _ hm =>
    cases hm with
    | dropPending hp hi => exact (hv hi).elim
    | _ => rfl
  | submit _ hm =>
    cases hm with
    | place hu hf => rfl
    | list hu hp hb ho => exact (hv hu.inflightMp4).elim

/-- A listed clip without a sidecar in `pending/` gets none, and keeps its media there. -/
theorem unlisted (h : CaptureMove n new c v w) (hv : ¬v.Unlisted) (hp : v.pendingSidecar = none) :
    w.pendingSidecar = none ∧ w.pendingMp4 = v.pendingMp4 := by
  cases h with
  | same => exact ⟨hp, rfl⟩
  | sweep _ hm =>
    cases hm with
    | dropMedia hs => exact (hs hp).elim
    | dropPending _ _ => exact ⟨rfl, rfl⟩
    | dropDelivered => exact ⟨hp, rfl⟩
  | submit _ hm =>
    cases hm with
    | place hu hf => exact (hv hu).elim
    | list hu _ _ _ => exact (hv hu).elim

/-- The media goes before the sidecar. -/
theorem listed (h : CaptureMove n new c v w) (hv : ¬v.Unlisted)
    (hp : v.pendingMp4 ≠ none → v.pendingSidecar ≠ none) :
    w.pendingMp4 ≠ none → w.pendingSidecar ≠ none := by
  cases h with
  | same => exact hp
  | sweep _ hm => cases hm <;> grind
  | submit _ hm =>
    cases hm with
    | place hu hf => exact (hv hu).elim
    | list hu _ _ _ => exact (hv hu).elim

/-- A new clip that has a sidecar in `pending/` is left alone. -/
theorem listed_new (h : CaptureMove n new c v w) (hv : new → v.pendingSidecar ≠ none) :
    new → w.pendingSidecar ≠ none := by
  cases h with
  | same => exact hv
  | sweep hnot _ => exact fun hnew => (hnot hnew).elim
  | submit hnew hm =>
    cases hm with
    | place hu hf => exact (hv hnew hu.pendingSidecar).elim
    | list hu _ _ _ => exact (hv hnew hu.pendingSidecar).elim

theorem atRest (h : CaptureMove n new c v w) (hv : v.AtRest) : w.AtRest := by
  cases h with
  | same => exact hv
  | sweep _ hm => exact hm.atRest hv
  | submit _ hm => exact hm.atRest hv

end CaptureMove

/-! ## The operations -/

/-- The transitions the delivery runner makes. -/
inductive RunnerOp
  | inflight (entry : ClipQueueEntry) (now : DateTime)
  | backToPending (entry : ClipQueueEntry)
  | delivered (entry : ClipQueueEntry)

namespace RunnerOp

def prog : RunnerOp → Act (Except QueueError Unit)
  | .inflight entry now => do
    let r ← transitionInflight entry now
    return r.map fun _ => ()
  | .backToPending entry => transitionBackToPending entry
  | .delivered entry => transitionDelivered entry

/-- The runner makes a transition of an entry it read from `pending/`, or of the entry that lies in
`inflight/`, with or without an outcome. -/
def Ready (fs : Fs) : RunnerOp → Prop
  | .inflight entry _ => fs.get (.sidecar .pending entry.clipId) = some (.sidecar entry)
  | .backToPending entry => ∃ old, fs.get (.sidecar .inflight entry.clipId) = some (.sidecar old) ∧
      entry.byteSize = old.byteSize ∧ entry.isTerminal = false
  | .delivered entry => ∃ old, fs.get (.sidecar .inflight entry.clipId) = some (.sidecar old) ∧
      entry.byteSize = old.byteSize ∧ entry.isTerminal = true

end RunnerOp

section Upholds

variable {n : ClipId → UInt64} {new : ClipId → Prop} {fs t : Fs} {c : ClipId}

/-- Every clip is at rest. -/
def AllAtRest (fs : Fs) : Prop := ∀ c, (filesOf fs c).AtRest

theorem AllAtRest.captureStep (h : AllAtRest fs) (hs : CaptureStep n new fs t) : AllAtRest t :=
  fun c => (hs.files c).atRest (h c)

/-- What the runner does among the steps of a capture. -/
abbrev RunnerUpholds (n : ClipId → UInt64) (new : ClipId → Prop) {α : Type} (post : α → Fs → Prop)
    (p : Act α) (fs : Fs) : Prop :=
  Upholds Nominal (LegalQueue n new) (CaptureStep n new) (RunnerStep n) post p fs

/-- The other clips are at rest, and `A` holds of the files of `c`. -/
structure Working (c : ClipId) (A : ClipFiles → Prop) (fs : Fs) : Prop where
  others : ∀ c', c' ≠ c → (filesOf fs c').AtRest
  own : A (filesOf fs c)

theorem Working.allAtRest {A : ClipFiles → Prop} (h : Working c A fs) (hA : ∀ v, A v → v.AtRest) :
    AllAtRest fs := by
  intro c'
  by_cases hc : c' = c
  · subst hc
    exact hA _ h.own
  · exact h.others c' hc

/-- One request of an operation on the clip `c`. -/
theorem runner_request {α : Type} {post : α → Fs → Prop} {A : ClipFiles → Prop} {r : Req}
    {f : Rep r → Act α} (h : Working c A fs)
    (hA : ∀ v w, A v → CaptureMove (n c) (new c) c v w → A w)
    (hstep : ∀ t v u, Working c A t → LegalQueue n new t → Nominal t r v u →
      RunnerStep n t u ∧ RunnerUpholds n new post (f v) u) :
    RunnerUpholds n new post (Prog.request r >>= f) fs := by
  refine upholds_request h (fun s t hr _ _ ha => ?_) fun t v u ha hl hv => hstep t v u ha hl hv
  exact ⟨fun c' hc => (hr.files c').atRest (ha.others c' hc), hA _ _ ha.own (hr.files c)⟩

/-- The operation on `c` keeps the other clips at rest. -/
theorem Working.step {A B : ClipFiles → Prop} {t : Fs} (h : Working c A fs) (hd : DifferIn c fs t)
    (hB : B (filesOf t c)) : Working c B t :=
  ⟨fun c' hc => (hd.filesOf hc).symm ▸ h.others c' hc, hB⟩

/-- An operation writes a sidecar of its clip, which has a file in `inflight/`. -/
theorem runner_writeSidecarAtomic {A B : ClipFiles → Prop} {d : Dir} {e : ClipQueueEntry}
    (h : Working c A fs) (hlisted : ∀ v, A v → ¬v.Unlisted)
    (hA : ∀ v w, A v → CaptureMove (n c) (new c) c v w → A w)
    (hmove : ∀ v, A v → v.Legal c (n c) (new c) →
      ClipFiles.RunnerMove c (n c) v (v.set d .json (some (.sidecar e))) ∧
        B (v.set d .json (some (.sidecar e)))) :
    RunnerUpholds n new (fun r t => r = .ok () ∧ Working c B t)
      (writeSidecarAtomic (.sidecar d c) e) fs := by
  refine runner_request h hA fun t v u ha hl hv => ?_
  obtain ⟨rfl, rfl⟩ := hv
  have hsame : filesOf (t.put (.queue d c .jsonTmp) (.sidecar e)) c = filesOf t c := by
    rw [filesOf_put_self]
    cases d <;> rfl
  refine ⟨runnerStep_of differIn_put (hlisted _ ha.own) (Or.inl hsame), ?_⟩
  have hput : Working c A (t.put (.queue d c .jsonTmp) (.sidecar e)) :=
    ha.step differIn_put (hsame.symm ▸ ha.own)
  -- the temporary file stays as written until it is renamed
  refine upholds_request (A := fun t => Working c A t ∧
      t.get (.queue d c .jsonTmp) = some (.sidecar e))
    ⟨hput, by simp [FileMap.get_put, Path.withExtension]⟩ ?_ ?_
  · rintro s t hr - - ⟨hs, htmp⟩
    refine ⟨⟨fun c' hc => (hr.files c').atRest (hs.others c' hc), hA _ _ hs.own (hr.files c)⟩, ?_⟩
    rcases hr.scratch d c with heq | hu
    · rw [heq, htmp]
    · exact (hlisted _ hs.own hu).elim
  · rintro s v u ⟨hs, htmp⟩ hl' hv
    simp only [Nominal, Path.withExtension, htmp] at hv
    obtain ⟨rfl, rfl⟩ := hv
    have hfiles : filesOf ((s.del (.queue d c .jsonTmp)).put (.sidecar d c) (.sidecar e)) c =
        (filesOf s c).set d .json (some (.sidecar e)) := by
      rw [filesOf_put_self, filesOf_del_self]
      cases d <;> rfl
    obtain ⟨hm, hB⟩ := hmove _ hs.own (hl' c)
    have hd : DifferIn c s ((s.del (.queue d c .jsonTmp)).put (.sidecar d c) (.sidecar e)) :=
      differIn_del.trans differIn_put
    refine ⟨runnerStep_of hd (hlisted _ hs.own) (Or.inr (hfiles.symm ▸ hm)), ?_⟩
    exact upholds_pure ⟨rfl, hs.step hd (hfiles.symm ▸ hB)⟩

/-- An operation removes a file of its clip. -/
theorem runner_removeIfExists {A B : ClipFiles → Prop} {d : Dir} {x : Ext}
    (h : Working c A fs) (hlisted : ∀ v, A v → ¬v.Unlisted)
    (hA : ∀ v w, A v → CaptureMove (n c) (new c) c v w → A w)
    (hmove : ∀ v, A v → v.Legal c (n c) (new c) →
      ClipFiles.RunnerMove c (n c) v (v.set d x none) ∧ B (v.set d x none)) :
    RunnerUpholds n new (fun r t => r = .ok () ∧ Working c B t) (removeIfExists (.queue d c x))
      fs := by
  refine runner_request h hA fun t v u ha hl hv => ?_
  obtain ⟨hm, hB⟩ := hmove _ ha.own (hl c)
  rw [← filesOf_del_self] at hm hB
  cases hb : t.get (.queue d c x) with
  | none =>
    simp only [Nominal, hb] at hv
    obtain ⟨rfl, rfl⟩ := hv
    rw [FileMap.del_of_get_none hb] at hB
    exact ⟨.refl _ _, upholds_pure ⟨rfl, ha.step (.refl _ _) hB⟩⟩
  | some b =>
    simp only [Nominal, hb] at hv
    obtain ⟨rfl, rfl⟩ := hv
    exact ⟨runnerStep_of differIn_del (hlisted _ ha.own) (Or.inr hm),
      upholds_pure ⟨rfl, ha.step differIn_del hB⟩⟩

/-! ### A hand-off -/

/-- Not handed off yet, though perhaps evicted. -/
structure ToTake (new : Prop) (v : ClipFiles) : Prop where
  inflightSidecar : v.inflightSidecar = none
  new : new → v.pendingSidecar ≠ none

/-- A hand-off that has taken the media. -/
structure Taken (v : ClipFiles) : Prop where
  inflightMp4 : v.inflightMp4 ≠ none
  pendingSidecar : v.pendingSidecar ≠ none

/-- A whole unfinished pair in `inflight/`. -/
structure Paired (v : ClipFiles) : Prop where
  inflightMp4 : v.inflightMp4 ≠ none
  inflightSidecar : ∃ b, v.inflightSidecar = some b ∧ ClipFiles.Unfinished b

theorem ToTake.captureMove {m : UInt64} {new : Prop} {v w : ClipFiles} (h : ToTake new v)
    (hm : CaptureMove m new c v w) : ToTake new w :=
  ⟨hm.inflight.2.trans h.inflightSidecar, hm.listed_new h.new⟩

theorem Taken.captureMove {m : UInt64} {new : Prop} {v w : ClipFiles} (h : Taken v)
    (hm : CaptureMove m new c v w) : Taken w :=
  ⟨hm.inflight.1 ▸ h.inflightMp4, (hm.halfway h.inflightMp4) ▸ h.pendingSidecar⟩

theorem Paired.captureMove {m : UInt64} {new : Prop} {v w : ClipFiles} (h : Paired v)
    (hm : CaptureMove m new c v w) : Paired w :=
  ⟨hm.inflight.1 ▸ h.inflightMp4, hm.inflight.2 ▸ h.inflightSidecar⟩

theorem runner_inflight {e : ClipQueueEntry} {now : DateTime} (hrest : AllAtRest fs)
    (hlegal : LegalQueue n new fs) (hready : (RunnerOp.inflight e now).Ready fs) :
    RunnerUpholds n new (fun _ t => AllAtRest t) (RunnerOp.inflight e now).prog fs := by
  have hps : (filesOf fs e.clipId).pendingSidecar = some (.sidecar e) := hready
  obtain ⟨e', he, -, hsize⟩ := (hlegal e.clipId).pendingRecord _ hps
  obtain ⟨e'', he', hopen⟩ := (hlegal e.clipId).pendingUnfinished _ hps
  cases he
  cases he'
  have htake : Working e.clipId (ToTake (new e.clipId)) fs := by
    refine ⟨fun c' _ => hrest c', ?_, fun _ => by simp [hps]⟩
    by_contra hne
    obtain ⟨b, hb⟩ := Option.ne_none_iff_exists'.mp hne
    simp [(hrest e.clipId b hb).2.1] at hps
  have hmain : RunnerUpholds n new (fun _ t => AllAtRest t) (transitionInflight e now) fs := by
    refine runner_request htake (fun v w ha hm => ha.captureMove hm) fun t v u ha hl hv => ?_
    cases hb : t.get (.media .pending e.clipId) with
    | none =>
      -- the media is gone: the sweep was first
      simp only [Nominal, hb] at hv
      obtain ⟨rfl, rfl⟩ := hv
      refine ⟨.refl _ _, upholds_pure (ha.allAtRest fun v hv b hb => ?_)⟩
      simp [hv.inflightSidecar] at hb
    | some m =>
      -- the media is taken; from here on the sweep finds none
      simp only [Nominal, hb] at hv
      obtain ⟨rfl, rfl⟩ := hv
      have hpm : (filesOf t e.clipId).pendingMp4 = some m := hb
      have hlisted : (filesOf t e.clipId).pendingSidecar ≠ none := by
        rcases (hl e.clipId).pendingListed (by simp [hpm]) with hnew | hps | his
        · exact ha.own.new hnew
        · exact hps
        · exact (his ha.own.inflightSidecar).elim
      have hd : DifferIn e.clipId t
          ((t.del (.media .pending e.clipId)).put (.media .inflight e.clipId) m) :=
        differIn_del.trans differIn_put
      have hfiles : filesOf ((t.del (.media .pending e.clipId)).put (.media .inflight e.clipId) m)
          e.clipId = { filesOf t e.clipId with pendingMp4 := none, inflightMp4 := some m } := by
        rw [filesOf_put_self, filesOf_del_self]
        rfl
      refine ⟨runnerStep_of hd (fun hu => hlisted hu.pendingSidecar)
        (Or.inr (hfiles.symm ▸ .takeMedia hpm hlisted ha.own.inflightSidecar)), ?_⟩
      have htaken : Working e.clipId Taken
          ((t.del (.media .pending e.clipId)).put (.media .inflight e.clipId) m) :=
        ha.step hd (hfiles.symm ▸ ⟨by simp, hlisted⟩)
      refine (runner_writeSidecarAtomic (B := Paired) (d := .inflight) (e := startAttempt e now)
        htaken (fun v hv hu => hv.inflightMp4 hu.inflightMp4) (fun v w hv hm => hv.captureMove hm)
        fun v hv _ => ⟨.placeInflight hv.inflightMp4 hv.pendingSidecar
          ⟨startAttempt e now, rfl, rfl, hsize⟩ ⟨startAttempt e now, rfl, hopen⟩,
          hv.inflightMp4, _, rfl, startAttempt e now, rfl, hopen⟩).bind fun r s hr => ?_
      obtain ⟨rfl, hpaired⟩ := hr
      refine (runner_removeIfExists (B := ClipFiles.AtRest) hpaired
        (fun v hv hu => hv.inflightMp4 hu.inflightMp4) (fun v w hv hm => hv.captureMove hm)
        fun v hv _ => ?_).bind fun r s hr => ?_
      · obtain ⟨hm, b, hb, ho⟩ := hv
        refine ⟨.dropPending hm (by simp [hb]), fun b' hb' => ⟨hm, rfl, ?_⟩⟩
        cases hb.symm.trans hb'
        exact ho
      · obtain ⟨rfl, hdone⟩ := hr
        exact upholds_pure (hdone.allAtRest fun v hv => hv)
  exact hmain.bind fun r t ht => upholds_pure ht

/-! ### A return to `pending/` -/

/-- A return that has not moved the media yet. -/
structure ToReturn (v : ClipFiles) : Prop where
  inflightMp4 : v.inflightMp4 ≠ none
  pendingSidecar : v.pendingSidecar = none
  inflightSidecar : ∃ b, v.inflightSidecar = some b ∧ ClipFiles.Unfinished b

/-- A return that has moved the media. -/
structure Returned (v : ClipFiles) : Prop where
  inflightMp4 : v.inflightMp4 = none
  inflightSidecar : v.inflightSidecar ≠ none
  pendingMp4 : v.pendingMp4 ≠ none
  pendingSidecar : v.pendingSidecar = none

/-- A return that has written the sidecar; the clip can be evicted by then. -/
structure Relisted (v : ClipFiles) : Prop where
  inflightMp4 : v.inflightMp4 = none
  inflightSidecar : v.inflightSidecar ≠ none
  listed : v.pendingMp4 ≠ none → v.pendingSidecar ≠ none

theorem ToReturn.captureMove {m : UInt64} {new : Prop} {v w : ClipFiles} (h : ToReturn v)
    (hm : CaptureMove m new c v w) : ToReturn w :=
  ⟨hm.inflight.1 ▸ h.inflightMp4,
    (hm.unlisted (fun hu => h.inflightMp4 hu.inflightMp4) h.pendingSidecar).1,
    hm.inflight.2 ▸ h.inflightSidecar⟩

theorem Returned.captureMove {m : UInt64} {new : Prop} {v w : ClipFiles} (h : Returned v)
    (hm : CaptureMove m new c v w) : Returned w := by
  obtain ⟨hps, hpm⟩ := hm.unlisted (fun hu => h.inflightSidecar hu.inflightSidecar)
    h.pendingSidecar
  exact ⟨hm.inflight.1.trans h.inflightMp4, hm.inflight.2 ▸ h.inflightSidecar,
    hpm ▸ h.pendingMp4, hps⟩

theorem Relisted.captureMove {m : UInt64} {new : Prop} {v w : ClipFiles} (h : Relisted v)
    (hm : CaptureMove m new c v w) : Relisted w :=
  ⟨hm.inflight.1.trans h.inflightMp4, hm.inflight.2 ▸ h.inflightSidecar,
    hm.listed (fun hu => h.inflightSidecar hu.inflightSidecar) h.listed⟩

theorem runner_returnMedia (h : Working c ToReturn fs) :
    RunnerUpholds n new (fun r t => r = .ok () ∧ Working c Returned t)
      (returnMedia (.media .inflight c) (.media .pending c)) fs := by
  refine runner_request h (fun v w ha hm => ha.captureMove hm) fun t v u ha hl hv => ?_
  obtain ⟨rfl, rfl⟩ := hv
  refine ⟨.refl _ _, ?_⟩
  have hsome : (u.get (.media .inflight c)).isSome = true :=
    Option.isSome_iff_ne_none.mpr ha.own.inflightMp4
  simp only [hsome, if_true]
  refine runner_request ha (fun v w ha hm => ha.captureMove hm) fun t v u ha hl hv => ?_
  obtain ⟨m, hm⟩ := Option.ne_none_iff_exists'.mp ha.own.inflightMp4
  have hget : t.get (.media .inflight c) = some m := hm
  simp only [Nominal, hget] at hv
  obtain ⟨rfl, rfl⟩ := hv
  have hd : DifferIn c t ((t.del (.media .inflight c)).put (.media .pending c) m) :=
    differIn_del.trans differIn_put
  have hfiles : filesOf ((t.del (.media .inflight c)).put (.media .pending c) m) c =
      { filesOf t c with pendingMp4 := some m, inflightMp4 := none } := by
    rw [filesOf_put_self, filesOf_del_self]
    rfl
  obtain ⟨b, hb, ho⟩ := ha.own.inflightSidecar
  refine ⟨runnerStep_of hd (fun hu => ha.own.inflightMp4 hu.inflightMp4)
    (Or.inr (hfiles.symm ▸ .returnMedia hm hb ho ha.own.pendingSidecar)), ?_⟩
  refine upholds_pure ⟨rfl, ha.step hd (hfiles.symm ▸ ?_)⟩
  exact ⟨rfl, by simp [hb], by simp, ha.own.pendingSidecar⟩

theorem runner_backToPending {e : ClipQueueEntry} (hrest : AllAtRest fs)
    (hlegal : LegalQueue n new fs) (hready : (RunnerOp.backToPending e).Ready fs) :
    RunnerUpholds n new (fun _ t => AllAtRest t) (RunnerOp.backToPending e).prog fs := by
  obtain ⟨old, hold, hsize, hopen⟩ := hready
  have his : (filesOf fs e.clipId).inflightSidecar = some (.sidecar old) := hold
  obtain ⟨e', he, -, hn⟩ := (hlegal e.clipId).inflightRecord _ his
  cases he
  obtain ⟨hm, hp, ho⟩ := hrest e.clipId _ his
  have hstart : Working e.clipId ToReturn fs := ⟨fun c' _ => hrest c', hm, hp, _, his, ho⟩
  refine (runner_returnMedia hstart).bind fun r t hr => ?_
  obtain ⟨rfl, ht⟩ := hr
  refine (runner_writeSidecarAtomic (B := Relisted) (d := .pending) (e := e) ht
    (fun v hv hu => hv.inflightSidecar hu.inflightSidecar) (fun v w hv hm => hv.captureMove hm)
    fun v hv _ => ⟨.placePending hv.pendingMp4 hv.inflightSidecar ⟨e, rfl, rfl, hsize.trans hn⟩
      ⟨e, rfl, hopen⟩, hv.inflightMp4, hv.inflightSidecar, fun _ => by simp [ClipFiles.set]⟩).bind
    fun r s hr => ?_
  obtain ⟨rfl, hs⟩ := hr
  refine (runner_removeIfExists (B := ClipFiles.AtRest) hs
    (fun v hv hu => hv.inflightSidecar hu.inflightSidecar) (fun v w hv hm => hv.captureMove hm)
    fun v hv _ => ⟨.dropInflight hv.inflightMp4 hv.listed, fun b hb => ?_⟩).mono
    fun r t hr => hr.2.allAtRest fun v hv => hv
  simp [ClipFiles.set] at hb

/-! ### A delivery -/

/-- A delivery that has recorded the outcome. -/
def Closing (v : ClipFiles) : Prop :=
  ∃ b, v.inflightSidecar = some b ∧ ¬ClipFiles.Unfinished b

/-- A delivery that has unlinked the media. -/
structure Unlinked (v : ClipFiles) : Prop where
  inflightMp4 : v.inflightMp4 = none
  closing : Closing v

theorem Closing.captureMove {m : UInt64} {new : Prop} {v w : ClipFiles} (h : Closing v)
    (hm : CaptureMove m new c v w) : Closing w := by
  obtain ⟨b, hb, ho⟩ := h
  exact ⟨b, hm.inflight.2.trans hb, ho⟩

theorem Unlinked.captureMove {m : UInt64} {new : Prop} {v w : ClipFiles} (h : Unlinked v)
    (hm : CaptureMove m new c v w) : Unlinked w :=
  ⟨hm.inflight.1.trans h.inflightMp4, h.closing.captureMove hm⟩

theorem Closing.listed {v : ClipFiles} (h : Closing v) : ¬v.Unlisted := by
  obtain ⟨b, hb, -⟩ := h
  intro hu
  simp [hu.inflightSidecar] at hb

theorem runner_delivered {e : ClipQueueEntry} (hrest : AllAtRest fs)
    (hlegal : LegalQueue n new fs) (hready : (RunnerOp.delivered e).Ready fs) :
    RunnerUpholds n new (fun _ t => AllAtRest t) (RunnerOp.delivered e).prog fs := by
  obtain ⟨old, hold, hsize, hdone⟩ := hready
  have his : (filesOf fs e.clipId).inflightSidecar = some (.sidecar old) := hold
  obtain ⟨e', he, -, hn⟩ := (hlegal e.clipId).inflightRecord _ his
  cases he
  obtain ⟨hm, hp, ho⟩ := hrest e.clipId _ his
  have hstart : Working e.clipId ToReturn fs := ⟨fun c' _ => hrest c', hm, hp, _, his, ho⟩
  have hclosed : ¬ClipFiles.Unfinished (.sidecar e) := by
    rintro ⟨e', he, hopen⟩
    cases he
    simp [hdone] at hopen
  refine (runner_writeSidecarAtomic (B := Closing) hstart
    (fun v hv hu => hv.inflightMp4 hu.inflightMp4) (fun v w hv hm => hv.captureMove hm)
    fun v hv _ => ?_).bind fun r t hr => ?_
  · obtain ⟨b, hb, -⟩ := hv.inflightSidecar
    exact ⟨.close hv.inflightMp4 (by simp [hb]) hv.pendingSidecar ⟨e, rfl, rfl, hsize.trans hn⟩,
      _, rfl, hclosed⟩
  -- the sidecar is closed; now the media goes
  obtain ⟨rfl, ht⟩ := hr
  refine (runner_removeIfExists (B := Unlinked) ht (fun v hv => hv.listed)
    (fun v w hv hm => hv.captureMove hm) fun v hv _ => ?_).bind fun r s hr => ?_
  · obtain ⟨b, hb, ho⟩ := hv
    exact ⟨.dropMedia hb ho, rfl, b, hb, ho⟩
  -- last the sidecar is moved
  obtain ⟨rfl, hs⟩ := hr
  refine runner_request hs (fun v w hv hm => hv.captureMove hm) fun t v u ha hl hv => ?_
  obtain ⟨b, hb, ho⟩ := ha.own.closing
  have hget : t.get (.sidecar .inflight e.clipId) = some b := hb
  simp only [Nominal, hget] at hv
  obtain ⟨rfl, rfl⟩ := hv
  have hd : DifferIn e.clipId t
      ((t.del (.sidecar .inflight e.clipId)).put (.sidecar .delivered e.clipId) b) :=
    differIn_del.trans differIn_put
  have hfiles : filesOf
      ((t.del (.sidecar .inflight e.clipId)).put (.sidecar .delivered e.clipId) b) e.clipId =
        { filesOf t e.clipId with inflightSidecar := none, deliveredSidecar := some b } := by
    rw [filesOf_put_self, filesOf_del_self]
    rfl
  refine ⟨runnerStep_of hd ha.own.closing.listed
    (Or.inr (hfiles.symm ▸ .settle hb ho ha.own.inflightMp4)), upholds_pure ?_⟩
  have hend : Working e.clipId ClipFiles.AtRest
      ((t.del (.sidecar .inflight e.clipId)).put (.sidecar .delivered e.clipId) b) :=
    ha.step hd (hfiles.symm ▸ fun b hb => by simp at hb)
  exact hend.allAtRest fun v hv => hv

/-- A transition that the runner may start keeps to the runner's moves and leaves every clip at
rest. -/
theorem runner_upholds {op : RunnerOp} (hrest : AllAtRest fs) (hlegal : LegalQueue n new fs)
    (hready : op.Ready fs) : RunnerUpholds n new (fun _ t => AllAtRest t) op.prog fs := by
  cases op with
  | inflight e now => exact runner_inflight hrest hlegal hready
  | backToPending e => exact runner_backToPending hrest hlegal hready
  | delivered e => exact runner_delivered hrest hlegal hready

end Upholds

end Perchstation
