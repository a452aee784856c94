import Perchstation.Queue.Store

/-!
# Store rules — what the transitions do to the files

Without faults every transition is deterministic: its rule names the result and the store it leaves.
The rules for a stop list the stores in between.
-/

namespace Perchstation

open Resumption QueueStore

/-- The file is a clip's media or sidecar, not a temporary. -/
def Ext.IsMain (x : Ext) : Prop := x = .mp4 ∨ x = .json

/-- The two stores have the same media and sidecars of the clip `c`. -/
def SameClip (fs t : Fs) (c : ClipId) : Prop :=
  ∀ d x, x.IsMain → t.get (.queue d c x) = fs.get (.queue d c x)

namespace SameClip

variable {fs t u : Fs} {c : ClipId}

theorem refl (fs : Fs) (c : ClipId) : SameClip fs fs c := fun _ _ _ => rfl

theorem trans (h : SameClip fs t c) (h' : SameClip t u c) : SameClip fs u c :=
  fun d x hx => (h' d x hx).trans (h d x hx)

theorem symm (h : SameClip fs t c) : SameClip t fs c := fun d x hx => (h d x hx).symm

theorem media (h : SameClip fs t c) (d : Dir) : t.get (.queue d c .mp4) = fs.get (.queue d c .mp4) :=
  h d .mp4 (Or.inl rfl)

theorem sidecar (h : SameClip fs t c) (d : Dir) :
    t.get (.queue d c .json) = fs.get (.queue d c .json) :=
  h d .json (Or.inr rfl)

end SameClip

section Records

variable {e : ClipQueueEntry} {at_ : DateTime}

@[simp] theorem startAttempt_clipId : (startAttempt e at_).clipId = e.clipId := rfl
@[simp] theorem startAttempt_outcome : (startAttempt e at_).outcome = e.outcome := rfl
@[simp] theorem startAttempt_attempts :
    (startAttempt e at_).attempts = saturatingAdd32 e.attempts 1 := rfl

@[simp] theorem requeued_clipId : (requeued e).clipId = e.clipId := rfl
@[simp] theorem requeued_outcome : (requeued e).outcome = e.outcome := rfl
@[simp] theorem requeued_attempts : (requeued e).attempts = e.attempts := rfl

end Records

/-! ## The stores the transitions leave -/

/-- The sidecar of `c` in `d` written through its temporary. -/
def replaceSidecar (fs : Fs) (d : Dir) (c : ClipId) (e : ClipQueueEntry) : Fs :=
  ((fs.put (.queue d c .jsonTmp) (.sidecar e)).del (.queue d c .jsonTmp)).put (.queue d c .json)
    (.sidecar e)

/-- The media of `c` renamed from `d` to `d'`. -/
def moveMedia (fs : Fs) (d d' : Dir) (c : ClipId) (m : Blob) : Fs :=
  (fs.del (.queue d c .mp4)).put (.queue d' c .mp4) m

/-- The store after `transitionInflight`, for the media `m` and the updated sidecar `e`. -/
def movedInflight (fs : Fs) (m : Blob) (e : ClipQueueEntry) : Fs :=
  (replaceSidecar (moveMedia fs .pending .inflight e.clipId m) .inflight e.clipId e).del
    (.queue .pending e.clipId .json)

/-- The store after the media half of `transitionBackToPending`. -/
def mediaReturned (fs : Fs) (c : ClipId) : Fs :=
  match fs.get (.queue .inflight c .mp4) with
  | none => fs
  | some m => moveMedia fs .inflight .pending c m

/-- The store after `transitionBackToPending`. -/
def movedBack (fs : Fs) (e : ClipQueueEntry) : Fs :=
  (replaceSidecar (mediaReturned fs e.clipId) .pending e.clipId e).del
    (.queue .inflight e.clipId .json)

/-- The store after `transitionDelivered`. -/
def movedDelivered (fs : Fs) (e : ClipQueueEntry) : Fs :=
  (((replaceSidecar fs .inflight e.clipId e).del (.queue .inflight e.clipId .mp4)).del
    (.queue .inflight e.clipId .json)).put (.queue .delivered e.clipId .json) (.sidecar e)

/-- The store after `enqueueWithId` of the source `n` with the contents `m`. -/
def enqueued (fs : Fs) (n : String) (m : Blob) (e : ClipQueueEntry) : Fs :=
  replaceSidecar ((fs.del (.source n)).put (.queue .pending e.clipId .mp4) m) .pending e.clipId e

section Contents

variable {fs : Fs} {c c' : ClipId} {d d' : Dir} {x : Ext} {m : Blob} {e : ClipQueueEntry}

theorem get_replaceSidecar (p : Path) :
    (replaceSidecar fs d c e).get p =
      if p = .queue d c .json then some (.sidecar e)
      else if p = .queue d c .jsonTmp then none else fs.get p := by
  unfold replaceSidecar
  rw [FileMap.get_put, FileMap.get_del, FileMap.get_put]
  split_ifs <;> rfl

@[simp] theorem get_replaceSidecar_self :
    (replaceSidecar fs d c e).get (.queue d c .json) = some (.sidecar e) := by
  rw [get_replaceSidecar, if_pos rfl]

/-- The other sidecars stay. -/
theorem get_replaceSidecar_other (h : ¬(d' = d ∧ c' = c)) :
    (replaceSidecar fs d c e).get (.queue d' c' .json) = fs.get (.queue d' c' .json) := by
  rw [get_replaceSidecar, if_neg, if_neg (by simp)]
  rintro ⟨⟩
  exact h ⟨rfl, rfl⟩

theorem get_moveMedia (p : Path) :
    (moveMedia fs d d' c m).get p =
      if p = .queue d' c .mp4 then some m
      else if p = .queue d c .mp4 then none else fs.get p := by
  unfold moveMedia
  rw [FileMap.get_put, FileMap.get_del]

theorem sameClip_put_tmp {b : Blob} : SameClip fs (fs.put (.queue d c .jsonTmp) b) c' := by
  rintro d' x (rfl | rfl) <;> simp [FileMap.get_put]

theorem sameClip_replaceSidecar (h : c' ≠ c) : SameClip fs (replaceSidecar fs d c e) c' := by
  rintro d' x (rfl | rfl) <;> simp [get_replaceSidecar, h]

theorem sameClip_moveMedia (h : c' ≠ c) : SameClip fs (moveMedia fs d d' c m) c' := by
  rintro d' x (rfl | rfl) <;> simp [get_moveMedia, h]

theorem sameClip_del (h : c' ≠ c) : SameClip fs (fs.del (.queue d c x)) c' := by
  rintro d' x (rfl | rfl) <;> simp [FileMap.get_del, h]

theorem sameClip_put (h : c' ≠ c) : SameClip fs (fs.put (.queue d c x) m) c' := by
  rintro d' x (rfl | rfl) <;> simp [FileMap.get_put, h]

theorem sameClip_mediaReturned (h : c' ≠ c) : SameClip fs (mediaReturned fs c) c' := by
  unfold mediaReturned
  split
  · exact SameClip.refl _ _
  · exact sameClip_moveMedia h

theorem sameClip_movedInflight (h : c' ≠ e.clipId) : SameClip fs (movedInflight fs m e) c' :=
  ((sameClip_moveMedia h).trans (sameClip_replaceSidecar h)).trans (sameClip_del h)

theorem sameClip_movedBack (h : c' ≠ e.clipId) : SameClip fs (movedBack fs e) c' :=
  ((sameClip_mediaReturned h).trans (sameClip_replaceSidecar h)).trans (sameClip_del h)

theorem sameClip_movedDelivered (h : c' ≠ e.clipId) : SameClip fs (movedDelivered fs e) c' :=
  (((sameClip_replaceSidecar h).trans (sameClip_del h)).trans (sameClip_del h)).trans
    (sameClip_put h)

theorem get_enqueued {n : String} (p : Path) :
    (enqueued fs n m e).get p =
      if p = .queue .pending e.clipId .json then some (.sidecar e)
      else if p = .queue .pending e.clipId .jsonTmp then none
      else if p = .queue .pending e.clipId .mp4 then some m
      else if p = .source n then none else fs.get p := by
  rw [enqueued, get_replaceSidecar, FileMap.get_put, FileMap.get_del]

theorem sameClip_enqueued {n : String} (h : c' ≠ e.clipId) : SameClip fs (enqueued fs n m e) c' := by
  rintro d' x (rfl | rfl) <;> simp [get_enqueued, h]

end Contents

/-! ## Complete runs -/

section Runs

variable {fs t : Fs} {c : ClipId} {d : Dir} {e : ClipQueueEntry} {at_ : DateTime}

theorem runs_writeSidecarAtomic {v : Except QueueError Unit} :
    Runs Nominal (writeSidecarAtomic (.queue d c .json) e) fs v t ↔
      v = .ok () ∧ t = replaceSidecar fs d c e := by
  simp [writeSidecarAtomic, runs_bind, Nominal, FileMap.get_put, Path.withExtension, replaceSidecar]

theorem runs_removeIfExists {p : Path} {v : Except QueueError Unit} :
    Runs Nominal (removeIfExists p) fs v t ↔ v = .ok () ∧ t = fs.del p := by
  simp only [removeIfExists, runs_bind, runs_removeFile, Nominal]
  cases h : fs.get p with
  | none => simp [FileMap.del_of_get_none h]
  | some b => simp

theorem runs_transitionInflight {v : Except QueueError ClipQueueEntry} :
    Runs Nominal (transitionInflight e at_) fs v t ↔
      (fs.get (.queue .pending e.clipId .mp4) = none ∧
          v = .error (.missingMedia e.clipId) ∧ t = fs) ∨
        ∃ m, fs.get (.queue .pending e.clipId .mp4) = some m ∧
          v = .ok (startAttempt e at_) ∧ t = movedInflight fs m (startAttempt e at_) := by
  simp only [transitionInflight, runs_bind, runs_rename, Nominal]
  cases h : fs.get (.queue .pending e.clipId .mp4) with
  | none => simp
  | some m =>
    simp [runs_bind, runs_writeSidecarAtomic, runs_removeIfExists, movedInflight, moveMedia,
      startAttempt]

theorem runs_returnMedia {v : Except QueueError Unit} :
    Runs Nominal (returnMedia (.queue .inflight c .mp4) (.queue .pending c .mp4)) fs v t ↔
      v = .ok () ∧ t = mediaReturned fs c := by
  simp only [returnMedia, runs_bind, runs_fileExists, Nominal, mediaReturned]
  cases h : fs.get (.queue .inflight c .mp4) with
  | none => simp
  | some m => simp [runs_bind, Nominal, h, moveMedia]

theorem runs_transitionBackToPending {v : Except QueueError Unit} :
    Runs Nominal (transitionBackToPending e) fs v t ↔ v = .ok () ∧ t = movedBack fs e := by
  simp [transitionBackToPending, runs_bind, runs_returnMedia, runs_writeSidecarAtomic,
    runs_removeIfExists, movedBack]

theorem runs_transitionDelivered {v : Except QueueError Unit} :
    Runs Nominal (transitionDelivered e) fs v t ↔ v = .ok () ∧ t = movedDelivered fs e := by
  simp [transitionDelivered, runs_bind, runs_writeSidecarAtomic, runs_removeIfExists, Nominal,
    FileMap.get_del, get_replaceSidecar, movedDelivered]

theorem runs_quarantineOrphan {v : Except QueueError Unit} :
    Runs Nominal (quarantineOrphan c) fs v t ↔
      v = .ok () ∧ t = (fs.del (.queue .pending c .json)).del (.queue .pending c .mp4) := by
  simp [quarantineOrphan, runs_bind, runs_removeIfExists]

/-- An enqueue without faults fails only if there is no source file. -/
theorem runs_enqueueWithId {n : String} {clipMeta : ClipMeta}
    {v : Except QueueError ClipQueueEntry} :
    Runs Nominal (enqueueWithId c (.source n) clipMeta) fs v t ↔
      (fs.get (.source n) = none ∧ v = .error (.io (.source n) .notFound) ∧ t = fs) ∨
        ∃ m len at_, fs.get (.source n) = some m ∧ m.HasLen len ∧
          v = .ok (.new c clipMeta.capturedAt at_ len) ∧
          t = enqueued fs n m (.new c clipMeta.capturedAt at_ len) := by
  simp only [enqueueWithId, placeMedia, runs_bind, runs_metadata, Nominal]
  cases h : fs.get (.source n) with
  | none => simp
  | some m =>
    simp [runs_bind, Nominal, h, runs_writeSidecarAtomic, ClipQueueEntry.new, enqueued]

/-- What `readSidecar` answers. -/
def sidecarAt (fs : Fs) (p : Path) : Except QueueError ClipQueueEntry :=
  match fs.get p with
  | none => .error (.io p .notFound)
  | some (.sidecar e) => .ok e
  | some (.bytes _) => .error (.deserialise p)

/-- A sidecar is absent, decodes, or does not. -/
theorem sidecarAt_cases (fs : Fs) (p : Path) :
    (fs.get p = none ∧ sidecarAt fs p = .error (.io p .notFound)) ∨
      (∃ e, fs.get p = some (.sidecar e) ∧ sidecarAt fs p = .ok e) ∨
      ∃ data, fs.get p = some (.bytes data) ∧ sidecarAt fs p = .error (.deserialise p) := by
  unfold sidecarAt
  rcases fs.get p with _ | _ | _ <;> simp

theorem sidecarAt_eq_ok_iff {p : Path} :
    sidecarAt fs p = .ok e ↔ fs.get p = some (.sidecar e) := by
  unfold sidecarAt
  rcases fs.get p with _ | _ | _ <;> simp

theorem runs_readSidecar {p : Path} {v : Except QueueError ClipQueueEntry} :
    Runs Nominal (readSidecar p) fs v t ↔ v = sidecarAt fs p ∧ t = fs := by
  simp only [readSidecar, runs_bind, runs_read, Nominal, sidecarAt]
  rcases h : fs.get p with _ | _ | _ <;> simp [Blob.decode, and_comm]

end Runs

/-! ## Stops -/

section Stops

variable {fs t : Fs} {c : ClipId} {d : Dir} {e : ClipQueueEntry} {at_ : DateTime}

theorem reaches_writeSidecarAtomic :
    Reaches Nominal (writeSidecarAtomic (.queue d c .json) e) fs t ↔
      t = fs ∨ t = fs.put (.queue d c .jsonTmp) (.sidecar e) ∨ t = replaceSidecar fs d c e := by
  simp only [writeSidecarAtomic, Path.withExtension, reaches_bind, reaches_write, runs_write, Nominal]
  simp [reaches_bind, Nominal, FileMap.get_put, replaceSidecar]
  tauto

theorem reaches_removeIfExists {p : Path} :
    Reaches Nominal (removeIfExists p) fs t ↔ t = fs ∨ t = fs.del p := by
  simp only [removeIfExists, reaches_bind, reaches_removeFile, runs_removeFile, Nominal]
  cases h : fs.get p with
  | none => simp [FileMap.del_of_get_none h]
  | some b => simp

theorem reaches_readSidecar {p : Path} : Reaches Nominal (readSidecar p) fs t ↔ t = fs := by
  simp only [readSidecar, reaches_bind, reaches_read, runs_read, Nominal]
  rcases h : fs.get p with _ | _ | _ <;> simp [Blob.decode]

/-- The stores in which `transitionInflight` may be stopped. -/
theorem reaches_transitionInflight (h : Reaches Nominal (transitionInflight e at_) fs t) :
    t = fs ∨ ∃ m, fs.get (.queue .pending e.clipId .mp4) = some m ∧
      ∃ u, u = moveMedia fs .pending .inflight e.clipId m ∧
        (t = u ∨ t = u.put (.queue .inflight e.clipId .jsonTmp) (.sidecar (startAttempt e at_)) ∨
          t = replaceSidecar u .inflight e.clipId (startAttempt e at_) ∨
          t = movedInflight fs m (startAttempt e at_)) := by
  simp only [transitionInflight, reaches_bind, reaches_rename, runs_rename, Nominal] at h
  cases hm : fs.get (.queue .pending e.clipId .mp4) with
  | none => exact Or.inl (by simpa [hm] using h)
  | some m =>
    simp [hm, reaches_bind, reaches_writeSidecarAtomic, runs_writeSidecarAtomic,
      reaches_removeIfExists, runs_removeIfExists] at h
    rcases h with (h | h) | (h | h | h) | h | h
    · exact Or.inl h
    · exact Or.inr ⟨m, rfl, _, rfl, Or.inl h⟩
    · exact Or.inr ⟨m, rfl, _, rfl, Or.inl h⟩
    · exact Or.inr ⟨m, rfl, _, rfl, Or.inr (Or.inl h)⟩
    · exact Or.inr ⟨m, rfl, _, rfl, Or.inr (Or.inr (Or.inl h))⟩
    · exact Or.inr ⟨m, rfl, _, rfl, Or.inr (Or.inr (Or.inl h))⟩
    · exact Or.inr ⟨m, rfl, _, rfl, Or.inr (Or.inr (Or.inr h))⟩

theorem reaches_returnMedia :
    Reaches Nominal (returnMedia (.queue .inflight c .mp4) (.queue .pending c .mp4)) fs t ↔
      t = fs ∨ t = mediaReturned fs c := by
  simp only [returnMedia, reaches_bind, reaches_fileExists, runs_fileExists, Nominal, mediaReturned]
  cases h : fs.get (.queue .inflight c .mp4) with
  | none => simp
  | some m =>
    simp [reaches_bind, Nominal, h, moveMedia]

/-- The stores in which `transitionBackToPending` may be stopped. -/
theorem reaches_transitionBackToPending (h : Reaches Nominal (transitionBackToPending e) fs t) :
    t = fs ∨ ∃ u, u = mediaReturned fs e.clipId ∧
      (t = u ∨ t = u.put (.queue .pending e.clipId .jsonTmp) (.sidecar e) ∨
        t = replaceSidecar u .pending e.clipId e ∨ t = movedBack fs e) := by
  simp [transitionBackToPending, reaches_bind, reaches_returnMedia, runs_returnMedia,
    reaches_writeSidecarAtomic, runs_writeSidecarAtomic, reaches_removeIfExists] at h
  rcases h with (h | h) | (h | h | h) | h | h
  · exact Or.inl h
  · exact Or.inr ⟨_, rfl, Or.inl h⟩
  · exact Or.inr ⟨_, rfl, Or.inl h⟩
  · exact Or.inr ⟨_, rfl, Or.inr (Or.inl h)⟩
  · exact Or.inr ⟨_, rfl, Or.inr (Or.inr (Or.inl h))⟩
  · exact Or.inr ⟨_, rfl, Or.inr (Or.inr (Or.inl h))⟩
  · exact Or.inr ⟨_, rfl, Or.inr (Or.inr (Or.inr h))⟩

/-- The stores in which `transitionDelivered` may be stopped. -/
theorem reaches_transitionDelivered (h : Reaches Nominal (transitionDelivered e) fs t) :
    t = fs ∨ t = fs.put (.queue .inflight e.clipId .jsonTmp) (.sidecar e) ∨
      ∃ u, u = replaceSidecar fs .inflight e.clipId e ∧
        (t = u ∨ t = u.del (.queue .inflight e.clipId .mp4) ∨ t = movedDelivered fs e) := by
  simp [transitionDelivered, reaches_bind, reaches_writeSidecarAtomic, runs_writeSidecarAtomic,
    reaches_removeIfExists, runs_removeIfExists, Nominal, FileMap.get_del,
    get_replaceSidecar] at h
  rcases h with (h | h | h) | (h | h) | h | h
  · exact Or.inl h
  · exact Or.inr (Or.inl h)
  · exact Or.inr (Or.inr ⟨_, rfl, Or.inl h⟩)
  · exact Or.inr (Or.inr ⟨_, rfl, Or.inl h⟩)
  · exact Or.inr (Or.inr ⟨_, rfl, Or.inr (Or.inl h)⟩)
  · exact Or.inr (Or.inr ⟨_, rfl, Or.inr (Or.inl h)⟩)
  · exact Or.inr (Or.inr ⟨_, rfl, Or.inr (Or.inr h)⟩)

/-- The stores in which `enqueueWithId` may be stopped. -/
theorem reaches_enqueueWithId {n : String} {clipMeta : ClipMeta}
    (h : Reaches Nominal (enqueueWithId c (.source n) clipMeta) fs t) :
    t = fs ∨ ∃ m, fs.get (.source n) = some m ∧
      ∃ u, u = (fs.del (.source n)).put (.queue .pending c .mp4) m ∧
        (t = u ∨ ∃ at_ len, t = u.put (.queue .pending c .jsonTmp)
            (.sidecar (.new c clipMeta.capturedAt at_ len)) ∨
          t = enqueued fs n m (.new c clipMeta.capturedAt at_ len)) := by
  simp only [enqueueWithId, placeMedia, reaches_bind, reaches_metadata, runs_metadata, Nominal] at h
  cases hm : fs.get (.source n) with
  | none => exact Or.inl (by simpa [hm] using h)
  | some m =>
    simp [hm, reaches_bind, runs_bind, Nominal, reaches_writeSidecarAtomic,
      runs_writeSidecarAtomic] at h
    rcases h with (h | ⟨h, -⟩) | ⟨len, -, (h | h) | (h | ⟨-, h⟩) | ⟨at_, (h | h | h) | h⟩⟩
    · exact Or.inl h
    · exact Or.inl h
    · exact Or.inl h
    · exact Or.inr ⟨m, rfl, _, rfl, Or.inl h⟩
    · exact Or.inr ⟨m, rfl, _, rfl, Or.inl h⟩
    · exact Or.inr ⟨m, rfl, _, rfl, Or.inl h⟩
    · exact Or.inr ⟨m, rfl, _, rfl, Or.inl h⟩
    · exact Or.inr ⟨m, rfl, _, rfl, Or.inr ⟨at_, len, Or.inl h⟩⟩
    · exact Or.inr ⟨m, rfl, _, rfl, Or.inr ⟨at_, len, Or.inr h⟩⟩
    · exact Or.inr ⟨m, rfl, _, rfl, Or.inr ⟨at_, len, Or.inr h⟩⟩

end Stops

end Perchstation
