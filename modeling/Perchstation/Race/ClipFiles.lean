import Perchstation.World

/-!
# Clip files — the life of one clip in the queue

The files a clip has in the three directories, and what can become of them: the moves of the
delivery runner (a hand-off, a return, a delivery, request by request), of a sweep that evicts the
clip, and of the submission that brings it in.  `Legal` holds of a clip whenever only these moves
are made.
-/

namespace Perchstation

/-- The media and the sidecar a clip has in each directory. -/
@[ext] structure ClipFiles where
  pendingMp4 : Option Blob
  pendingSidecar : Option Blob
  inflightMp4 : Option Blob
  inflightSidecar : Option Blob
  deliveredMp4 : Option Blob
  deliveredSidecar : Option Blob

namespace ClipFiles

variable {c : ClipId} {n : UInt64} {new : Prop} {v w : ClipFiles}

/-- The contents are a sidecar of the clip `c`, which has `n` bytes. -/
def RecordOf (c : ClipId) (n : UInt64) (b : Blob) : Prop :=
  ∃ e, b = .sidecar e ∧ e.clipId = c ∧ e.byteSize = n

/-- The contents are a sidecar without an outcome. -/
def Unfinished (b : Blob) : Prop := ∃ e, b = .sidecar e ∧ e.isTerminal = false

/-- The contents are `n` bytes that are no sidecar. -/
def Footage (n : UInt64) (b : Blob) : Prop := ∃ data, b = .bytes data ∧ data.length = n.toNat

/-- Media somewhere. -/
def HasMedia (v : ClipFiles) : Prop := v.pendingMp4 ≠ none ∨ v.inflightMp4 ≠ none

/-- A file somewhere. -/
def Stored (v : ClipFiles) : Prop :=
  v.pendingMp4 ≠ none ∨ v.pendingSidecar ≠ none ∨ v.inflightMp4 ≠ none ∨
    v.inflightSidecar ≠ none ∨ v.deliveredMp4 ≠ none ∨ v.deliveredSidecar ≠ none

/-- No sidecar yet, and nothing in `inflight/`. -/
structure Unlisted (v : ClipFiles) : Prop where
  pendingSidecar : v.pendingSidecar = none
  inflightMp4 : v.inflightMp4 = none
  inflightSidecar : v.inflightSidecar = none
  deliveredSidecar : v.deliveredSidecar = none

/-- Nothing left, but for a sidecar in `inflight/` that a return to `pending/` is about to drop. -/
structure Buried (v : ClipFiles) : Prop where
  pendingMp4 : v.pendingMp4 = none
  pendingSidecar : v.pendingSidecar = none
  inflightMp4 : v.inflightMp4 = none
  deliveredMp4 : v.deliveredMp4 = none
  deliveredSidecar : v.deliveredSidecar = none
  unfinished : ∀ b, v.inflightSidecar = some b → Unfinished b

/-- No operation of the runner is under way: what is in `inflight/` is a whole unfinished pair. -/
def AtRest (v : ClipFiles) : Prop :=
  ∀ b, v.inflightSidecar = some b → v.inflightMp4 ≠ none ∧ v.pendingSidecar = none ∧ Unfinished b

/-- What holds of the clip `c` of `n` bytes at any time; `new` if its submission is under way. -/
structure Legal (c : ClipId) (n : UInt64) (new : Prop) (v : ClipFiles) : Prop where
  pendingRecord : ∀ b, v.pendingSidecar = some b → RecordOf c n b
  pendingUnfinished : ∀ b, v.pendingSidecar = some b → Unfinished b
  inflightRecord : ∀ b, v.inflightSidecar = some b → RecordOf c n b
  deliveredRecord : ∀ b, v.deliveredSidecar = some b → RecordOf c n b
  pendingFootage : ∀ b, v.pendingMp4 = some b → Footage n b
  inflightFootage : ∀ b, v.inflightMp4 = some b → Footage n b
  oneMedia : v.pendingMp4 = none ∨ v.inflightMp4 = none
  noDelivered : v.deliveredMp4 = none
  closed : v.deliveredSidecar ≠ none → v.pendingMp4 = none ∧ v.pendingSidecar = none ∧
    v.inflightMp4 = none ∧ v.inflightSidecar = none
  closing : ∀ b, v.inflightSidecar = some b → ¬Unfinished b →
    v.pendingMp4 = none ∧ v.pendingSidecar = none
  pendingListed : v.pendingMp4 ≠ none →
    new ∨ v.pendingSidecar ≠ none ∨ v.inflightSidecar ≠ none
  inflightListed : v.inflightMp4 ≠ none → v.pendingSidecar ≠ none ∨ v.inflightSidecar ≠ none

/-- What a request of the delivery runner does to the clip. -/
inductive RunnerMove (c : ClipId) (n : UInt64) : ClipFiles → ClipFiles → Prop
  -- a hand-off
  | takeMedia {v : ClipFiles} {m : Blob} : v.pendingMp4 = some m → v.pendingSidecar ≠ none →
      v.inflightSidecar = none →
      RunnerMove c n v { v with pendingMp4 := none, inflightMp4 := some m }
  | placeInflight {v : ClipFiles} {b : Blob} : v.inflightMp4 ≠ none → v.pendingSidecar ≠ none →
      RecordOf c n b → Unfinished b → RunnerMove c n v { v with inflightSidecar := some b }
  | dropPending {v : ClipFiles} : v.inflightMp4 ≠ none → v.inflightSidecar ≠ none →
      RunnerMove c n v { v with pendingSidecar := none }
  -- a return to `pending/`
  | returnMedia {v : ClipFiles} {m b : Blob} : v.inflightMp4 = some m →
      v.inflightSidecar = some b → Unfinished b → v.pendingSidecar = none →
      RunnerMove c n v { v with pendingMp4 := some m, inflightMp4 := none }
  | placePending {v : ClipFiles} {b : Blob} : v.pendingMp4 ≠ none → v.inflightSidecar ≠ none →
      RecordOf c n b → Unfinished b → RunnerMove c n v { v with pendingSidecar := some b }
  | dropInflight {v : ClipFiles} : v.inflightMp4 = none →
      (v.pendingMp4 ≠ none → v.pendingSidecar ≠ none) →
      RunnerMove c n v { v with inflightSidecar := none }
  -- a delivery
  | close {v : ClipFiles} {b : Blob} : v.inflightMp4 ≠ none → v.inflightSidecar ≠ none →
      v.pendingSidecar = none → RecordOf c n b →
      RunnerMove c n v { v with inflightSidecar := some b }
  | dropMedia {v : ClipFiles} {b : Blob} : v.inflightSidecar = some b → ¬Unfinished b →
      RunnerMove c n v { v with inflightMp4 := none }
  | settle {v : ClipFiles} {b : Blob} : v.inflightSidecar = some b → ¬Unfinished b →
      v.inflightMp4 = none →
      RunnerMove c n v { v with inflightSidecar := none, deliveredSidecar := some b }

/-- What a request of a sweep does to the clip. -/
inductive SweepMove : ClipFiles → ClipFiles → Prop
  | dropMedia {v : ClipFiles} : v.pendingSidecar ≠ none →
      SweepMove v { v with pendingMp4 := none }
  | dropPending {v : ClipFiles} : v.pendingMp4 = none → v.inflightMp4 = none →
      SweepMove v { v with pendingSidecar := none }
  | dropDelivered {v : ClipFiles} : SweepMove v { v with deliveredSidecar := none }

/-- What a request of its submission does to the clip. -/
inductive SubmitMove (c : ClipId) (n : UInt64) : ClipFiles → ClipFiles → Prop
  | place {v : ClipFiles} {m : Blob} : v.Unlisted → Footage n m →
      SubmitMove c n v { v with pendingMp4 := some m }
  | list {v : ClipFiles} {b : Blob} : v.Unlisted → v.pendingMp4 ≠ none → RecordOf c n b →
      Unfinished b → SubmitMove c n v { v with pendingSidecar := some b }

/-! ## The moves keep a clip legal -/

theorem Legal.runnerMove (h : v.Legal c n new) (hm : RunnerMove c n v w) : w.Legal c n new := by
  obtain ⟨h1, h2, h3, h4, h5, h6, h7, h8, h9, h10, h11, h12⟩ := h
  cases hm with
  | takeMedia hm hs hi => constructor <;> grind
  | placeInflight hm hs hb ho => constructor <;> grind
  | dropPending hm hs => constructor <;> grind
  | returnMedia hm hi ho hp => constructor <;> grind
  | placePending hm hi hb ho => constructor <;> grind
  | dropInflight hm hl => constructor <;> grind
  | close hm hi hp hb => constructor <;> grind
  | dropMedia hi ho => constructor <;> grind
  | settle hi ho hm => constructor <;> grind

theorem Legal.sweepMove (h : v.Legal c n new) (hm : SweepMove v w) : w.Legal c n new := by
  obtain ⟨h1, h2, h3, h4, h5, h6, h7, h8, h9, h10, h11, h12⟩ := h
  cases hm with
  | dropMedia hs => constructor <;> grind
  | dropPending hp hi => constructor <;> grind
  | dropDelivered => constructor <;> grind

theorem Legal.submitMove (h : v.Legal c n new) (hnew : new) (hm : SubmitMove c n v w) :
    w.Legal c n new := by
  obtain ⟨h1, h2, h3, h4, h5, h6, h7, h8, h9, h10, h11, h12⟩ := h
  cases hm with
  | place hu hf =>
    obtain ⟨u1, u2, u3, u4⟩ := hu
    constructor <;> grind
  | list hu hp hb ho =>
    obtain ⟨u1, u2, u3, u4⟩ := hu
    constructor <;> grind

/-! ## What the moves cannot do -/

/-- Where the sidecars of a clip come from when the runner makes a request: each directory gets one
only while the directory it comes from has one too, and none leaves `delivered/`. -/
structure Onward (v w : ClipFiles) : Prop where
  inflight : w.inflightSidecar ≠ none → v.inflightSidecar ≠ none ∨ v.pendingSidecar ≠ none
  pending : w.pendingSidecar ≠ none → v.pendingSidecar ≠ none ∨ v.inflightSidecar ≠ none
  delivered : w.deliveredSidecar ≠ none →
    v.deliveredSidecar ≠ none ∨ (v.inflightSidecar ≠ none ∧ v.pendingSidecar = none)
  keepsDelivered : v.deliveredSidecar ≠ none → w.deliveredSidecar ≠ none

theorem Onward.refl (v : ClipFiles) : Onward v v := ⟨Or.inl, Or.inl, Or.inl, id⟩

/-- Between the two removals of an eviction from `pending/`: the media is gone, the sidecar not. -/
structure Dying (v : ClipFiles) : Prop where
  pendingSidecar : v.pendingSidecar ≠ none
  pendingMp4 : v.pendingMp4 = none
  inflightMp4 : v.inflightMp4 = none

namespace RunnerMove

theorem onward (h : RunnerMove c n v w) (hl : v.Legal c n new) : Onward v w := by
  cases h with
  | settle hi ho hm =>
    have hps := (hl.closing _ hi ho).2
    constructor <;> grind
  | _ => constructor <;> grind

/-- A clip without media is not for the runner. -/
theorem dying (h : RunnerMove c n v w) (hl : v.Legal c n new) (hv : v.Dying) : w.Dying := by
  obtain ⟨h1, h2, h3⟩ := hv
  have hclosing := hl.closing
  cases h <;> constructor <;> grind

theorem stored (h : RunnerMove c n v w) (hw : w.Stored) : v.Stored := by
  unfold Stored at hw ⊢
  cases h <;> grind

theorem hasMedia (h : RunnerMove c n v w) (hw : w.HasMedia) : v.HasMedia := by
  unfold HasMedia at hw ⊢
  cases h <;> grind

/-- A clip without a sidecar and without files in `inflight/` is not for the runner. -/
theorem unlisted (h : RunnerMove c n v w) (hv : v.Unlisted) : w = v := by
  obtain ⟨h1, h2, h3, h4⟩ := hv
  cases h with
  | dropInflight hm hl => exact ClipFiles.ext rfl rfl rfl h3.symm rfl rfl
  | _ => simp_all

/-- A clip whose files are gone stays gone. -/
theorem buried (h : RunnerMove c n v w) (hv : v.Buried) : w.Buried := by
  obtain ⟨h1, h2, h3, h4, h5, h6⟩ := hv
  cases h with
  | dropInflight hm hl => exact ⟨h1, h2, h3, h4, h5, fun b hb => by simp at hb⟩
  | dropMedia hi ho => exact (ho (h6 _ hi)).elim
  | settle hi ho hm => exact (ho (h6 _ hi)).elim
  | _ => grind

/-- A listed clip of `pending/` keeps its media. -/
theorem paired (h : RunnerMove c n v w) (hl : v.Legal c n new)
    (hv : v.pendingSidecar ≠ none → v.HasMedia) (hw : w.pendingSidecar ≠ none) : w.HasMedia := by
  unfold HasMedia at hv ⊢
  cases h with
  | dropMedia hi ho => exact (hw (hl.closing _ hi ho).2).elim
  | _ => grind

end RunnerMove

theorem SweepMove.atRest (h : SweepMove v w) (hv : v.AtRest) : w.AtRest := by
  intro b hb
  cases h with
  | dropMedia hs => exact hv b hb
  | dropPending hp hi =>
    obtain ⟨hm, -, ho⟩ := hv b hb
    exact ⟨hm, rfl, ho⟩
  | dropDelivered => exact hv b hb

theorem SubmitMove.atRest (h : SubmitMove c n v w) (hv : v.AtRest) : w.AtRest := by
  intro b hb
  cases h with
  | place hu hf => exact hv b hb
  | list hu hp hr ho => exact (Option.some_ne_none b (hb.symm.trans hu.inflightSidecar)).elim

/-- Once the runner is done, nothing is left of a buried clip. -/
theorem Buried.not_stored (h : v.Buried) (hr : v.AtRest) : ¬v.Stored := by
  obtain ⟨h1, h2, h3, h4, h5, h6⟩ := h
  have hi : v.inflightSidecar = none := by
    by_contra hne
    obtain ⟨b, hb⟩ := Option.ne_none_iff_exists'.mp hne
    exact (hr b hb).1 h3
  unfold Stored
  grind

end ClipFiles

end Perchstation
