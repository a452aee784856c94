import Perchstation.ClipIds
import Perchstation.Queue.Reported
import Perchstation.Recovery

/-!
# Leftovers — the files that no clip accounts for

Media and sidecars are put in place through a temporary file beside them.  A call that fails or is
stopped in between leaves that file behind.  The reconciliation at boot looks for media and sidecars
by their extensions and passes it over, unless its own transitions write through the same file.
-/

namespace Perchstation

open Resumption QueueStore

/-! ## What the calls keep to -/

/-- Every sidecar decodes and bears the name of its clip, and media is staged in `pending/` only. -/
structure WellKept (fs : Fs) : Prop where
  sidecar : ∀ d c b, fs.get (.queue d c .json) = some b → ∃ e, b = .sidecar e ∧ e.clipId = c
  unstaged : ∀ c, fs.get (.queue .inflight c .mp4Tmp) = none

namespace WellKept

variable {fs t : Fs} {p : Path} {b : Blob}

theorem del (h : WellKept fs) (p : Path) : WellKept (fs.del p) := by
  refine ⟨fun d c b hb => ?_, fun c => ?_⟩
  · rw [FileMap.get_del] at hb
    split_ifs at hb
    exact h.sidecar d c b hb
  · rw [FileMap.get_del]
    split_ifs
    · rfl
    · exact h.unstaged c

theorem put (h : WellKept fs) (hj : p.hasExt .json = false)
    (hstaged : ∀ c, p ≠ .queue .inflight c .mp4Tmp) : WellKept (fs.put p b) := by
  refine ⟨fun d c b' hb => ?_, fun c => ?_⟩
  · rw [FileMap.get_put, if_neg] at hb
    · exact h.sidecar d c b' hb
    · rintro rfl
      cases hj
  · rw [FileMap.get_put, if_neg (hstaged c).symm]
    exact h.unstaged c

theorem put_sidecar (h : WellKept fs) (d : Dir) {c : ClipId} {e : ClipQueueEntry}
    (he : e.clipId = c) : WellKept (fs.put (.queue d c .json) (.sidecar e)) := by
  refine ⟨fun d' c' b hb => ?_, fun c' => ?_⟩
  · rw [FileMap.get_put] at hb
    split_ifs at hb with heq
    · obtain ⟨-, rfl, -⟩ := Path.queue.inj heq
      exact ⟨e, (Option.some.inj hb).symm, he⟩
    · exact h.sidecar d' c' b hb
  · rw [FileMap.get_put, if_neg (by simp)]
    exact h.unstaged c'

/-- Requests that put no sidecar in place, except by moving it with its name, and stage no media in
`inflight/`. -/
def Allows : Req → Prop
  | .metadata _ | .fileExists _ | .removeFile _ | .now => True
  | .rename src dst => dst.hasExt .mp4 = true ∨
      ∃ d d' c, src = .queue d c .json ∧ dst = .queue d' c .json
  | .copy _ dst => ∃ c, dst = .queue .pending c .mp4Tmp
  | .write p _ => p.hasExt .jsonTmp = true
  | _ => False

theorem put_of_hasExt (h : WellKept fs) {x : Ext} (hp : p.hasExt x = true) (hj : x ≠ .json)
    (hs : x ≠ .mp4Tmp) : WellKept (fs.put p b) := by
  refine h.put ?_ ?_
  · cases p with
    | queue d c y =>
      obtain rfl : y = x := of_decide_eq_true hp
      exact decide_eq_false hj
    | _ => rfl
  · rintro c rfl
    exact hs (of_decide_eq_true hp).symm

theorem put_staged (h : WellKept fs) (hp : ∃ c, p = .queue .pending c .mp4Tmp) :
    WellKept (fs.put p b) := by
  obtain ⟨c, rfl⟩ := hp
  exact h.put rfl fun _ heq => by cases heq

theorem step {r : Req} {v : Rep r} (h : WellKept fs) (hr : Allows r) (hv : Unreliable fs r v t) :
    WellKept t := by
  cases changed_of_unreliable hv with
  | same => exact h
  | @moved src dst b hb =>
    rcases hr with hr | ⟨d, d', c, rfl, rfl⟩
    · exact (h.del src).put_of_hasExt hr (by decide) (by decide)
    · obtain ⟨e, rfl, he⟩ := h.sidecar d c b hb
      exact (h.del _).put_sidecar d' he
  | copied b => exact h.put_staged hr
  | removed => exact h.del _
  | written b => exact h.put_of_hasExt hr (by decide) (by decide)

end WellKept

open WellKept (Allows)

section Calls

variable {α : Type} {e : ClipQueueEntry} {c : ClipId} {d : Dir} {at_ : DateTime}

theorem wellKept_of_within {p : Act α} (h : Within Allows p) : Preserves Unreliable WellKept p :=
  h.preserves fun _ _ _ _ hr hv hs => hs.step hr hv

theorem wellKept_ask {r : Req} (h : Allows r) : Preserves Unreliable WellKept (ask r) :=
  wellKept_of_within (within_request h)

/-- A sidecar is renamed into place only after it has been written in full. -/
theorem wellKept_writeSidecarAtomic (he : e.clipId = c) :
    Preserves Unreliable WellKept (writeSidecarAtomic (.queue d c .json) e) := by
  have hwrite : Preserves Unreliable WellKept (write (.queue d c .jsonTmp) (.sidecar e)) :=
    wellKept_ask rfl
  intro fs t hfs h
  rcases (reaches_bind _ _ _ _).mp h with h | ⟨v, u, h1, h2⟩
  · exact hwrite fs t hfs h
  · have hu := hwrite fs u hfs h1.reaches
    cases v with
    | error err => exact reaches_pure.mp h2 ▸ hu
    | ok _ =>
      rcases runs_write.mp h1 with ⟨-, rfl⟩ | ⟨⟨err, herr⟩, -⟩
      · rcases reaches_rename.mp (reaches_bind_pure h2 fun v => by cases v <;> exact ⟨_, rfl⟩) with
          rfl | ⟨v, hv | ⟨-, rfl⟩⟩
        · exact hu
        · simp only [Nominal, Path.withExtension, FileMap.get_put, if_pos] at hv
          exact hv.2 ▸ (hu.del _).put_sidecar d he
        · exact hu
      · cases herr

theorem wellKept_removeIfExists {p : Path} : Preserves Unreliable WellKept (removeIfExists p) := by
  refine (wellKept_ask (r := .removeFile _) trivial).bind fun v => ?_
  rcases v with err | _
  · cases err <;> exact preserves_pure _
  · exact preserves_pure _

theorem wellKept_enqueueWithId {n : String} {clipMeta : ClipMeta} :
    Preserves Unreliable WellKept (enqueueWithId c (.source n) clipMeta) := by
  have hplace : Within Allows
      (placeMedia (.source n) (.media .pending c) (.queue .pending c .mp4Tmp)) := by
    refine ⟨Or.inl rfl, fun v => ?_⟩
    rcases v with err | _
    · refine ⟨⟨c, rfl⟩, fun v => ?_⟩
      rcases v with err | _
      · exact within_pure _
      · refine ⟨Or.inl rfl, fun v => ?_⟩
        rcases v with err | _
        · exact within_pure _
        · exact ⟨trivial, fun v => within_pure _⟩
    · exact within_pure _
  refine (wellKept_ask (r := .metadata _) trivial).bind fun v => ?_
  rcases v with err | size
  · exact preserves_pure _
  · refine (wellKept_of_within hplace).bind fun v => ?_
    rcases v with err | _
    · exact preserves_pure _
    · refine (wellKept_ask (r := .now) trivial).bind fun at_ => ?_
      have hwrite : Preserves Unreliable WellKept (writeSidecarAtomic (.sidecar .pending c)
          (.new c clipMeta.capturedAt at_ size)) := wellKept_writeSidecarAtomic rfl
      refine hwrite.bind fun v => ?_
      rcases v with err | _
      · exact (wellKept_ask (r := .removeFile _) trivial).bind fun _ => preserves_pure _
      · exact preserves_pure _

theorem wellKept_transitionInflight :
    Preserves Unreliable WellKept (transitionInflight e at_) := by
  refine (wellKept_ask (r := .rename _ _) (Or.inl rfl)).bind fun v => ?_
  rcases v with err | _
  · cases err <;> exact preserves_pure _
  · have hwrite : Preserves Unreliable WellKept (writeSidecarAtomic (.sidecar .inflight e.clipId)
        (startAttempt e at_)) := wellKept_writeSidecarAtomic rfl
    refine hwrite.bind fun v => ?_
    rcases v with err | _
    · exact (wellKept_ask (r := .rename _ _) (Or.inl rfl)).bind fun _ => preserves_pure _
    · refine wellKept_removeIfExists.bind fun v => ?_
      rcases v with err | _ <;> exact preserves_pure _

theorem wellKept_transitionBackToPending :
    Preserves Unreliable WellKept (transitionBackToPending e) := by
  have hreturn : Within Allows
      (returnMedia (.media .inflight e.clipId) (.media .pending e.clipId)) := by
    refine ⟨trivial, fun v => ?_⟩
    cases v with
    | false => exact within_pure _
    | true =>
      refine ⟨Or.inl rfl, fun v => ?_⟩
      rcases v with err | _ <;> exact within_pure _
  refine (wellKept_of_within hreturn).bind fun v => ?_
  rcases v with err | _
  · exact preserves_pure _
  · refine (wellKept_writeSidecarAtomic rfl).bind fun v => ?_
    rcases v with err | _
    · exact preserves_pure _
    · exact wellKept_removeIfExists

theorem wellKept_transitionDelivered :
    Preserves Unreliable WellKept (transitionDelivered e) := by
  refine (wellKept_writeSidecarAtomic rfl).bind fun v => ?_
  rcases v with err | _
  · exact preserves_pure _
  · refine wellKept_removeIfExists.bind fun v => ?_
    rcases v with err | _
    · exact preserves_pure _
    · refine (wellKept_ask (r := .rename _ _) (Or.inr ⟨_, _, _, rfl, rfl⟩)).bind fun v => ?_
      rcases v with err | _ <;> exact preserves_pure _

end Calls

/-! ## Histories -/

/-- The calls of a history; the last is whatever happens outside the queue. -/
inductive QueueCall
  | enqueue (seq : UInt32) (clipSource : String) (clipMeta : ClipMeta)
  | transitionInflight (entry : ClipQueueEntry) (now : DateTime)
  | transitionBackToPending (entry : ClipQueueEntry)
  | transitionDelivered (entry : ClipQueueEntry)
  | elsewhere

/-- A call, which may fail or be stopped anywhere. -/
inductive QueueStep (fs : Fs) : QueueCall → Fs → Prop
  | enqueue {t : Fs} {seq : UInt32} {n : String} {clipMeta : ClipMeta} :
      Reaches Unreliable (enqueue seq (.source n) clipMeta) fs t →
      QueueStep fs (.enqueue seq n clipMeta) t
  | inflight {t : Fs} {e : ClipQueueEntry} {at_ : DateTime} :
      Reaches Unreliable (transitionInflight e at_) fs t →
      QueueStep fs (.transitionInflight e at_) t
  | back {t : Fs} {e : ClipQueueEntry} :
      Reaches Unreliable (transitionBackToPending e) fs t →
      QueueStep fs (.transitionBackToPending e) t
  | deliver {t : Fs} {e : ClipQueueEntry} :
      Reaches Unreliable (transitionDelivered e) fs t → QueueStep fs (.transitionDelivered e) t
  | elsewhere {t : Fs} : (∀ c, holdings t c = holdings fs c) → QueueStep fs .elsewhere t

section Histories

variable {fs₀ fs t : Fs} {call : QueueCall} {tr : List (QueueCall × Fs)} {f : Holdings}
  {entries : List ClipQueueEntry} {c : ClipId}

theorem WellKept.queueStep (h : WellKept fs) (hstep : QueueStep fs call t) : WellKept t := by
  cases hstep with
  | enqueue hreach => exact wellKept_enqueueWithId fs t h hreach
  | inflight hreach => exact wellKept_transitionInflight fs t h hreach
  | back hreach => exact wellKept_transitionBackToPending fs t h hreach
  | deliver hreach => exact wellKept_transitionDelivered fs t h hreach
  | elsewhere hsame =>
    have hget : ∀ d c x, t.get (.queue d c x) = fs.get (.queue d c x) :=
      fun d c x => congrFun (congrFun (hsame c) d) x
    exact ⟨fun d c b hb => h.sidecar d c b (hget d c _ ▸ hb), fun c => hget _ c _ ▸ h.unstaged c⟩

/-- No file is in the queue. -/
def EmptyQueue (fs : Fs) : Prop := ∀ d c x, fs.get (.queue d c x) = none

theorem EmptyQueue.wellKept (h : EmptyQueue fs) : WellKept fs :=
  ⟨fun d c b hb => absurd (h d c .json) (by rw [hb]; simp), fun c => h _ c _⟩

theorem WellKept.legible (h : WellKept fs) : Legible fs := by
  intro d c _ hs
  obtain ⟨b, hb⟩ := Option.isSome_iff_exists.mp hs
  obtain ⟨e, rfl, -⟩ := h.sidecar d c b hb
  exact ⟨e, hb⟩

theorem WellKept.named (h : WellKept fs) : Named fs := by
  intro d c e he
  obtain ⟨e', heq, hid⟩ := h.sidecar d c _ he
  exact Blob.sidecar.inj heq ▸ hid

/-! ## What a reconciliation passes over -/

/-- `inflight/` is empty, and every file of `pending/` is a sidecar that the eviction policy reads,
or media beside one. -/
structure Accounted (t : Fs) : Prop where
  pending : ∀ c x, (t.get (.queue .pending c x)).isSome → (x = .json ∨ x = .mp4) ∧
    ∃ e, t.get (.queue .pending c .json) = some (.sidecar e) ∧ e.clipId = c
  inflight : ∀ c x, t.get (.queue .inflight c x) = none

/-- No media of `c` is staged, and no temporary sidecar lies in `pending/`, unless the clip is to be
requeued, or in `inflight/`, unless it is to be finished. -/
def Untorn (fs : Fs) (c : ClipId) : Prop :=
  fs.get (.queue .pending c .mp4Tmp) = none ∧
    (fs.get (.queue .pending c .jsonTmp) = none ∨ ∃ e, Requeues fs c e) ∧
    (fs.get (.queue .inflight c .jsonTmp) = none ∨ ∃ e, Finishes fs c e)

/-- Staged media stays where it is. -/
theorem recoveredFiles_mp4Tmp (h : LegibleInflight f) (d : Dir) :
    recoveredFiles f d .mp4Tmp = f d .mp4Tmp := by
  have hswept : sweptFiles .inflight (sweptFiles .pending f) d .mp4Tmp = f d .mp4Tmp := by
    rw [sweptFiles_of_ne (Or.inr (by decide)), sweptFiles_of_ne (Or.inr (by decide))]
  rcases h.recovered with ⟨-, hf⟩ | ⟨e, -, ⟨-, hf⟩ | ⟨-, hf⟩⟩
  · rw [hf, hswept]
  · rw [hf]
    cases d <;> exact hswept
  · rw [hf]
    cases d <;> exact hswept

theorem swept_jsonTmp (f : Holdings) (d : Dir) :
    sweptFiles .inflight (sweptFiles .pending f) d .jsonTmp = f d .jsonTmp := by
  rw [sweptFiles_of_ne (Or.inr (by decide)), sweptFiles_of_ne (Or.inr (by decide))]

/-- A temporary sidecar in `pending/` goes only if the clip is requeued. -/
theorem recoveredFiles_pending_jsonTmp (h : LegibleInflight f) :
    recoveredFiles f .pending .jsonTmp = none ↔ f .pending .jsonTmp = none ∨
      ∃ e, f .inflight .json = some (.sidecar e) ∧ e.isTerminal = false := by
  rcases h.recovered with ⟨hnone, hf⟩ | ⟨e, he, ⟨hterm, hf⟩ | ⟨hterm, hf⟩⟩
  · rw [hf, swept_jsonTmp, hnone]
    simp
  · rw [hf, he]
    show sweptFiles .inflight (sweptFiles .pending f) .pending .jsonTmp = none ↔ _
    rw [swept_jsonTmp]
    simp [hterm]
  · rw [hf, he]
    simp [backFiles, hterm]

/-- A temporary sidecar in `inflight/` goes only if the clip is finished. -/
theorem recoveredFiles_inflight_jsonTmp (h : LegibleInflight f) :
    recoveredFiles f .inflight .jsonTmp = none ↔ f .inflight .jsonTmp = none ∨
      ∃ e, f .inflight .json = some (.sidecar e) ∧ e.isTerminal = true := by
  rcases h.recovered with ⟨hnone, hf⟩ | ⟨e, he, ⟨hterm, hf⟩ | ⟨hterm, hf⟩⟩
  · rw [hf, swept_jsonTmp, hnone]
    simp
  · rw [hf, he]
    simp [deliveredFiles, hterm]
  · rw [hf, he]
    show sweptFiles .inflight (sweptFiles .pending f) .inflight .jsonTmp = none ↔ _
    rw [swept_jsonTmp]
    simp [hterm]

/-- The sidecar in `pending/` is the one that was there or the one requeued. -/
theorem WellKept.recovered_sidecar (h : WellKept fs) {b : Blob}
    (hb : recoveredFiles (holdings fs c) .pending .json = some b) :
    ∃ e, b = .sidecar e ∧ e.clipId = c := by
  have hswept : sweptFiles .inflight (sweptFiles .pending (holdings fs c)) .pending .json =
      fs.get (.queue .pending c .json) := by
    rw [sweptFiles_json, sweptFiles_json]
    rfl
  rcases (h.legible.legibleInflight c).recovered with ⟨-, hf⟩ | ⟨e, he, ⟨-, hf⟩ | ⟨-, hf⟩⟩
  · rw [hf, hswept] at hb
    exact h.sidecar _ c b hb
  · rw [hf] at hb
    exact h.sidecar _ c b (hswept.symm.trans hb)
  · rw [hf] at hb
    exact ⟨requeued e, (Option.some.inj hb).symm, h.named .inflight c e he⟩

/-- A reconciliation accounts for all files if there are no temporary ones that it passes over. -/
theorem WellKept.accounted_iff (h : WellKept fs)
    (hclips : ∀ c, holdings t c = recoveredFiles (holdings fs c)) :
    Accounted t ↔ ∀ c, Untorn fs c := by
  have hget : ∀ d c x, t.get (.queue d c x) = recoveredFiles (holdings fs c) d x :=
    fun d c x => congrFun (congrFun (hclips c) d) x
  have hlegible := h.legible.legibleInflight
  constructor
  · -- no temporary file is a sidecar or media, so none is accounted for
    intro hacc c
    refine ⟨?_, ?_, ?_⟩
    · rw [← Option.not_isSome_iff_eq_none]
      intro hs
      have hs' : (t.get (.queue .pending c .mp4Tmp)).isSome := by
        rw [hget, recoveredFiles_mp4Tmp (hlegible c)]
        exact hs
      rcases (hacc.pending c _ hs').1 with hx | hx <;> cases hx
    · refine (recoveredFiles_pending_jsonTmp (hlegible c)).mp ?_
      rw [← hget, ← Option.not_isSome_iff_eq_none]
      intro hs
      rcases (hacc.pending c _ hs).1 with hx | hx <;> cases hx
    · refine (recoveredFiles_inflight_jsonTmp (hlegible c)).mp ?_
      rw [← hget]
      exact hacc.inflight c _
  · -- without them only sidecars and media are left in `pending/`
    intro huntorn
    refine ⟨fun c x hs => ?_, fun c x => ?_⟩
    · obtain ⟨hstaged, htmp, -⟩ := huntorn c
      have hx : x = .json ∨ x = .mp4 := by
        rw [hget] at hs
        cases x with
        | json => exact Or.inl rfl
        | mp4 => exact Or.inr rfl
        | mp4Tmp =>
          rw [recoveredFiles_mp4Tmp (hlegible c), holdings, hstaged] at hs
          cases hs
        | jsonTmp =>
          rw [(recoveredFiles_pending_jsonTmp (hlegible c)).mpr htmp] at hs
          cases hs
      refine ⟨hx, ?_⟩
      -- media without a sidecar has been swept
      have hsidecar : t.get (.queue .pending c .json) ≠ none := by
        intro hnone
        have hmedia : t.get (.queue .pending c .mp4) = none := by
          rw [hget] at hnone ⊢
          exact (hlegible c).settled.paired hnone
        rcases hx with rfl | rfl
        · rw [hnone] at hs
          cases hs
        · rw [hmedia] at hs
          cases hs
      obtain ⟨b, hb⟩ := Option.ne_none_iff_exists'.mp hsidecar
      obtain ⟨e, rfl, he⟩ := h.recovered_sidecar ((hget _ c _).symm.trans hb)
      exact ⟨e, hb, he⟩
    · rw [hget]
      obtain ⟨hs, hm, -⟩ := (hlegible c).settled
      cases x with
      | json => exact hs
      | mp4 => exact hm
      | mp4Tmp => exact (recoveredFiles_mp4Tmp (hlegible c) _).trans (h.unstaged c)
      | jsonTmp => exact (recoveredFiles_inflight_jsonTmp (hlegible c)).mpr (huntorn c).2.2

/-- After any history of calls, failed or stopped anywhere, a reconciliation that succeeds accounts
for every file just if the calls have left no temporary file that it passes over. -/
theorem reconcileInflight_accounts (hempty : EmptyQueue fs₀) (hrun : Exec QueueStep fs₀ tr fs)
    (hrec : Runs Reporting reconcileInflight fs (.ok entries) t) :
    Accounted t ↔ ∀ c, Untorn fs c := by
  have hkept : WellKept fs :=
    hrun.invariant hempty.wellKept fun _ _ _ hs hstep => hs.queueStep hstep
  have hfiles := runs_reconcileInflight_files hkept.legible hkept.named
    (detects_reconcileInflight fs entries t hrec)
  exact hkept.accounted_iff hfiles.2.1

end Histories

namespace Leftovers

/-- A file of two bytes, to be enqueued. -/
def captured : Fs := FileMap.empty.put (.source "a.mp4") (.bytes [0, 1])

theorem emptyQueue_captured : EmptyQueue captured := by
  intro d c x
  simp [captured, FileMap.get_put]

/-- The queue after the disk has filled up in the copy of the file. -/
def halfCopied (c : ClipId) : Fs := captured.put (.queue .pending c .mp4Tmp) (.bytes [0])

theorem reaches_halfCopied (c : ClipId) (clipMeta : ClipMeta) :
    Reaches Unreliable (enqueueWithId c (.source "a.mp4") clipMeta) captured (halfCopied c) := by
  have hmeta : Unreliable captured (.metadata (.source "a.mp4")) (.ok 2) captured :=
    Or.inl ⟨rfl, 2, rfl, rfl⟩
  have hrename : Unreliable captured (.rename (.source "a.mp4") (.media .pending c))
      (.error (.other 18 "Invalid cross-device link (os error 18)")) captured :=
    Or.inr ⟨⟨_, rfl⟩, rfl⟩
  have hcopy : Unreliable captured (.copy (.source "a.mp4") (.queue .pending c .mp4Tmp))
      (.error .storageFull) (halfCopied c) := Or.inr ⟨⟨_, rfl⟩, Or.inr ⟨_, rfl⟩⟩
  exact Or.inr ⟨_, _, hmeta, Or.inr ⟨_, _, hrename, Or.inr ⟨_, _, hcopy, rfl⟩⟩⟩

theorem settled_halfCopied (c c' : ClipId) : Settled (holdings (halfCopied c) c') := by
  refine ⟨?_, ?_, fun _ => ?_⟩ <;> simp [holdings, halfCopied, captured, FileMap.get_put]

end Leftovers

open Leftovers
open Lifetimes (instant)

/-- A copy that fails for lack of space leaves its part of the media in `pending/` for good. -/
theorem staged_media_escapes_recovery :
    ∃ (tr : List (QueueCall × Fs)) (fs t : Fs) (entries : List ClipQueueEntry),
      EmptyQueue captured ∧ Exec QueueStep captured tr fs ∧
      Runs Reporting reconcileInflight fs (.ok entries) t ∧
      t.get (.queue .pending (nextClipId instant 0) .mp4Tmp) = some (.bytes [0]) ∧
      ¬ Accounted t := by
  let c := nextClipId instant 0
  have hstep : QueueStep captured (.enqueue 0 "a.mp4" ⟨instant⟩) (halfCopied c) :=
    .enqueue (reaches_halfCopied _ _)
  obtain ⟨v, t, hrec⟩ := exists_runs_reconcileInflight (halfCopied c)
  obtain ⟨rfl, rfl⟩ := runs_reconcileInflight_settled (settled_halfCopied _) hrec
  have hget : (halfCopied c).get (.queue .pending c .mp4Tmp) = some (.bytes [0]) := by
    rw [halfCopied, FileMap.get_put, if_pos rfl]
  refine ⟨_, _, halfCopied c, _, emptyQueue_captured, Exec.nil.snoc hstep,
    hrec.map id fun _ _ _ _ => Or.inl, hget, fun hacc => ?_⟩
  have hs : ((halfCopied c).get (.queue .pending c .mp4Tmp)).isSome := by
    rw [hget]
    rfl
  rcases (hacc.pending c .mp4Tmp hs).1 with hx | hx <;> cases hx

/-- The queue after the file has been enqueued. -/
theorem reconcileInflight_accounts_enqueued :
    ∃ (tr : List (QueueCall × Fs)) (fs t : Fs) (entries : List ClipQueueEntry),
      EmptyQueue captured ∧ Exec QueueStep captured tr fs ∧
      fs.get (.media .pending (nextClipId instant 0)) = some (.bytes [0, 1]) ∧
      Runs Reporting reconcileInflight fs (.ok entries) t ∧ Accounted t := by
  let e : ClipQueueEntry := .new (nextClipId instant 0) instant instant 2
  let fs := enqueued captured "a.mp4" (.bytes [0, 1]) e
  have hruns : Runs Nominal (enqueue 0 (.source "a.mp4") ⟨instant⟩) captured (.ok e) fs :=
    runs_enqueueWithId.mpr (Or.inr ⟨.bytes [0, 1], 2, instant, rfl, rfl, rfl, rfl⟩)
  have hstep : QueueStep captured (.enqueue 0 "a.mp4" ⟨instant⟩) fs :=
    .enqueue (hruns.map id fun _ _ _ _ => Or.inl).reaches
  have hhist := (Exec.nil (s := captured)).snoc hstep
  have hkept := emptyQueue_captured.wellKept.queueStep hstep
  obtain ⟨v, t, hrec⟩ := exists_runs_reconcileInflight fs
  obtain ⟨-, -, entries, rfl, -⟩ := runs_reconcileInflight_files hkept.legible hkept.named hrec
  have hrec' : Runs Reporting reconcileInflight fs (.ok entries) t :=
    hrec.map id fun _ _ _ _ => Or.inl
  refine ⟨_, fs, t, entries, emptyQueue_captured, hhist, ?_, hrec',
    (reconcileInflight_accounts emptyQueue_captured hhist hrec').mpr fun c => ?_⟩
  · simp [fs, get_enqueued, e, ClipQueueEntry.new]
  · refine ⟨?_, Or.inl ?_, Or.inl ?_⟩ <;> simp [fs, get_enqueued, captured, FileMap.get_put]

end Perchstation
