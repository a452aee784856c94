import Perchstation.Delivery.RunnerRules
import Perchstation.Queue.StopRules

/-!
# Attempt rules — the sidecars an upload can start from

A clip can yet be uploaded from a sidecar in `pending/`, or from one without an outcome in `inflight/`,
which the next start takes back.  What holds of all these sidecars of a clip holds wherever an operation
is stopped, if it holds of the records the operation writes.
-/

namespace Perchstation

open Resumption QueueStore

/-- A sidecar from which the clip may be uploaded again. -/
def Uploadable (fs : Fs) (c : ClipId) (e : ClipQueueEntry) : Prop :=
  fs.get (.queue .pending c .json) = some (.sidecar e) ∨
    fs.get (.queue .inflight c .json) = some (.sidecar e) ∧ e.outcome = none

/-- Every uploadable sidecar of `c` satisfies `Q`. -/
def AllUploadable (Q : ClipQueueEntry → Prop) (fs : Fs) (c : ClipId) : Prop :=
  ∀ e, Uploadable fs c e → Q e

namespace AllUploadable

variable {Q Q' : ClipQueueEntry → Prop} {fs t u : Fs} {c : ClipId} {e : ClipQueueEntry} {m : Blob}
  {at_ : DateTime}

theorem mono (h : AllUploadable Q fs c) (hQ : ∀ e, Q e → Q' e) : AllUploadable Q' fs c :=
  fun e he => hQ e (h e he)

/-- The sidecars of `t` are those of `fs` or new ones that satisfy `Q`. -/
theorem of_get (h : AllUploadable Q fs c)
    (hp : ∀ e, t.get (.queue .pending c .json) = some (.sidecar e) →
      fs.get (.queue .pending c .json) = some (.sidecar e) ∨ Q e)
    (hi : ∀ e, t.get (.queue .inflight c .json) = some (.sidecar e) → e.outcome = none →
      fs.get (.queue .inflight c .json) = some (.sidecar e) ∨ Q e) : AllUploadable Q t c := by
  rintro e (he | ⟨he, hout⟩)
  · rcases hp e he with hold | hnew
    · exact h e (Or.inl hold)
    · exact hnew
  · rcases hi e he hout with hold | hnew
    · exact h e (Or.inr ⟨hold, hout⟩)
    · exact hnew

theorem of_subset (h : AllUploadable Q fs c)
    (hs : ∀ d e, t.get (.queue d c .json) = some (.sidecar e) →
      fs.get (.queue d c .json) = some (.sidecar e)) : AllUploadable Q t c :=
  h.of_get (fun e he => Or.inl (hs _ e he)) fun e he _ => Or.inl (hs _ e he)

theorem of_sameClip (h : AllUploadable Q fs c) (hs : SameClip fs t c) : AllUploadable Q t c :=
  h.of_subset fun d _ he => (hs.sidecar d).symm.trans he

theorem moveMedia {d d' : Dir} {s : ClipId} (h : AllUploadable Q fs c) :
    AllUploadable Q (moveMedia fs d d' s m) c :=
  h.of_subset fun _ _ he => by simpa [get_moveMedia] using he

theorem put_tmp {d : Dir} {s : ClipId} {b : Blob} (h : AllUploadable Q fs c) :
    AllUploadable Q (fs.put (.queue d s .jsonTmp) b) c :=
  h.of_sameClip sameClip_put_tmp

theorem del {p : Path} (h : AllUploadable Q fs c) : AllUploadable Q (fs.del p) c := by
  refine h.of_subset fun d e he => ?_
  rw [FileMap.get_del] at he
  split_ifs at he
  exact he

/-- The records written satisfy `Q`, or have an outcome and are written to `inflight/`. -/
theorem replaceSidecar {d : Dir} {s : ClipId} (h : AllUploadable Q fs c)
    (he : s = c → Q e ∨ d = .inflight ∧ e.outcome.isSome ∨ d = .delivered) :
    AllUploadable Q (replaceSidecar fs d s e) c := by
  have hnew : ∀ d', (d' = .pending ∨ d' = .inflight) → ∀ e',
      (Perchstation.replaceSidecar fs d s e).get (.queue d' c .json) = some (.sidecar e') →
      (d' = .inflight → e'.outcome = none) →
      fs.get (.queue d' c .json) = some (.sidecar e') ∨ Q e' := by
    intro d' hd' e' hget hout
    rw [get_replaceSidecar] at hget
    by_cases hpath : (Path.queue d' c .json) = .queue d s .json
    · rw [if_pos hpath] at hget
      obtain rfl := Blob.sidecar.inj (Option.some.inj hget)
      obtain ⟨rfl, rfl, -⟩ := Path.queue.inj hpath
      rcases he rfl with hq | ⟨rfl, hsome⟩ | rfl
      · exact Or.inr hq
      · rw [hout rfl] at hsome
        cases hsome
      · rcases hd' with hd' | hd' <;> cases hd'
    · rw [if_neg hpath, if_neg (by simp)] at hget
      exact Or.inl hget
  refine h.of_get (fun e' he' => hnew _ (Or.inl rfl) e' he' (by simp)) fun e' he' hout => ?_
  exact hnew _ (Or.inr rfl) e' he' fun _ => hout

theorem mediaReturned {s : ClipId} (h : AllUploadable Q fs c) :
    AllUploadable Q (mediaReturned fs s) c := by
  unfold Perchstation.mediaReturned
  split
  · exact h
  · exact h.moveMedia

theorem movedInflight (h : AllUploadable Q fs c) (he : e.clipId = c → Q e) :
    AllUploadable Q (movedInflight fs m e) c :=
  (h.moveMedia.replaceSidecar fun hc => Or.inl (he hc)).del

theorem movedBack (h : AllUploadable Q fs c) (he : e.clipId = c → Q e) :
    AllUploadable Q (movedBack fs e) c :=
  (h.mediaReturned.replaceSidecar fun hc => Or.inl (he hc)).del

theorem movedDelivered (h : AllUploadable Q fs c) (hout : e.outcome.isSome) :
    AllUploadable Q (movedDelivered fs e) c := by
  have hbefore := (((h.replaceSidecar (d := .inflight) (s := e.clipId) (e := e)
    fun _ => Or.inr (Or.inl ⟨rfl, hout⟩)).del (p := .queue .inflight e.clipId .mp4)).del
    (p := .queue .inflight e.clipId .json))
  refine hbefore.of_get (fun e' he' => Or.inl ?_) fun e' he' _ => Or.inl ?_
  · simpa [Perchstation.movedDelivered, FileMap.get_put] using he'
  · simpa [Perchstation.movedDelivered, FileMap.get_put] using he'

/-! ### Stops -/

theorem stop_transitionInflight (h : AllUploadable Q fs c)
    (he : e.clipId = c → Q (startAttempt e at_))
    (hr : Reaches Nominal (transitionInflight e at_) fs t) : AllUploadable Q t c := by
  rcases reaches_transitionInflight hr with rfl | ⟨m, -, u, rfl, rfl | rfl | rfl | rfl⟩
  · exact h
  · exact h.moveMedia
  · exact h.moveMedia.put_tmp
  · exact h.moveMedia.replaceSidecar fun hc => Or.inl (he hc)
  · exact h.movedInflight (e := startAttempt e at_) he

theorem stop_transitionBackToPending (h : AllUploadable Q fs c) (he : e.clipId = c → Q e)
    (hr : Reaches Nominal (transitionBackToPending e) fs t) : AllUploadable Q t c := by
  rcases reaches_transitionBackToPending hr with rfl | ⟨u, rfl, rfl | rfl | rfl | rfl⟩
  · exact h
  · exact h.mediaReturned
  · exact h.mediaReturned.put_tmp
  · exact h.mediaReturned.replaceSidecar fun hc => Or.inl (he hc)
  · exact h.movedBack he

theorem stop_transitionDelivered (h : AllUploadable Q fs c) (hout : e.outcome.isSome)
    (hr : Reaches Nominal (transitionDelivered e) fs t) : AllUploadable Q t c := by
  have hwritten : AllUploadable Q (Perchstation.replaceSidecar fs .inflight e.clipId e) c :=
    h.replaceSidecar fun _ => Or.inr (Or.inl ⟨rfl, hout⟩)
  rcases reaches_transitionDelivered hr with rfl | rfl | ⟨u, rfl, rfl | rfl | rfl⟩
  · exact h
  · exact h.put_tmp
  · exact hwritten
  · exact hwritten.del
  · exact h.movedDelivered hout

theorem stop_quarantineOrphan {s : ClipId} (h : AllUploadable Q fs c)
    (hr : Reaches Nominal (quarantineOrphan s) fs t) : AllUploadable Q t c := by
  rcases reaches_quarantineOrphan hr with rfl | rfl | rfl
  · exact h
  · exact h.del
  · exact h.del.del

theorem picked {o : Option ClipQueueEntry} (h : AllUploadable Q fs c) (hp : Picked fs t o) :
    AllUploadable Q t c :=
  h.of_subset fun d e he => hp.subset d c e he

theorem partSwept {d : Dir} (h : AllUploadable Q fs c) (ht : PartSwept fs t d) :
    AllUploadable Q t c := by
  refine h.of_subset fun d' e he => ?_
  rcases ht (.queue d' c .json) with hsame | ⟨-, hnone⟩
  · exact hsame.symm.trans he
  · rw [hnone] at he
    cases he

/-- One sidecar's reconciliation, if `Q` does not look at what it clears. -/
theorem reconcileStep (h : AllUploadable Q fs c) (hQ : ∀ e, Q e → Q (requeued e))
    (he : fs.get (.queue .inflight e.clipId .json) = some (.sidecar e))
    (hr : ReconcileStep fs e t) : AllUploadable Q t c := by
  cases hr with
  | deliver ht hr => exact h.stop_transitionDelivered ht hr
  | requeue ht hr =>
    refine h.stop_transitionBackToPending (e := requeued e) (fun hc => hQ e (h e (Or.inr ?_))) hr
    have hid : e.clipId = c := hc
    exact ⟨hid ▸ he, by simpa [ClipQueueEntry.isTerminal] using ht⟩

theorem stop_reconcileLoop {l : List Path} (hl : ∀ p ∈ l, ∃ s, p = .queue .inflight s .json)
    (hn : Named fs) (h : AllUploadable Q fs c) (hQ : ∀ e, Q e → Q (requeued e))
    (hr : Reaches Nominal (reconcileLoop l) fs t) : AllUploadable Q t c := by
  induction l generalizing fs with
  | nil =>
    obtain rfl : t = fs := hr
    exact h
  | cons p rest ih =>
    have hrest : ∀ q ∈ rest, ∃ s, q = .queue .inflight s .json :=
      fun q hq => hl q (List.mem_cons_of_mem _ hq)
    obtain ⟨s, rfl⟩ := hl p List.mem_cons_self
    rcases reaches_reconcileLoop_cons hr with rfl | ⟨e, he, hcase⟩
    · exact h
    · obtain rfl := hn _ _ _ he
      rcases hcase with hstep | hloop
      · exact h.reconcileStep hQ he hstep
      · have hone := reconcileStep_reconciledOne fs e
        exact ih hrest (hone.confined.named hn) (h.reconcileStep hQ he hone) hloop

theorem stop_reconcileInflight (hn : Named fs) (h : AllUploadable Q fs c)
    (hQ : ∀ e, Q e → Q (requeued e)) (hr : Reaches Nominal reconcileInflight fs t) :
    AllUploadable Q t c := by
  cases reaches_reconcileInflight hr with
  | sweep hu hw => exact (h.partSwept hu).partSwept hw
  | loop hu hw hl hr =>
    have hnw := (hn.partSwept hu.partSwept).partSwept hw.partSwept
    exact stop_reconcileLoop hl hnw ((h.partSwept hu.partSwept).partSwept hw.partSwept) hQ hr

end AllUploadable

/-- An enqueue that is stopped leaves every sidecar alone, or is complete. -/
theorem sidecars_of_reaches_enqueueWithId {fs t : Fs} {s : ClipId} {n : String} {clipMeta : ClipMeta}
    (hr : Reaches Nominal (enqueueWithId s (.source n) clipMeta) fs t) :
    (∀ d c, t.get (.queue d c .json) = fs.get (.queue d c .json)) ∨
      ∃ m at_ len, t = enqueued fs n m (.new s clipMeta.capturedAt at_ len) := by
  rcases reaches_enqueueWithId hr with rfl | ⟨m, -, u, rfl, rfl | ⟨at_, len, rfl | rfl⟩⟩
  · exact Or.inl fun _ _ => rfl
  · exact Or.inl fun d c => by simp [FileMap.get_put, FileMap.get_del]
  · exact Or.inl fun d c => by simp [FileMap.get_put, FileMap.get_del]
  · exact Or.inr ⟨m, at_, len, rfl⟩

end Perchstation
