import Perchstation.Causes

/-!
# Reclaim — how the slots of delivered clips become free again

A delivered record occupies a slot of the queue until it is pruned, and it is pruned only once its
classification is finished or lost.  The poller brings that about for records with a classify task.
-/

namespace Perchstation

open Resumption QueueStore

variable {cfg : Config} {st : Station} {fs t : Fs} {c : ClipId} {e : ClipQueueEntry}

/-- As soon as the cutoff has passed its delivery, the record is prunable. -/
def PrunableInTime (e : ClipQueueEntry) : Prop :=
  ∃ at_, e.deliveredAt = some at_ ∧ ∀ cutoff, at_ < cutoff → isPrunable e cutoff = true

/-- A record the poller is done with is pruned once the cutoff has passed its delivery, and one the
poller still asks about would be so after an answer that the task is finished. -/
structure Reclaimable (fs : Fs) (c : ClipId) (e : ClipQueueEntry) : Prop where
  finished : isPollable e = false → PrunableInTime e ∧
    ∀ cutoff, isPrunable e cutoff = true → ∀ v t, Runs Nominal (pruneDelivered cutoff) fs v t →
      t.get (.queue .delivered c .json) = none
  polled : isPollable e = true → ∀ status : ClassifyTaskStatus, status.isTerminal = true →
    PrunableInTime { e with lastClassifyStatus := some status }

/-- A delivered record with a classify task and an instant of delivery is reclaimable. -/
theorem reclaimable_of_task (he : fs.get (.queue .delivered c .json) = some (.sidecar e))
    (hout : e.outcome = some .delivered) (htask : e.classifyTaskId.isSome)
    (hat : e.deliveredAt.isSome) : Reclaimable fs c e := by
  obtain ⟨at_, hat⟩ := Option.isSome_iff_exists.mp hat
  refine ⟨fun hp => ⟨⟨at_, hat, fun cutoff hlt => ?_⟩, fun cutoff hpr v t hr => ?_⟩,
    fun _ status hs => ⟨at_, hat, fun cutoff hlt => ?_⟩⟩
  · have hdone : (e.classifyLostAt.isSome || e.lastClassifyStatus.any (·.isTerminal)) = true := by
      cases hl : e.classifyLostAt with
      | some lost => rfl
      | none => simpa [isPollable, htask, hl] using hp
    simp [isPrunable, hout, hdone, hat, hlt]
  · obtain ⟨pruned, -, heff⟩ := runs_pruneDelivered hr
    exact heff.gone c .json (Or.inr rfl) ⟨e, he, hpr⟩
  · simp [isPrunable, hout, hat, hlt, hs]

/-- The step records an upload of the clip that was accepted without a decodable answer. -/
def Event.Undecoded (c : ClipId) (ev : Event) : Prop :=
  ∃ e url message readings,
    ev = .finished e (.error (.undecodableSuccess url message)) readings ∧ e.clipId = c

/-- In a run where the answer that accepted the clip was decoded, its delivered record is
reclaimable. -/
theorem delivered_reclaimable {st₀ : Station} {tr : List (Event × Station)} (h₀ : st₀.Initial)
    (h : Exec (Step cfg) st₀ tr st) (hev : ∀ s ∈ tr, ¬ s.1.Undecoded c)
    (he : st.fs.get (.queue .delivered c .json) = some (.sidecar e))
    (hout : e.outcome = some .delivered) : Reclaimable st.fs c e := by
  obtain ⟨p, hp⟩ := (h₀.inv.exec h).tidy c
  obtain ⟨e', he', hent, ⟨⟨⟩, -⟩ | ⟨⟨⟩, -⟩ | ⟨-, d, rfl⟩⟩ :=
    Phase.file_json_eq_some ((hp.sidecar (by simp)).symm.trans he)
  obtain rfl := hp.entry_delivered he
  obtain ⟨tr₁, s, tr₂, a, p, e₀, rfl, -, -, hset, hu⟩ := exists_settled h₀ h hp
  have hmem : s ∈ tr₁ ++ s :: tr₂ := by simp
  rw [hu.outcome] at hout
  have hfields : e₀.classifyTaskId.isSome ∧ e₀.deliveredAt.isSome := by
    generalize hs : s.1 = ev at hset
    cases hset with
    | refused => cases hout
    | accepted => exact ⟨rfl, rfl⟩
    | @undecodable m o => exact absurd ⟨_, _, _, _, hs, o.2.1⟩ (hev s hmem)
    | exhausted => cases hout
    | terminal => cases hout
  exact reclaimable_of_task he (hu.outcome.trans hout) (hu.classifyTaskId ▸ hfields.1)
    (hu.deliveredAt ▸ hfields.2)

theorem delivered_reclaimable_whole :
    ∃ st, (∃ rest, Step Config.plain Station.uploading
        (.finished (startAttempt Station.firstEntry Station.epoch) (.ok ⟨0, .queued⟩)
          (Station.epoch :: rest)) st) ∧
      ∃ e, st.fs.get (.queue .delivered "c1" .json) = some (.sidecar e) ∧
        Reclaimable st.fs "c1" e := by
  have hfin : FinishRun Config.plain.schedule Station.uploading.fs
      (startAttempt Station.firstEntry Station.epoch) Station.epoch (.ok ⟨0, .queued⟩) _ := .accepted
  obtain ⟨rest, hs⟩ := Step.exists_finish rfl hfin
  refine ⟨_, ⟨rest, hs⟩, _, get_movedDelivered, delivered_reclaimable Station.blank_initial
    (Station.exec_uploading.snoc hs) ?_ get_movedDelivered rfl⟩
  simp [Station.firstTrace, Event.Undecoded]

/-! ## An answer that does not decode -/

/-- The record of an accepted upload whose answer did not decode stays for ever if it stays at all:
no poll, no prune and no eviction touches it. -/
theorem Inv.stuck {st' : Station} {tr : List (Event × Station)} {d : ClosedEntry c} (hi : Inv st)
    (hd : At st.fs c (.delivered d)) (hpoll : isPollable d.1 = false)
    (hprune : ∀ before, isPrunable d.1 before = false) (hevict : isUndeliverable d.1 = false)
    (h : Exec (Step cfg) st tr st') : At st'.fs c (.delivered d) := by
  obtain ⟨q, hq, hmoves, -⟩ := hi.moved_exec h (hi.mem_used hd (by simp)) hd
  exact hmoves.of_stuck hpoll hprune hevict ▸ hq

/-- A 2xx without a decodable body leaves a delivered record that keeps its slot in every
continuation. -/
theorem undecodable_never_reclaimed :
    ∃ st, (∃ tr, Exec (Step Config.plain) Station.blank tr st) ∧
      ∃ e, e.outcome = some .delivered ∧ isPollable e = false ∧
        (∀ cutoff, isPrunable e cutoff = false) ∧ isUndeliverable e = false ∧
        ∀ tr st', Exec (Step Config.plain) st tr st' →
          st'.fs.get (.queue .delivered "c1" .json) = some (.sidecar e) := by
  have hfin : FinishRun Config.plain.schedule Station.uploading.fs
      (startAttempt Station.firstEntry Station.epoch) Station.epoch
      (.error (.undecodableSuccess "" "")) _ := .undecodable
  obtain ⟨rest, hs⟩ := Step.exists_finish rfl hfin
  have hid : (undecodableRecord (startAttempt Station.firstEntry Station.epoch)
    Station.epoch).clipId = (startAttempt Station.firstEntry Station.epoch).clipId := rfl
  obtain ⟨d, hd, he⟩ := Station.uploading_inv.settled rfl hid rfl
  have hi := Station.uploading_inv.step hs
  have hprune : ∀ cutoff, isPrunable d.1 cutoff = false := by
    rw [he]
    exact fun _ => rfl
  have hpoll : isPollable d.1 = false := he ▸ rfl
  have hevict : isUndeliverable d.1 = false := he ▸ rfl
  refine ⟨_, ⟨_, Station.exec_uploading.snoc hs⟩, d.1, he ▸ rfl, hpoll, hprune, hevict,
    fun tr st' h => ?_⟩
  exact (hi.stuck hd hpoll hprune hevict h).sidecar (by simp)

end Perchstation
