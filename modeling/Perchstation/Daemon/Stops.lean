import Perchstation.Daemon.Settling

/-!
# Stops — what the next process makes of a stop

Wherever the loop was stopped, in a sleep, before a turn or at the await of an upload, and whether a
poll round was dropped with it or not, the next process finds one interrupted upload at most.  Its boot
takes that clip back to `pending/`, with its media and its attempts, and leaves all others where they
were.
-/

namespace Perchstation

open Resumption QueueStore DeliveryRunner

/-- The record of a clip whose upload was cut short. -/
def OpenEntry.requeued {c : ClipId} (o : OpenEntry c) : OpenEntry c :=
  ⟨QueueStore.requeued o.1, requeued_clipId.trans o.2.1, requeued_outcome.trans o.2.2⟩

/-- Where a boot takes a clip. -/
def Phase.resumed {c : ClipId} : Phase c → Phase c
  | .inflight m o => .pending m o.requeued
  | p => p

variable {cfg : Config} {identity : StationIdentity} {d₀ d d' : Daemon} {c : ClipId}
  {recovered : List ClipQueueEntry} {tr : List (DaemonEvent × Daemon)} {st : Station} {fs t : Fs}

/-- The upload awaited is the one in `inflight/`. -/
theorem Daemon.Inv.requeues_iff (hi : d.Inv) {e : ClipQueueEntry} :
    (∃ c, Requeues d.station.fs c e) ↔ d.station.awaiting = some e := by
  constructor
  · rintro ⟨c, hget, -⟩
    obtain ⟨p, hp⟩ := hi.station.tidy c
    obtain rfl := hi.station.named _ _ _ hget
    obtain ⟨m, hce, rfl⟩ := hp.inflight_of_get hget
    exact hi.inflight _ m _ hp
  · intro haw
    obtain ⟨m, ho, hat⟩ := hi.station.awaiting e haw
    refine ⟨e.clipId, hat.sidecar (d := .inflight) (by simp), ?_⟩
    simp [ClipQueueEntry.isTerminal, ho]

/-- A boot recovers the upload that was awaited, and no other. -/
theorem DaemonStep.recovered_eq (hi : d.Inv) (h : DaemonStep cfg identity d (.booted recovered) d') :
    recovered = (d.station.awaiting.map requeued).toList := by
  cases h with
  | boot hr =>
    obtain ⟨-, -, entries, hentries, hlisted, hsorted⟩ :=
      runs_reconcileInflight_files hi.station.legible hi.station.named hr
    obtain rfl := Except.ok.inj hentries
    refine hsorted.eq_toList fun e' => ?_
    rw [hlisted, Option.map_eq_some_iff]
    constructor
    · rintro ⟨c, e, he, rfl⟩
      exact ⟨e, hi.requeues_iff.mp ⟨c, he⟩, rfl⟩
    · rintro ⟨e, haw, rfl⟩
      obtain ⟨c, he⟩ := hi.requeues_iff.mpr haw
      exact ⟨c, e, he, rfl⟩

/-- The files of every clip after a boot. -/
theorem DaemonStep.resumed (hi : d.Inv) (h : DaemonStep cfg identity d (.booted recovered) d')
    {p : Phase c} (hp : At d.station.fs c p) : At d'.station.fs c p.resumed := by
  cases h with
  | @boot st stage logged recovered t hr =>
    obtain ⟨hret, -⟩ := reconcileInflight_returned hi.station.tidy hi.station.named hr
    obtain ⟨-, hclips, -⟩ := runs_reconcileInflight_files hi.station.legible hi.station.named hr
    obtain ⟨q, hq, hpq⟩ := hret c p hp
    cases p with
    | inflight m o =>
      have hopen : o.1.isTerminal = false := by simp [ClipQueueEntry.isTerminal, o.2.2]
      obtain ⟨-, hside⟩ := recoveredFiles_requeued (f := holdings st.fs c)
        (hp.sidecar (d := .inflight) (by simp)) hopen
        (Or.inl (hp.media (d := .inflight) (by simp)))
      rw [← hclips c] at hside
      rcases hpq with rfl | ⟨m', o₁, o₂, hm, rfl, -⟩
      · cases hside.symm.trans (hq.sidecar (d := .pending) (by simp))
      · obtain ⟨rfl, rfl⟩ := Phase.inflight.inj hm
        have hentry := hside.symm.trans (hq.sidecar (d := .pending) (by simp))
        have ho : o₂ = o.requeued := Subtype.ext (Blob.sidecar.inj (Option.some.inj hentry)).symm
        rw [ho] at hq
        exact hq
    | gone | pending | delivered =>
      rcases hpq with rfl | ⟨_, _, _, hm, -⟩
      · exact hq
      · cases hm

/-- A boot always goes through. -/
theorem Daemon.Inv.exists_boot (hi : d.Inv) :
    ∃ recovered d', DaemonStep cfg identity d (.booted recovered) d' := by
  obtain ⟨v, t, hrun⟩ := exists_runs_reconcileInflight d.station.fs
  obtain ⟨-, -, recovered, rfl, -⟩ :=
    runs_reconcileInflight_files hi.station.legible hi.station.named hrun
  exact ⟨recovered, _, .boot hrun⟩

/-- If a run has been stopped between operations or while it awaited an upload, a boot is possible and
recovers exactly the upload that was being awaited.  Its clip is back in `pending/` with its media and
with its record but for the retry time and the last error, nothing is in `inflight/`, and every other
clip is where it was. -/
theorem boots_resume (h₀ : d₀.Initial) (h : Exec (DaemonStep cfg identity) d₀ tr d) :
    (∃ recovered d', DaemonStep cfg identity d (.booted recovered) d') ∧
      ∀ recovered d', DaemonStep cfg identity d (.booted recovered) d' →
        recovered = (d.station.awaiting.map requeued).toList ∧
          (∀ c (p : Phase c), At d.station.fs c p → At d'.station.fs c p.resumed) ∧
          ∀ c m o, ¬ At d'.station.fs c (.inflight m o) := by
  have hi := h₀.inv.exec h
  refine ⟨hi.exists_boot, fun recovered d' hboot => ⟨hboot.recovered_eq hi, fun c p hp =>
    hboot.resumed hi hp, fun c m o hat => ?_⟩⟩
  obtain ⟨p, hp⟩ := hi.station.tidy c
  have hres := (hboot.resumed hi hp).unique hat
  cases p <;> cases hres

/-- The process is stopped while it uploads the first clip. -/
theorem boots_resume_uploading : ∃ d', DaemonStep Config.plain Daemon.hourly (Daemon.states 1)
    (.booted [requeued (startAttempt Station.firstEntry Station.epoch)]) d' := by
  obtain ⟨taking, finishing, idling, hserves⟩ := Daemon.exists_serves_states
  have hrun := Daemon.exec_states.snoc (hserves.steps 0)
  obtain ⟨⟨recovered, d', hboot⟩, hall⟩ := boots_resume ⟨Station.blank_initial, rfl⟩ hrun
  obtain ⟨hrec, -⟩ := hall recovered d' hboot
  rw [hrec] at hboot
  exact ⟨d', hboot⟩

end Perchstation
