import Perchstation.Daemon
import Mathlib.Algebra.Order.BigOperators.Group.Finset

/-!
# Moves left — the turns the clips can still take

A clip in `pending/` can be taken up once for each attempt it has left, and once more.  A turn that
takes a clip up leaves it fewer turns; a retry gives none back, because the schedule retries only
below the limit.  Only an enqueue and a boot add to what remains.
-/

namespace Perchstation

open QueueStore

variable {limit : UInt32} {fs t : Fs} {c : ClipId} {p q : Phase c} {d d' : Daemon} {ev : DaemonEvent}

/-- The turns that can still take up a clip of `pending/` with these attempts. -/
def turnsLeft (limit attempts : UInt32) : ℕ := limit.toNat - attempts.toNat + 1

/-- The turns a clip in this phase can still take; one in `inflight/` counts as if it came back. -/
def Phase.movesLeft (limit : UInt32) : Phase c → ℕ
  | .gone => 0
  | .pending _ o => turnsLeft limit o.1.attempts
  | .inflight _ o => if o.1.attempts < limit then turnsLeft limit o.1.attempts else 0
  | .delivered _ => 0

/-- The same, read off the files. -/
def movesLeft (limit : UInt32) (fs : Fs) (c : ClipId) : ℕ :=
  match fs.get (.queue .pending c .json), fs.get (.queue .inflight c .json) with
  | some (.sidecar e), _ => turnsLeft limit e.attempts
  | _, some (.sidecar e) => if e.attempts < limit then turnsLeft limit e.attempts else 0
  | _, _ => 0

theorem At.movesLeft (h : At fs c p) : movesLeft limit fs c = p.movesLeft limit := by
  rw [Perchstation.movesLeft, h.sidecar (d := .pending) (by simp),
    h.sidecar (d := .inflight) (by simp)]
  cases p <;> rfl

theorem turnsLeft_le (limit attempts : UInt32) : turnsLeft limit attempts ≤ limit.toNat + 1 := by
  unfold turnsLeft
  omega

theorem movesLeft_le (limit : UInt32) (fs : Fs) (c : ClipId) :
    movesLeft limit fs c ≤ limit.toNat + 1 := by
  unfold movesLeft
  split
  · exact turnsLeft_le _ _
  · split_ifs
    · exact turnsLeft_le _ _
    · exact Nat.zero_le _
  · exact Nat.zero_le _

/-- An attempt uses up one of the turns. -/
theorem movesLeft_started_lt {m : Blob} {o : OpenEntry c} {at_ : DateTime} :
    (Phase.inflight m (o.started at_)).movesLeft limit < (Phase.pending m o).movesLeft limit := by
  have hatt : (o.started at_).1.attempts.toNat = min (o.1.attempts.toNat + 1) (2 ^ 32 - 1) :=
    attempts_startAttempt_toNat o.1 at_
  have hlimit := limit.toNat_lt
  show (if _ then _ else 0) < limit.toNat - o.1.attempts.toNat + 1
  split_ifs with hlt
  · rw [UInt32.lt_iff_toNat_lt, hatt] at hlt
    show limit.toNat - (o.started at_).1.attempts.toNat + 1 < _
    omega
  · omega

/-- A step other than a boot leaves a clip enqueued before it no more turns. -/
theorem ClipMove.movesLeft_le (h : ClipMove limit d ev c p q) (hc : c ∈ d.station.used)
    (hboot : ∀ recovered, ev ≠ .booted recovered) : q.movesLeft limit ≤ p.movesLeft limit := by
  cases h with
  | same => exact le_refl _
  | enqueued hnew => exact (hnew hc).elim
  | removed => exact Nat.zero_le _
  | polled => exact le_refl _
  | taken => exact movesLeft_started_lt.le
  | refused => exact Nat.zero_le _
  | @retried m o o' _ _ _ hatt hlt =>
    show turnsLeft limit o'.1.attempts ≤ if o.1.attempts < limit then _ else 0
    rw [if_pos hlt, hatt]
  | settled => exact Nat.zero_le _
  | requeued hev => exact (hboot _ hev).elim

/-- The turns of all clips of a set. -/
def allMovesLeft (limit : UInt32) (fs : Fs) (clips : Finset ClipId) : ℕ :=
  ∑ c ∈ clips, movesLeft limit fs c

section Steps

variable {cfg : Config} {identity : StationIdentity} {clips : Finset ClipId}

theorem DaemonStep.movesLeft_le (hi : d.Inv) (h : DaemonStep cfg identity d ev d')
    (hboot : ∀ recovered, ev ≠ .booted recovered) (hc : c ∈ d.station.used) :
    Perchstation.movesLeft cfg.schedule.perClipMaxAttempts d'.station.fs c ≤
      Perchstation.movesLeft cfg.schedule.perClipMaxAttempts d.station.fs c := by
  obtain ⟨p, hp⟩ := hi.station.tidy c
  obtain ⟨q, hq, hmove⟩ := (h.spec hi).2 c p hp
  rw [hp.movesLeft, hq.movesLeft]
  exact hmove.movesLeft_le hc hboot

theorem DaemonStep.allMovesLeft_le (hi : d.Inv) (h : DaemonStep cfg identity d ev d')
    (hboot : ∀ recovered, ev ≠ .booted recovered) (hclips : clips ⊆ d.station.used) :
    allMovesLeft cfg.schedule.perClipMaxAttempts d'.station.fs clips ≤
      allMovesLeft cfg.schedule.perClipMaxAttempts d.station.fs clips :=
  Finset.sum_le_sum fun _ hc => h.movesLeft_le hi hboot (hclips hc)

/-- A step that leaves one of the clips fewer turns leaves fewer in all. -/
theorem DaemonStep.allMovesLeft_lt (hi : d.Inv) (h : DaemonStep cfg identity d ev d')
    (hboot : ∀ recovered, ev ≠ .booted recovered) (hclips : clips ⊆ d.station.used) (hc : c ∈ clips)
    (hlt : Perchstation.movesLeft cfg.schedule.perClipMaxAttempts d'.station.fs c <
      Perchstation.movesLeft cfg.schedule.perClipMaxAttempts d.station.fs c) :
    allMovesLeft cfg.schedule.perClipMaxAttempts d'.station.fs clips <
      allMovesLeft cfg.schedule.perClipMaxAttempts d.station.fs clips :=
  Finset.sum_lt_sum (fun _ hc => h.movesLeft_le hi hboot (hclips hc)) ⟨c, hc, hlt⟩

/-- A scan that finds something takes up the clip that comes first and leaves it fewer turns. -/
theorem HeadMoves.picks {at_ : DateTime} {r : Except QueueError Head} (h : HeadMoves fs at_ r t)
    (hr : r ≠ .ok .idle) : ∃ c e m o, PickedFirst fs at_ c e ∧ At fs c (.pending m o) ∧
      Perchstation.movesLeft limit t c < Perchstation.movesLeft limit fs c := by
  cases h with
  | idle => exact (hr rfl).elim
  | @refused _ c m o _ hfirst hfs ht _ =>
    refine ⟨c, o.1, m, o, hfirst, hfs, ?_⟩
    rw [hfs.movesLeft, ht.movesLeft]
    exact Nat.succ_pos _
  | @taken _ c m o hfirst hfs ht _ =>
    refine ⟨c, o.1, m, o, hfirst, hfs, ?_⟩
    rw [hfs.movesLeft, ht.movesLeft]
    exact movesLeft_started_lt

end Steps

end Perchstation
