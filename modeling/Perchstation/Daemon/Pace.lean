import Perchstation.Daemon.Settling
import Mathlib.Algebra.BigOperators.Group.Finset.Piecewise

/-!
# Pace — the delivery loop does not spin

A turn is followed by a sleep or has taken up a clip, and a clip is taken up only so often.  So the
turns of a run are bounded by its sleeps, its clips and its boots.
-/

namespace Perchstation

open Resumption QueueStore DeliveryRunner

/-! ## What is counted -/

namespace DaemonEvent

def isTurn : DaemonEvent → Bool
  | .turned _ _ => true
  | _ => false

def isBoot : DaemonEvent → Bool
  | .booted _ => true
  | _ => false

/-- The event logs that the certificate has expired. -/
def logsExpiry : DaemonEvent → Bool
  | .turned _ (.halted logs) => logs
  | _ => false

def isSleep : DaemonEvent → Bool
  | .woken _ => true
  | _ => false

/-- How long the loop has slept. -/
def sleep : DaemonEvent → StdDuration
  | .woken tick => tick
  | _ => 0

end DaemonEvent

def turns (tr : List (DaemonEvent × Daemon)) : ℕ := tr.countP fun s => s.1.isTurn

def sleeps (tr : List (DaemonEvent × Daemon)) : ℕ := tr.countP fun s => s.1.isSleep

def boots (tr : List (DaemonEvent × Daemon)) : ℕ := tr.countP fun s => s.1.isBoot

def expiryLogs (tr : List (DaemonEvent × Daemon)) : ℕ := tr.countP fun s => s.1.logsExpiry

def slept (tr : List (DaemonEvent × Daemon)) : StdDuration := (tr.map fun s => s.1.sleep).sum

variable {tr : List (DaemonEvent × Daemon)} {s : DaemonEvent × Daemon}

theorem turns_snoc : turns (tr ++ [s]) = turns tr + if s.1.isTurn then 1 else 0 := by
  simp [turns, List.countP_singleton]

theorem sleeps_snoc : sleeps (tr ++ [s]) = sleeps tr + if s.1.isSleep then 1 else 0 := by
  simp [sleeps, List.countP_singleton]

theorem boots_snoc : boots (tr ++ [s]) = boots tr + if s.1.isBoot then 1 else 0 := by
  simp [boots, List.countP_singleton]

theorem expiryLogs_snoc : expiryLogs (tr ++ [s]) = expiryLogs tr + if s.1.logsExpiry then 1 else 0 := by
  simp [expiryLogs, List.countP_singleton]

theorem slept_snoc : slept (tr ++ [s]) = slept tr + s.1.sleep := by
  simp [slept]

/-! ## What a step adds -/

variable {cfg : Config} {identity : StationIdentity} {d d' : Daemon} {ev : DaemonEvent} {c : ClipId}
  {limit : UInt32} {fs : Fs}

/-- The loop sleeps, or is not running. -/
def DeliveryRunner.Stage.rests : Stage → Bool
  | .asleep _ => true
  | .over => true
  | _ => false

/-- Clips that were not there before have at most all their turns. -/
theorem allMovesLeft_le_of_subset {clips all : Finset ClipId} (h : clips ⊆ all) :
    allMovesLeft limit fs all + (limit.toNat + 1) * clips.card ≤
      allMovesLeft limit fs clips + (limit.toNat + 1) * all.card := by
  have hnew : ∑ c ∈ all \ clips, movesLeft limit fs c ≤ (all \ clips).card * (limit.toNat + 1) :=
    Finset.sum_le_card_nsmul _ _ _ fun c _ => movesLeft_le limit fs c
  have hsum := Finset.sum_sdiff (f := fun c => movesLeft limit fs c) h
  have hcard := Finset.card_sdiff_add_card_eq_card h
  rw [Nat.mul_comm] at hnew
  unfold allMovesLeft
  rw [← hsum, ← hcard, Nat.mul_add]
  omega

/-- The turns left to all clips. -/
def Daemon.allMovesLeft (limit : UInt32) (d : Daemon) : ℕ :=
  Perchstation.allMovesLeft limit d.station.fs d.station.used

/-- A step that is no boot adds the turns of the clips it enqueues. -/
theorem DaemonStep.enqueues (hi : d.Inv) (h : DaemonStep cfg identity d ev d')
    (hboot : ∀ recovered, ev ≠ .booted recovered) :
    d'.allMovesLeft cfg.schedule.perClipMaxAttempts +
        (cfg.schedule.perClipMaxAttempts.toNat + 1) * d.station.used.card ≤
      d.allMovesLeft cfg.schedule.perClipMaxAttempts +
        (cfg.schedule.perClipMaxAttempts.toNat + 1) * d'.station.used.card := by
  have hold := h.allMovesLeft_le hi hboot (Finset.Subset.refl d.station.used)
  have hnew := @allMovesLeft_le_of_subset cfg.schedule.perClipMaxAttempts d'.station.fs _ _
    h.used_subset
  unfold Daemon.allMovesLeft
  omega

/-- A boot gives the clip whose upload was cut off at most one turn more. -/
theorem DaemonStep.boot_adds {recovered : List ClipQueueEntry} (hi : d.Inv)
    (h : DaemonStep cfg identity d (.booted recovered) d') :
    d'.allMovesLeft cfg.schedule.perClipMaxAttempts ≤
      d.allMovesLeft cfg.schedule.perClipMaxAttempts + 1 := by
  have hclip : ∀ c ∈ d.station.used,
      movesLeft cfg.schedule.perClipMaxAttempts d'.station.fs c ≤
        movesLeft cfg.schedule.perClipMaxAttempts d.station.fs c +
          if d.station.awaiting.map ClipQueueEntry.clipId = some c then 1 else 0 := by
    intro c hc
    obtain ⟨p, hp⟩ := hi.station.tidy c
    obtain ⟨q, hq, hmove⟩ := (h.spec hi).2 c p hp
    rw [hp.movesLeft, hq.movesLeft]
    cases hmove with
    | same => exact Nat.le_add_right _ _
    | enqueued hnew => exact (hnew hc).elim
    | removed hnames => exact hnames.elim
    | polled => exact Nat.zero_le _
    | taken hev => cases hev
    | refused hev => cases hev
    | retried hev => cases hev
    | settled hev => cases hev
    | @requeued _ m o o' _ hatt =>
      -- only the clip whose upload was dropped gets its turn back
      have haw := hi.inflight c m o hp
      rw [if_pos (by rw [haw]; exact congrArg some o.2.1)]
      show turnsLeft _ o'.1.attempts ≤ (if o.1.attempts < _ then turnsLeft _ o.1.attempts else 0) + 1
      rw [hatt]
      split_ifs with hlt
      · exact Nat.le_succ _
      · rw [UInt32.lt_iff_toNat_lt] at hlt
        unfold turnsLeft
        omega
  have hused : d'.station.used = d.station.used := by
    cases h with
    | boot => rfl
  have hone : (∑ c ∈ d.station.used,
      if d.station.awaiting.map ClipQueueEntry.clipId = some c then 1 else 0) ≤ 1 := by
    cases d.station.awaiting.map ClipQueueEntry.clipId with
    | none => simp
    | some awaited =>
      simp only [Option.some.injEq, Finset.sum_ite_eq]
      split_ifs <;> omega
  unfold Daemon.allMovesLeft allMovesLeft
  rw [hused]
  exact (Finset.sum_le_sum hclip).trans (by rw [Finset.sum_add_distrib]; omega)

/-- 1 while the loop rests. -/
def Daemon.resting (d : Daemon) : ℕ := if d.stage.rests then 1 else 0

/-- A turn that finds nothing is followed by a sleep, any other leaves the clips fewer turns. -/
theorem DaemonStep.turn_pays {readings : List DateTime} {head : TurnHead} (hi : d.Inv)
    (h : DaemonStep cfg identity d (.turned readings head) d') :
    d.resting = 0 ∧ d'.station.used = d.station.used ∧
      d'.allMovesLeft cfg.schedule.perClipMaxAttempts + 1 ≤
        d.allMovesLeft cfg.schedule.perClipMaxAttempts + d'.resting := by
  have hle := h.allMovesLeft_le hi (by simp) (Finset.Subset.refl d.station.used)
  have hscan := h.turned hi
  have hbusy : ∀ c ∈ d.station.used,
      movesLeft cfg.schedule.perClipMaxAttempts d'.station.fs c <
        movesLeft cfg.schedule.perClipMaxAttempts d.station.fs c →
      allMovesLeft cfg.schedule.perClipMaxAttempts d'.station.fs d.station.used <
        allMovesLeft cfg.schedule.perClipMaxAttempts d.station.fs d.station.used :=
    fun c hc hlt => h.allMovesLeft_lt hi (by simp) (Finset.Subset.refl _) hc hlt
  have hused : ∀ {c m} {o : OpenEntry c}, At d.station.fs c (.pending m o) → c ∈ d.station.used :=
    fun hat => hi.station.mem_used hat (by simp)
  cases h with
  | @turn st logged readings head t hr =>
    refine ⟨rfl, rfl, ?_⟩
    obtain ⟨gate, readings', rfl, ⟨-, rfl⟩ | ⟨-, at_, rest, r, rfl, rfl, hmoves⟩⟩ := hscan
    · exact Nat.add_le_add_right hle 1
    · by_cases hidle : r = .ok .idle
      · subst hidle
        exact Nat.add_le_add_right hle 1
      · obtain ⟨c, e, m, o, -, hat, hlt⟩ := hmoves.picks hidle
        have hlt := hbusy c (hused hat) hlt
        exact (Nat.succ_le_of_lt hlt).trans (Nat.le_add_right _ _)

theorem Daemon.resting_le (d : Daemon) : d.resting ≤ 1 := by
  unfold Daemon.resting
  split_ifs <;> omega

/-- Only waking up ends a rest of a process that is running. -/
theorem DaemonStep.wakes (h : DaemonStep cfg identity d ev d')
    (hboot : ∀ recovered, ev ≠ .booted recovered) :
    d.resting ≤ d'.resting + if ev.isSleep then 1 else 0 := by
  cases h with
  | task | dropPoll => exact Nat.le_add_right _ _
  | turn | upload => exact Nat.zero_le _
  | wake => exact Daemon.resting_le _
  | cancel => exact Daemon.resting_le _
  | boot => exact (hboot _ rfl).elim

/-- What a step costs: a turn is paid for by a sleep to come, a turn of a clip or a boot. -/
theorem DaemonStep.pays (hi : d.Inv) (h : DaemonStep cfg identity d ev d') :
    (if ev.isTurn then 1 else 0) + d'.allMovesLeft cfg.schedule.perClipMaxAttempts + d.resting +
        (cfg.schedule.perClipMaxAttempts.toNat + 1) * d.station.used.card ≤
      d.allMovesLeft cfg.schedule.perClipMaxAttempts + d'.resting +
        (cfg.schedule.perClipMaxAttempts.toNat + 1) * d'.station.used.card +
        (if ev.isSleep then 1 else 0) + 2 * (if ev.isBoot then 1 else 0) := by
  cases ev with
  | booted recovered =>
    have hadd := h.boot_adds hi
    have hmul := Nat.mul_le_mul_left (cfg.schedule.perClipMaxAttempts.toNat + 1)
      (Finset.card_le_card h.used_subset)
    have hrest := d.resting_le
    simp only [DaemonEvent.isTurn, DaemonEvent.isSleep, DaemonEvent.isBoot, Bool.false_eq_true,
      if_false, if_true]
    omega
  | turned readings head =>
    obtain ⟨htop, hused, hpays⟩ := h.turn_pays hi
    simp only [DaemonEvent.isTurn, DaemonEvent.isSleep, DaemonEvent.isBoot, Bool.false_eq_true,
      if_false, if_true]
    rw [hused, htop]
    omega
  | _ =>
    have hmore := h.enqueues hi (by simp)
    have hrest := h.wakes (by simp)
    simp only [DaemonEvent.isTurn, DaemonEvent.isBoot, Bool.false_eq_true, if_false]
    omega

/-- The turns of a run, against its sleeps, its clips and its boots. -/
theorem turns_le (h₀ : d.Initial) (h : Exec (DaemonStep cfg identity) d tr d') :
    turns tr + d'.allMovesLeft cfg.schedule.perClipMaxAttempts + 1 ≤
      d'.resting + (cfg.schedule.perClipMaxAttempts.toNat + 1) * d'.station.used.card + sleeps tr +
        2 * boots tr := by
  induction h with
  | nil =>
    have hover : d.resting = 1 := by
      rw [Daemon.resting, h₀.stage]
      rfl
    have hnone : d.allMovesLeft cfg.schedule.perClipMaxAttempts = 0 := by
      rw [Daemon.allMovesLeft, h₀.station.used]
      rfl
    show 0 + _ + 1 ≤ _ + _ + 0 + 2 * 0
    omega
  | @snoc tr a b l hrun hstep ih =>
    have hpays := hstep.pays (h₀.inv.exec hrun)
    rw [turns_snoc, sleeps_snoc, boots_snoc]
    dsimp only
    omega

/-! ## The length of a sleep -/

/-- Without faults the loop sleeps an idle tick or an expiry tick. -/
def Daemon.Naps (d : Daemon) : Prop :=
  ∀ tick, d.stage = .asleep tick → tick = idleTick ∨ tick = certExpiredTick

theorem Daemon.Naps.step (hn : d.Naps) (hi : d.Inv) (h : DaemonStep cfg identity d ev d') :
    d'.Naps := by
  intro tick htick
  cases h with
  | task | dropPoll => exact hn tick htick
  | @turn st logged readings head t hr =>
    have hstep : DaemonStep cfg identity _ _ _ := .turn hr
    obtain ⟨gate, readings', rfl, ⟨-, rfl⟩ | ⟨-, at_, rest, r, rfl, rfl, hmoves⟩⟩ := hstep.turned hi
    · exact Or.inr (Stage.asleep.inj htick).symm
    · cases hmoves with
      | idle => exact Or.inl (Stage.asleep.inj htick).symm
      | refused => cases htick
      | taken => cases htick
  | @upload st e logged result readings r t hr =>
    obtain ⟨_, _, -, rfl, -⟩ := runs_tryOnceFinish hr
    cases htick
  | wake | cancel | boot => cases htick

/-- Every sleep is at least an idle tick long. -/
theorem sleeps_le (h₀ : d.Initial) (h : Exec (DaemonStep cfg identity) d tr d') :
    d'.Naps ∧ idleTick * sleeps tr ≤ slept tr := by
  induction h with
  | nil =>
    refine ⟨fun tick htick => ?_, le_refl 0⟩
    rw [h₀.stage] at htick
    cases htick
  | @snoc tr a b l hrun hstep ih =>
    obtain ⟨hnaps, hle⟩ := ih
    refine ⟨hnaps.step (h₀.inv.exec hrun) hstep, ?_⟩
    rw [sleeps_snoc, slept_snoc]
    cases hstep with
    | wake st tick logged =>
      have htick : idleTick ≤ tick := by
        rcases hnaps tick rfl with rfl | rfl
        · exact le_refl _
        · decide
      show idleTick * (sleeps tr + 1) ≤ slept tr + tick
      rw [Nat.mul_succ]
      exact Nat.add_le_add hle htick
    | _ => exact hle

/-! ## The expiry in the log -/

def DeliveryRunner.Stage.isOver : Stage → Bool
  | .over => true
  | _ => false

/-- 1 while the process can still log the expiry. -/
def Daemon.mayLog (d : Daemon) : ℕ := if d.stage.isOver || d.certExpiredLogged then 0 else 1

theorem Daemon.mayLog_le (d : Daemon) : d.mayLog ≤ 1 := by
  unfold Daemon.mayLog
  split_ifs <;> omega

/-- A loop that is running and has not logged the expiry can still do so. -/
theorem Daemon.mayLog_le_of_running {d d' : Daemon} (hover : d.stage.isOver = false)
    (hlogged : d'.certExpiredLogged = d.certExpiredLogged) : d'.mayLog ≤ d.mayLog := by
  unfold Daemon.mayLog
  rw [hover, hlogged, Bool.false_or]
  by_cases hl : d.certExpiredLogged = true
  · rw [hl, Bool.or_true]
  · rw [if_neg hl]
    split_ifs <;> omega

/-- A process can log the expiry once, and only a boot starts a new one. -/
theorem DaemonStep.mayLog_le (hi : d.Inv) (h : DaemonStep cfg identity d ev d') :
    (if ev.logsExpiry then 1 else 0) + d'.mayLog ≤ d.mayLog + if ev.isBoot then 1 else 0 := by
  cases h with
  | task | dropPoll => exact Nat.zero_add _ ▸ Nat.le_refl _
  | @turn st logged readings head t hr =>
    rcases head with logs | r
    · have hstep : DaemonStep cfg identity _ _ _ := .turn hr
      obtain ⟨gate, readings', rfl, ⟨-, hhalted⟩ | ⟨-, _, _, _, -, hhead, -⟩⟩ := hstep.turned hi
      · obtain rfl := TurnHead.halted.inj hhalted
        cases logged <;> exact le_refl _
      · cases hhead
    · exact (Nat.zero_add _).trans_le (Daemon.mayLog_le_of_running rfl rfl)
  | upload => exact (Nat.zero_add _).trans_le (Daemon.mayLog_le_of_running rfl rfl)
  | wake st tick logged => exact Nat.zero_add _ ▸ Nat.le_refl _
  | cancel => exact Nat.zero_le _
  | @boot st stage logged recovered t hr =>
    exact (Nat.zero_add _).trans_le ((Daemon.mayLog_le _).trans (Nat.le_add_left 1 _))

theorem expiryLogs_le (h₀ : d.Initial) (h : Exec (DaemonStep cfg identity) d tr d') :
    expiryLogs tr + d'.mayLog ≤ boots tr := by
  induction h with
  | nil =>
    rw [Daemon.mayLog, h₀.stage]
    exact le_refl 0
  | @snoc tr a b l hrun hstep ih =>
    have hstep := hstep.mayLog_le (h₀.inv.exec hrun)
    rw [expiryLogs_snoc, boots_snoc]
    dsimp only
    omega

/-- In every run of the station with all its tasks, stopped between operations or while it awaits an
upload and booted again, the turns of the delivery loop beyond one for each idle tick slept are at most
one for each attempt a clip has and one more, for the clips ever enqueued, and two for each boot.  The
expiry of the certificate is logged at most once for each boot. -/
theorem turns_paced (h₀ : d.Initial) (h : Exec (DaemonStep cfg identity) d tr d') :
    idleTick * turns tr ≤ slept tr + idleTick *
        ((cfg.schedule.perClipMaxAttempts.toNat + 1) * d'.station.used.card + 2 * boots tr) ∧
      expiryLogs tr ≤ boots tr := by
  have hturns := turns_le h₀ h
  have hrest := d'.resting_le
  have hsleeps := (sleeps_le h₀ h).2
  have hlogs := expiryLogs_le h₀ h
  refine ⟨?_, by omega⟩
  have hle : turns tr ≤ sleeps tr +
      ((cfg.schedule.perClipMaxAttempts.toNat + 1) * d'.station.used.card + 2 * boots tr) := by
    omega
  have hmul := Nat.mul_le_mul_left idleTick hle
  rw [Nat.mul_add] at hmul
  exact hmul.trans (Nat.add_le_add_right hsleeps _)

/-- The process that uploads the first clip takes one turn for it. -/
theorem turns_paced_accepted : ∃ tr, turns tr = 1 ∧
    idleTick * turns tr ≤ slept tr + idleTick *
        ((Config.plain.schedule.perClipMaxAttempts.toNat + 1) *
          (Daemon.states 2).station.used.card + 2 * boots tr) ∧
      expiryLogs tr ≤ boots tr := by
  obtain ⟨taking, finishing, idling, hserves⟩ := Daemon.exists_serves_states
  have hrun := (Daemon.exec_states.snoc (hserves.steps 0)).snoc (hserves.steps 1)
  exact ⟨_, rfl, turns_paced ⟨Station.blank_initial, rfl⟩ hrun⟩

end Perchstation
