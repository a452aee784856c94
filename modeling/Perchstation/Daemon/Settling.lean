import Perchstation.Daemon.MovesLeft
import Perchstation.Lib.Endless

/-!
# Settling — every clip is delivered, given up or evicted in the end

A process that goes on serving takes turn after turn.  As long as a clip waits, the clips that sort
before it have fewer turns left with every turn that takes one of them up; when none is taken up any
more, the clip itself comes first as soon as its retry time has come.
-/

namespace Perchstation

open Resumption QueueStore DeliveryRunner

/-- The event is one of the delivery loop. -/
def DaemonEvent.OfLoop : DaemonEvent → Prop
  | .turned _ _ => True
  | .uploaded _ _ _ => True
  | .woken _ => True
  | _ => False

/-- A process that serves for ever: it is neither stopped nor started again, its loop is not starved
(so that sleeps and uploads come to their ends), and its certificate stays valid. -/
structure Serves (cfg : Config) (identity : StationIdentity) (st : ℕ → Daemon)
    (ev : ℕ → DaemonEvent) : Prop where
  steps : Endless (DaemonStep cfg identity) st ev
  goesOn : ∀ n, ev n ≠ .cancelled
  stays : ∀ n recovered, ev n ≠ .booted recovered
  fair : ∀ n, ∃ m, n ≤ m ∧ (ev m).OfLoop
  valid : ∀ n readings logs, ev n ≠ .turned readings (.halted logs)

variable {cfg : Config} {identity : StationIdentity} {st : ℕ → Daemon} {ev : ℕ → DaemonEvent}
  {c : ClipId}

/-! ## Turn after turn -/

/-- How far the loop is from its head. -/
def stageRank : Stage → ℕ
  | .uploading _ => 2
  | .asleep _ => 1
  | _ => 0

theorem stageRank_afterFinish_le {schedule : BackoffSchedule} {r : Except QueueError Unit} :
    stageRank (stageAfterFinish schedule r) ≤ 1 := by
  have hafter : ∀ pause, stageRank (Stage.after pause) ≤ 1 := by
    intro pause
    cases pause with
    | none => exact Nat.zero_le 1
    | some tick => exact le_refl 1
  cases r with
  | ok => exact hafter (pauseAfter schedule (.ok true))
  | error err => exact hafter (pauseAfter schedule (.error err))

/-- What a step without a turn and without a stop does to the stage. -/
theorem DaemonStep.stageRank_le {d d' : Daemon} {l : DaemonEvent}
    (h : DaemonStep cfg identity d l d') (hturn : ∀ readings head, l ≠ .turned readings head)
    (hboot : ∀ recovered, l ≠ .booted recovered) :
    stageRank d'.stage ≤ stageRank d.stage ∧
      (l.OfLoop → stageRank d'.stage < stageRank d.stage) := by
  cases h with
  | task => exact ⟨le_refl _, False.elim⟩
  | turn => exact (hturn _ _ rfl).elim
  | @upload st e logged result readings r t hr =>
    have hlt : stageRank (stageAfterFinish cfg.schedule r) < stageRank (.uploading e) :=
      Nat.lt_succ_of_le stageRank_afterFinish_le
    exact ⟨hlt.le, fun _ => hlt⟩
  | wake => exact ⟨Nat.zero_le _, fun _ => Nat.zero_lt_one⟩
  | cancel => exact ⟨Nat.zero_le _, False.elim⟩
  | dropPoll => exact ⟨le_refl _, False.elim⟩
  | boot => exact (hboot _ rfl).elim

/-- A process that serves takes a turn again and again. -/
theorem Serves.exists_turn (h : Serves cfg identity st ev) (k : ℕ) :
    ∃ n, k ≤ n ∧ ∃ readings head, ev n = .turned readings head := by
  by_contra hno
  have hnone : ∀ n, k ≤ n → ∀ readings head, ev n ≠ .turned readings head :=
    fun n hn readings head he => hno ⟨n, hn, readings, head, he⟩
  have hrank : ∀ n, k ≤ n → stageRank (st (n + 1)).stage ≤ stageRank (st n).stage ∧
      ((ev n).OfLoop → stageRank (st (n + 1)).stage < stageRank (st n).stage) :=
    fun n hn => (h.steps n).stageRank_le (hnone n hn) (h.stays n)
  obtain ⟨n, hn, hsame⟩ :=
    @exists_stable (fun n => stageRank (st n).stage) k fun n hn => (hrank n hn).1
  obtain ⟨m, hm, hloop⟩ := h.fair n
  have hlt := (hrank m (hn.trans hm)).2 hloop
  rw [hsame (m + 1) (hm.trans (Nat.le_succ m)), hsame m hm] at hlt
  exact Nat.lt_irrefl _ hlt

/-! ## While a clip waits -/

/-- The clip waits in `pending/` or is being uploaded. -/
def Waits (d : Daemon) (c : ClipId) : Prop :=
  (∃ m o, At d.station.fs c (.pending m o)) ∨ ∃ m o, At d.station.fs c (.inflight m o)

/-- The clip has its outcome, or the step before has removed it. -/
def Settles (ev : DaemonEvent) (d : Daemon) (c : ClipId) : Prop :=
  (∃ e, At d.station.fs c (.delivered e)) ∨ ev.Names c

variable {d d' : Daemon} {l : DaemonEvent}

theorem Waits.mem_used (hi : d.Inv) (h : Waits d c) : c ∈ d.station.used := by
  rcases h with ⟨m, o, hat⟩ | ⟨m, o, hat⟩
  · exact hi.station.mem_used hat (by simp)
  · exact hi.station.mem_used hat (by simp)

/-- A clip that waits goes on to wait or settles. -/
theorem DaemonStep.waits (hi : d.Inv) (h : DaemonStep cfg identity d l d') (hw : Waits d c) :
    Waits d' c ∨ Settles l d' c := by
  rcases hw with ⟨m, o, hat⟩ | ⟨m, o, hat⟩ <;>
    obtain ⟨q, hq, hmove⟩ := (h.spec hi).2 c _ hat
  · cases hmove with
    | same => exact Or.inl (Or.inl ⟨_, _, hq⟩)
    | removed hnames => exact Or.inr (Or.inr hnames)
    | taken => exact Or.inl (Or.inr ⟨_, _, hq⟩)
    | refused => exact Or.inr (Or.inl ⟨_, hq⟩)
  · cases hmove with
    | same => exact Or.inl (Or.inr ⟨_, _, hq⟩)
    | removed _ hne => exact (hne _ _ rfl).elim
    | retried => exact Or.inl (Or.inl ⟨_, _, hq⟩)
    | settled => exact Or.inr (Or.inl ⟨_, hq⟩)
    | requeued => exact Or.inl (Or.inl ⟨_, _, hq⟩)

/-- A clip of `pending/` stays there with its record, settles, or is left fewer turns. -/
theorem DaemonStep.pending (hi : d.Inv) (h : DaemonStep cfg identity d l d') {m : Blob}
    {o : OpenEntry c} (hat : At d.station.fs c (.pending m o)) :
    At d'.station.fs c (.pending m o) ∨ Settles l d' c ∨
      movesLeft cfg.schedule.perClipMaxAttempts d'.station.fs c <
        movesLeft cfg.schedule.perClipMaxAttempts d.station.fs c := by
  obtain ⟨q, hq, hmove⟩ := (h.spec hi).2 c _ hat
  cases hmove with
  | same => exact Or.inl hq
  | removed hnames => exact Or.inr (Or.inl (Or.inr hnames))
  | taken =>
    refine Or.inr (Or.inr ?_)
    rw [hat.movesLeft, hq.movesLeft]
    exact movesLeft_started_lt
  | refused => exact Or.inr (Or.inl (Or.inl ⟨_, hq⟩))

/-- At the head of the loop a clip that waits does so in `pending/`. -/
theorem Waits.pending (hi : d.Inv) (hw : Waits d c) {readings : List DateTime} {head : TurnHead}
    (h : DaemonStep cfg identity d (.turned readings head) d') :
    ∃ m o, At d.station.fs c (.pending m o) := by
  rcases hw with hp | ⟨m, o, hat⟩
  · exact hp
  · cases h with
    | turn => exact (hi.not_inflight (hi.idle (Or.inl rfl)) hat).elim

/-! ## Every clip settles -/

section Settling

variable (h : Serves cfg identity st ev) (hinv : ∀ n, (st n).Inv)

include h

theorem Serves.used_subset {m n : ℕ} (hmn : m ≤ n) :
    (st m).station.used ⊆ (st n).station.used :=
  h.steps.related (fun d => Finset.Subset.refl d.station.used) (fun _ _ _ h1 h2 => h1.trans h2)
    (fun _ _ _ hs => hs.used_subset) hmn

/-- Clips that are enqueued at some time have all been enqueued at one time. -/
theorem Serves.exists_enqueued (clips : Finset ClipId)
    (hclips : ∀ s ∈ clips, ∃ n, s ∈ (st n).station.used) : ∃ k, clips ⊆ (st k).station.used := by
  induction clips using Finset.induction_on with
  | empty => exact ⟨0, Finset.empty_subset _⟩
  | insert s rest _ ih =>
    obtain ⟨k, hk⟩ := ih fun s' hs' => hclips s' (Finset.mem_insert_of_mem hs')
    obtain ⟨n, hn⟩ := hclips s (Finset.mem_insert_self s rest)
    refine ⟨max k n, Finset.insert_subset (h.used_subset (le_max_right k n) hn) ?_⟩
    exact hk.trans (h.used_subset (le_max_left k n))

include hinv

/-- A turn that takes up one of the clips leaves them fewer turns in all. -/
theorem Serves.turn_takes {clips : Finset ClipId} {n : ℕ} {readings : List DateTime}
    {head : TurnHead} {m : Blob} {o : OpenEntry c}
    (hclips : clips ⊆ (st n).station.used)
    (hall : ∀ s ∈ (st n).station.used, pendingName s ≤ pendingName c → s ∈ clips)
    (hev : ev n = .turned readings head) (hat : At (st n).station.fs c (.pending m o))
    (hdue : ∀ gate at_ rest next, readings = gate :: at_ :: rest →
      o.1.nextAttemptAfter = some next → next ≤ at_) :
    allMovesLeft cfg.schedule.perClipMaxAttempts (st (n + 1)).station.fs clips <
      allMovesLeft cfg.schedule.perClipMaxAttempts (st n).station.fs clips := by
  have hstep := h.steps n
  rw [hev] at hstep
  obtain ⟨gate, readings', rfl, ⟨-, rfl⟩ | ⟨-, at_, rest, r, rfl, rfl, hmoves⟩⟩ :=
    hstep.turned (hinv n)
  · exact (h.valid n _ _ hev).elim
  · have heligible : Eligible (st n).station.fs at_ c o.1 :=
      ⟨hat.sidecar (d := .pending) (by simp), fun next hnext => hdue gate at_ rest next rfl hnext⟩
    have hbusy : r ≠ .ok .idle := by
      rintro rfl
      cases hmoves with
      | idle hnone _ => exact hnone c o.1 heligible
    obtain ⟨s, e, m', o', hfirst, hpending, hlt⟩ := hmoves.picks hbusy
    have hused : s ∈ (st n).station.used := (hinv n).station.mem_used hpending (by simp)
    exact hstep.allMovesLeft_lt (hinv n) (by simp) hclips
      (hall s hused (hfirst.least c o.1 heligible)) hlt

/-- While a clip waits, the turns left to it and the clips before it cannot stay the same for ever. -/
theorem Serves.unstuck {clips : Finset ClipId} {k : ℕ} (hclips : clips ⊆ (st k).station.used)
    (hc : c ∈ clips)
    (hall : ∀ n, ∀ s ∈ (st n).station.used, pendingName s ≤ pendingName c → s ∈ clips)
    (hdue : ∀ n e next, (st n).station.fs.get (.queue .pending c .json) = some (.sidecar e) →
      e.nextAttemptAfter = some next → ∃ i, n ≤ i ∧ ∃ gate at_ rest head,
        ev i = .turned (gate :: at_ :: rest) head ∧ next ≤ at_)
    (hwaits : ∀ n, k ≤ n → Waits (st n) c)
    (hsame : ∀ n, k ≤ n →
      allMovesLeft cfg.schedule.perClipMaxAttempts (st n).station.fs clips =
        allMovesLeft cfg.schedule.perClipMaxAttempts (st k).station.fs clips) :
    ∃ n, Settles (ev n) (st (n + 1)) c := by
  by_contra hno
  have hsub : ∀ n, k ≤ n → clips ⊆ (st n).station.used := fun n hn =>
    hclips.trans (h.used_subset hn)
  have hstable : ∀ n, k ≤ n →
      ¬ allMovesLeft cfg.schedule.perClipMaxAttempts (st (n + 1)).station.fs clips <
        allMovesLeft cfg.schedule.perClipMaxAttempts (st n).station.fs clips := by
    intro n hn hlt
    rw [hsame n hn, hsame (n + 1) (hn.trans (Nat.le_succ n))] at hlt
    exact Nat.lt_irrefl _ hlt
  -- from the head of the loop on the clip stays in `pending/` with one record
  obtain ⟨n₁, hn₁, readings₁, head₁, hev₁⟩ := h.exists_turn k
  have hturn := h.steps n₁
  rw [hev₁] at hturn
  obtain ⟨m, o, hat⟩ := (hwaits n₁ hn₁).pending (hinv n₁) hturn
  have hstays : ∀ n, n₁ ≤ n → At (st n).station.fs c (.pending m o) := by
    intro n hn
    refine forall_later (p := fun n => At (st n).station.fs c (.pending m o)) hat ?_ hn
    intro i hi hat
    rcases (h.steps i).pending (hinv i) hat with hnext | hsettles | hlt
    · exact hnext
    · exact (hno ⟨i, hsettles⟩).elim
    · exact (hstable i (hn₁.trans hi) ((h.steps i).allMovesLeft_lt (hinv i) (h.stays i)
        (hsub i (hn₁.trans hi)) hc hlt)).elim
  -- a turn at its retry time or later takes up a clip that sorts no later
  have hrecord := hat.sidecar (d := .pending) (by simp)
  obtain ⟨i, hi, readings, head, hev, hreached⟩ : ∃ i, n₁ ≤ i ∧ ∃ readings head,
      ev i = .turned readings head ∧ ∀ gate at_ rest next, readings = gate :: at_ :: rest →
        o.1.nextAttemptAfter = some next → next ≤ at_ := by
    cases hnext : o.1.nextAttemptAfter with
    | none =>
      obtain ⟨i, hi, readings, head, hev⟩ := h.exists_turn n₁
      exact ⟨i, hi, readings, head, hev, fun gate at_ rest next _ hsome => by cases hsome⟩
    | some next =>
      obtain ⟨i, hi, gate, at_, rest, head, hev, hle⟩ := hdue n₁ o.1 next hrecord hnext
      refine ⟨i, hi, _, head, hev, fun gate' at' rest' next' heq hsome => ?_⟩
      cases heq
      obtain rfl := Option.some.inj hsome
      exact hle
  exact hstable i (hn₁.trans hi) (h.turn_takes hinv (hsub i (hn₁.trans hi)) (hall i) hev
    (hstays i hi) hreached)

end Settling

/-- In every run from a station that has never queued anything in which at last a process serves for
ever: if the clips that sort no later than `c` are finitely many, and for each retry time of `c` there
is a scan at that time or later, then `c`, once it waits, gets its outcome or is evicted. -/
theorem every_clip_settles {d₀ : Daemon} {tr : List (DaemonEvent × Daemon)} (h₀ : d₀.Initial)
    (hpast : Exec (DaemonStep cfg identity) d₀ tr (st 0)) (h : Serves cfg identity st ev)
    (hfew : {s | pendingName s ≤ pendingName c ∧ ∃ n, s ∈ (st n).station.used}.Finite)
    (hdue : ∀ n e next, (st n).station.fs.get (.queue .pending c .json) = some (.sidecar e) →
      e.nextAttemptAfter = some next → ∃ i, n ≤ i ∧ ∃ gate at_ rest head,
        ev i = .turned (gate :: at_ :: rest) head ∧ next ≤ at_)
    (hc : Waits (st 0) c) : ∃ n, Settles (ev n) (st (n + 1)) c := by
  have hinv : ∀ n, (st n).Inv :=
    h.steps.invariant (h₀.inv.exec hpast) fun _ _ _ hi hs => hi.step hs
  by_contra hno
  have hwaits : ∀ n, Waits (st n) c := fun n =>
    forall_later hc (fun i _ hw => ((h.steps i).waits (hinv i) hw).resolve_right
      fun hs => hno ⟨i, hs⟩) (Nat.zero_le n)
  have hmem : ∀ s, s ∈ hfew.toFinset ↔
      pendingName s ≤ pendingName c ∧ ∃ n, s ∈ (st n).station.used := fun s => hfew.mem_toFinset
  obtain ⟨k, hk⟩ := h.exists_enqueued hfew.toFinset fun s hs => ((hmem s).mp hs).2
  have hclips : ∀ n, k ≤ n → hfew.toFinset ⊆ (st n).station.used := fun n hn =>
    hk.trans (h.used_subset hn)
  obtain ⟨n, hn, hsame⟩ := @exists_stable
    (fun n => allMovesLeft cfg.schedule.perClipMaxAttempts (st n).station.fs hfew.toFinset) k
    fun n hn => (h.steps n).allMovesLeft_le (hinv n) (h.stays n) (hclips n hn)
  refine hno (h.unstuck hinv (hclips n hn) ?_ (fun i s hs hle => ?_) hdue (fun i _ => hwaits i) hsame)
  · exact (hmem c).mpr ⟨le_refl _, 0, hc.mem_used (hinv 0)⟩
  · exact (hmem s).mpr ⟨hle, i, hs⟩

/-! ## A clip uploaded at once -/

/-- A scan that finds no sidecar in `pending/`. -/
theorem runs_tryOnceHead_empty {fs : Fs} (hnone : ∀ s, fs.get (.queue .pending s .json) = none) :
    Runs Nominal tryOnceHead fs (.ok .idle) fs := by
  obtain ⟨l, hl⟩ := fs.exists_lists fun p => p.inDir .pending
  have hempty : l.filter (·.hasExt .json) = [] := by
    refine List.filter_eq_nil_iff.mpr fun p hp hx => ?_
    obtain ⟨s, rfl, hs⟩ := (mem_sidecars hl).mp (List.mem_filter.mpr ⟨hp, hx⟩)
    rw [hnone] at hs
    cases hs
  rw [tryOnceHead, runs_bind]
  refine ⟨Station.epoch, fs, runs_now.mpr rfl, ?_⟩
  rw [runs_bind]
  refine ⟨.ok none, fs, ?_, rfl, rfl⟩
  simp only [pickOldestPending, runs_bind, runs_readDir, Nominal]
  refine ⟨.ok l, fs, ⟨rfl, l, hl, rfl⟩, ?_⟩
  dsimp only
  rw [hempty]
  exact ⟨rfl, rfl⟩

namespace Daemon

theorem hour_inRange : minUtc ≤ 3600 * nanosPerSec ∧ 3600 * nanosPerSec ≤ maxUtc := by
  decide

/-- An identity whose certificate is valid for an hour after the epoch. -/
def hourly : StationIdentity := ⟨0, Station.epoch, "", .ofSecs 3600 hour_inRange⟩

/-- The station after the first upload has been accepted. -/
def accepted : Station :=
  { Station.uploading with
    fs := movedDelivered Station.uploading.fs
      (undecodableRecord (startAttempt Station.firstEntry Station.epoch) Station.epoch)
    awaiting := none }

/-- A process that uploads the clip it finds and is idle from then on. -/
def states : ℕ → Daemon
  | 0 => ⟨Station.queued, .top, false⟩
  | 1 => ⟨Station.uploading, .uploading (startAttempt Station.firstEntry Station.epoch), false⟩
  | n + 2 => ⟨accepted, if n % 2 = 0 then .top else .asleep idleTick, false⟩

/-- Its events, for the readings of its two kinds of turns and of its upload. -/
def events (taking finishing idling : List DateTime) : ℕ → DaemonEvent
  | 0 => .turned taking (.tried (.ok (.upload (startAttempt Station.firstEntry Station.epoch))))
  | 1 => .uploaded (startAttempt Station.firstEntry Station.epoch)
      (.error (.undecodableSuccess "" "")) finishing
  | n + 2 => if n % 2 = 0 then .turned idling (.tried (.ok .idle)) else .woken idleTick

variable {taking finishing idling : List DateTime}

theorem events_cases (taking finishing idling : List DateTime) (n : ℕ) :
    (∃ r, events taking finishing idling n = .turned taking (.tried r)) ∨
      (∃ e result, events taking finishing idling n = .uploaded e result finishing) ∨
      (∃ r, events taking finishing idling n = .turned idling (.tried r)) ∨
      events taking finishing idling n = .woken idleTick := by
  rcases n with _ | _ | n
  · exact Or.inl ⟨_, rfl⟩
  · exact Or.inr (Or.inl ⟨_, _, rfl⟩)
  · rw [events]
    split_ifs
    · exact Or.inr (Or.inr (Or.inl ⟨_, rfl⟩))
    · exact Or.inr (Or.inr (Or.inr rfl))

theorem accepted_inv : Perchstation.Inv accepted := by
  have hfin : FinishRun Config.plain.schedule Station.uploading.fs
      (startAttempt Station.firstEntry Station.epoch) Station.epoch
      (.error (.undecodableSuccess "" "")) accepted.fs := .undecodable
  obtain ⟨rest, hstep⟩ := Step.exists_finish rfl hfin
  exact Station.uploading_inv.step hstep

theorem accepted_pending (s : ClipId) : accepted.fs.get (.queue .pending s .json) = none := by
  obtain ⟨m, ho, hat⟩ := Station.uploading_inv.awaiting _ rfl
  by_cases hs : s = "c1"
  · subst hs
    have hd := hat.movedDelivered
      (e := ⟨undecodableRecord (startAttempt Station.firstEntry Station.epoch) Station.epoch, rfl, rfl⟩)
    exact hd.sidecar (d := .pending) (by simp)
  · have hgone := accepted_inv.unused s fun hmem => hs (Finset.mem_singleton.mp hmem)
    exact hgone.sidecar (d := .pending) (by simp)

theorem exists_serves_states : ∃ taking finishing idling,
    Serves Config.plain hourly states (events taking finishing idling) := by
  have hopen : hourly.certIsExpired Station.epoch = false := by decide
  have hhead : Runs Nominal tryOnceHead Station.queued.fs
      (.ok (.upload (startAttempt Station.firstEntry Station.epoch))) Station.uploading.fs := by
    have hstep : Step Config.plain Station.queued
        (.started (.ok (.upload (startAttempt Station.firstEntry Station.epoch))))
        Station.uploading := Station.step_uploading
    cases hstep with
    | start _ hr => exact hr
  have hfin : FinishRun Config.plain.schedule Station.uploading.fs
      (startAttempt Station.firstEntry Station.epoch) Station.epoch
      (.error (.undecodableSuccess "" "")) accepted.fs := .undecodable
  obtain ⟨taking, htaking⟩ := exists_clocked [] hhead
  obtain ⟨finishing, hfinishing⟩ := exists_runs_tryOnceFinish hfin
  obtain ⟨idling, hidling⟩ := exists_clocked [] (runs_tryOnceHead_empty accepted_pending)
  refine ⟨Station.epoch :: (taking ++ []), Station.epoch :: finishing,
    Station.epoch :: (idling ++ []), fun n => ?_, fun n => ?_, fun n recovered => ?_,
    fun n => ⟨n, le_refl n, ?_⟩, fun n readings logs => ?_⟩
  · rcases n with _ | _ | n
    · exact .turn (turnHead_of_open hopen htaking)
    · exact .upload hfinishing
    · rcases Nat.mod_two_eq_zero_or_one n with h | h
      · have hnext : (n + 1) % 2 ≠ 0 := by omega
        simp only [states, events, if_pos h, if_neg hnext]
        exact .turn (turnHead_of_open hopen hidling)
      · have hne : n % 2 ≠ 0 := by omega
        have hnext : (n + 1) % 2 = 0 := by omega
        simp only [states, events, if_neg hne, if_pos hnext]
        exact .wake accepted idleTick false
  all_goals
    rcases events_cases (Station.epoch :: (taking ++ [])) (Station.epoch :: finishing)
      (Station.epoch :: (idling ++ [])) n with ⟨_, h⟩ | ⟨_, _, h⟩ | ⟨_, h⟩ | h <;>
    rw [h] <;> simp [DaemonEvent.OfLoop]

/-- The clip is enqueued before the process starts. -/
theorem exec_states : Exec (DaemonStep Config.plain hourly) ⟨Station.blank, .over, false⟩
    [(.task .captured, ⟨Station.captured, .over, false⟩),
      (.task (.enqueued "c1" (.ok Station.firstEntry)), ⟨Station.queued, .over, false⟩),
      (.booted [], states 0)] (states 0) := by
  have hcaptured : Perchstation.Inv Station.captured :=
    Station.blank_initial.inv.step (@Station.step_captured Config.plain)
  have hqueued : Perchstation.Inv Station.queued :=
    hcaptured.step (@Station.step_queued Config.plain)
  have hsettled : ∀ s, Settled (holdings Station.queued.fs s) := by
    intro s
    obtain ⟨p, hp⟩ := hqueued.tidy s
    have hside : Station.queued.fs.get (.queue .inflight s .json) = none := by
      rw [Station.get_queued_sidecar]
      exact if_neg fun h => by cases h.1
    refine ⟨hside, ?_, fun hnone => ?_⟩
    · exact (hp.media (d := .inflight) (by simp)).trans
        (Phase.file_mp4_eq_none ((hp.sidecar (d := .inflight) (by simp)).symm.trans hside))
    · exact (hp.media (d := .pending) (by simp)).trans
        (Phase.file_mp4_eq_none ((hp.sidecar (d := .pending) (by simp)).symm.trans hnone))
  obtain ⟨v, t, hrun⟩ := exists_runs_reconcileInflight Station.queued.fs
  obtain ⟨rfl, rfl⟩ := runs_reconcileInflight_settled hsettled hrun
  have hcapture : Event.OfOtherTask .captured := trivial
  have henqueue : Event.OfOtherTask (.enqueued "c1" (.ok Station.firstEntry)) := trivial
  exact ((Exec.nil.snoc (.task hcapture Station.step_captured)).snoc
    (.task henqueue Station.step_queued)).snoc (.boot hrun)

end Daemon

/-- The first clip of a station gets its outcome. -/
theorem every_clip_settles_accepted : ∃ taking finishing idling n,
    Settles (Daemon.events taking finishing idling n) (Daemon.states (n + 1)) "c1" := by
  obtain ⟨taking, finishing, idling, hserves⟩ := Daemon.exists_serves_states
  have hcaptured : Perchstation.Inv Station.captured :=
    Station.blank_initial.inv.step (@Station.step_captured Config.plain)
  obtain ⟨-, m, o, hat⟩ := Step.enqueued hcaptured (@Station.step_queued Config.plain)
  have hused : ∀ n, (Daemon.states n).station.used = {"c1"} := by
    intro n
    rcases n with _ | _ | n <;> rfl
  refine ⟨taking, finishing, idling, every_clip_settles ⟨Station.blank_initial, rfl⟩
    Daemon.exec_states hserves ((Set.finite_singleton "c1").subset ?_) (fun n e next he hnext => ?_)
    (Or.inl ⟨m, o, hat⟩)⟩
  · rintro s ⟨-, n, hs⟩
    rw [hused] at hs
    exact Finset.mem_singleton.mp hs
  · rcases n with _ | _ | n
    · have hget : Station.queued.fs.get (.queue .pending "c1" .json) = some (.sidecar e) := he
      rw [Station.get_queued_sidecar] at hget
      obtain rfl := Blob.sidecar.inj (Option.some.inj hget)
      cases hnext
    · obtain ⟨m', ho', hat'⟩ := Station.uploading_inv.awaiting _ rfl
      have hnone := hat'.sidecar (d := .pending) (by simp)
      cases hnone.symm.trans he
    · cases (Daemon.accepted_pending "c1").symm.trans he

end Perchstation
