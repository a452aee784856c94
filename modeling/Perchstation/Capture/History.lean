import Mathlib.Data.List.DropRight
import Perchstation.TimeBounds

/-!
# History — the liveness tracker against the observations it was fed

The tracker's state is a function of the whole history: of its trailing run of errors, or else of its
trailing run of Asserted probes.  `livenessOf` is that function; the tracker computes it one
observation at a time, with the beginning of the Asserted run as its only memory.
-/

namespace Perchstation

/-- One observation of the sensor. -/
inductive Observation
  | level (now : DateTime) (result : Except MotionSensorError SensorLevel)
  | triggerError (now : DateTime) (err : MotionSensorError)

namespace Observation

def at_ : Observation → DateTime
  | level now _ => now
  | triggerError now _ => now

/-- The error, if the observation is one. -/
def error? : Observation → Option MotionSensorError
  | level _ (.error err) => some err
  | level _ (.ok _) => none
  | triggerError _ err => some err

def isError (o : Observation) : Bool := o.error?.isSome

def isAsserted : Observation → Bool
  | level _ (.ok .asserted) => true
  | _ => false

end Observation

/-- The kind of degradation of a state, if any. -/
def SensorLiveness.kind : SensorLiveness → Option DegradedKind
  | .healthy => none
  | .stuckAsserted _ => some .stuckAsserted
  | .unavailable _ _ => some .unavailable

namespace SensorLivenessTracker

def observe (self : SensorLivenessTracker) :
    Observation → SensorLivenessTracker × SensorLivenessTransition
  | .level now result => self.observeLevel now result
  | .triggerError now err => self.observeTriggerError now err

/-- The tracker after the observations, with the transitions it has emitted. -/
def observeAll (self : SensorLivenessTracker) (h : List Observation) :
    SensorLivenessTracker × List SensorLivenessTransition :=
  h.foldl (fun s o => ((s.1.observe o).1, s.2 ++ [(s.1.observe o).2])) (self, [])

variable {tracker : SensorLivenessTracker} {h : List Observation} {o : Observation}

@[simp] theorem observeAll_nil : tracker.observeAll [] = (tracker, []) := rfl

theorem observeAll_concat : tracker.observeAll (h ++ [o]) =
    (((tracker.observeAll h).1.observe o).1,
      (tracker.observeAll h).2 ++ [((tracker.observeAll h).1.observe o).2]) := by
  simp [observeAll, List.foldl_append]

end SensorLivenessTracker

/-! ## The state a history stands for -/

/-- The errors the history ends with. -/
def errorRun (h : List Observation) : List Observation := h.rtakeWhile Observation.isError

/-- The Asserted probes the history ends with. -/
def assertedRun (h : List Observation) : List Observation := h.rtakeWhile Observation.isAsserted

/-- The history ends with errors, the first of them at `since`. -/
def UnavailableSince (h : List Observation) (since : DateTime) : Prop :=
  ∃ o, (errorRun h).head? = some o ∧ o.at_ = since

/-- The history ends with Asserted probes, the first of them at `since`, and one of them comes a
threshold later. -/
def StuckSince (threshold : TimeDelta) (h : List Observation) (since : DateTime) : Prop :=
  ∃ o, (assertedRun h).head? = some o ∧ o.at_ = since ∧
    ∃ x ∈ assertedRun h, threshold ≤ x.at_.since since

/-- The state after the history. -/
def livenessOf (threshold : TimeDelta) (h : List Observation) : SensorLiveness :=
  match (errorRun h).head? with
  | some o => .unavailable o.at_ ((o.error?.map MotionSensorError.display).getD "")
  | none =>
    match (assertedRun h).head? with
    | some o =>
      if (assertedRun h).any fun x => threshold ≤ x.at_.since o.at_ then .stuckAsserted o.at_
      else .healthy
    | none => .healthy

variable {tracker : SensorLivenessTracker} {threshold : TimeDelta} {h : List Observation}
  {o : Observation}

theorem errorRun_concat : errorRun (h ++ [o]) = if o.isError then errorRun h ++ [o] else [] :=
  List.rtakeWhile_concat _ _ _

theorem assertedRun_concat :
    assertedRun (h ++ [o]) = if o.isAsserted then assertedRun h ++ [o] else [] :=
  List.rtakeWhile_concat _ _ _

/-- No history ends with both. -/
theorem errorRun_eq_nil_or (h : List Observation) : errorRun h = [] ∨ assertedRun h = [] := by
  induction h using List.reverseRecOn with
  | nil => exact Or.inl rfl
  | append_singleton h o _ =>
    rw [errorRun_concat, assertedRun_concat]
    cases o with
    | level now result => rcases result with err | (_ | _) <;> simp [Observation.isError,
        Observation.isAsserted, Observation.error?]
    | triggerError now err => simp [Observation.isAsserted]

theorem livenessOf_eq_unavailable_iff {since : DateTime} {reason : String} :
    livenessOf threshold h = .unavailable since reason ↔ ∃ o, (errorRun h).head? = some o ∧
      o.at_ = since ∧ (o.error?.map MotionSensorError.display).getD "" = reason := by
  unfold livenessOf
  cases he : (errorRun h).head? with
  | some o => simp
  | none =>
    cases ha : (assertedRun h).head? with
    | none => simp
    | some a =>
      dsimp only
      split_ifs <;> simp

theorem livenessOf_eq_stuckAsserted_iff {since : DateTime} :
    livenessOf threshold h = .stuckAsserted since ↔ StuckSince threshold h since := by
  unfold livenessOf StuckSince
  cases he : (errorRun h).head? with
  | some o =>
    have hnil : assertedRun h = [] := (errorRun_eq_nil_or h).resolve_left fun h0 => by
      rw [h0] at he
      cases he
    simp [hnil]
  | none =>
    cases ha : (assertedRun h).head? with
    | none => simp
    | some a =>
      dsimp only
      split_ifs with hany
      · simp only [SensorLiveness.stuckAsserted.injEq, Option.some.injEq, exists_eq_left']
        refine ⟨?_, fun hs => hs.1⟩
        rintro rfl
        simpa using hany
      · simp only [Option.some.injEq, exists_eq_left', false_iff, not_and]
        rintro rfl
        simpa using hany

theorem livenessOf_eq_healthy_iff :
    livenessOf threshold h = .healthy ↔
      (∀ since, ¬ UnavailableSince h since) ∧ ∀ since, ¬ StuckSince threshold h since := by
  rw [← not_iff_not, not_and_or, not_forall, not_forall]
  simp only [not_not]
  constructor
  · intro hne
    cases hl : livenessOf threshold h with
    | healthy => exact absurd hl hne
    | stuckAsserted since => exact Or.inr ⟨since, livenessOf_eq_stuckAsserted_iff.mp hl⟩
    | unavailable since reason =>
      obtain ⟨o, ho, hat, -⟩ := livenessOf_eq_unavailable_iff.mp hl
      exact Or.inl ⟨since, o, ho, hat⟩
  · rintro (⟨since, o, ho, hat⟩ | ⟨since, hs⟩) hl
    · rw [livenessOf_eq_unavailable_iff.mpr ⟨o, ho, hat, rfl⟩] at hl
      cases hl
    · rw [livenessOf_eq_stuckAsserted_iff.mpr hs] at hl
      cases hl

/-! ## One observation more -/

section Concat

variable {now : DateTime} {err : MotionSensorError}

theorem livenessOf_concat_error (threshold : TimeDelta) (he : o.error? = some err) :
    livenessOf threshold (h ++ [o]) = match livenessOf threshold h with
      | .unavailable since reason => .unavailable since reason
      | _ => .unavailable o.at_ err.display := by
  have hrun : errorRun (h ++ [o]) = errorRun h ++ [o] := by
    rw [errorRun_concat, Observation.isError, he]
    rfl
  cases hh : (errorRun h).head? with
  | some o' =>
    have hl : livenessOf threshold h = .unavailable o'.at_ _ :=
      livenessOf_eq_unavailable_iff.mpr ⟨o', hh, rfl, rfl⟩
    rw [hl]
    refine livenessOf_eq_unavailable_iff.mpr ⟨o', ?_, rfl, rfl⟩
    rw [hrun, List.head?_append, hh]
    rfl
  | none =>
    have hnew : livenessOf threshold (h ++ [o]) = .unavailable o.at_ err.display := by
      refine livenessOf_eq_unavailable_iff.mpr ⟨o, ?_, rfl, by rw [he]; rfl⟩
      rw [hrun, List.head?_append, hh]
      rfl
    rw [hnew]
    split
    · rename_i since reason hl
      obtain ⟨o', ho', -⟩ := livenessOf_eq_unavailable_iff.mp hl
      rw [hh] at ho'
      cases ho'
    · rfl

theorem livenessOf_concat_quiescent :
    livenessOf threshold (h ++ [.level now (.ok .quiescent)]) = .healthy := by
  have h1 : errorRun (h ++ [.level now (.ok .quiescent)]) = [] := errorRun_concat
  have h2 : assertedRun (h ++ [.level now (.ok .quiescent)]) = [] := assertedRun_concat
  simp [livenessOf, h1, h2]

theorem livenessOf_concat_asserted (now : DateTime) (ht : 0 < threshold) :
    livenessOf threshold (h ++ [.level now (.ok .asserted)]) = match livenessOf threshold h with
      | .stuckAsserted since => .stuckAsserted since
      | _ =>
        if threshold ≤ now.since (((assertedRun h).head?.map Observation.at_).getD now) then
          .stuckAsserted (((assertedRun h).head?.map Observation.at_).getD now)
        else .healthy := by
  have hrun : assertedRun (h ++ [.level now (.ok .asserted)]) =
      assertedRun h ++ [.level now (.ok .asserted)] := assertedRun_concat
  have herr : errorRun (h ++ [.level now (.ok .asserted)]) = [] := errorRun_concat
  cases ha : (assertedRun h).head? with
  | none =>
    have hnil : assertedRun h = [] := List.head?_eq_none_iff.mp ha
    have hzero : ¬ threshold ≤ now.since now := by
      simp only [DateTime.since, sub_self]
      exact not_le.mpr ht
    have hnot : ∀ since, livenessOf threshold h ≠ .stuckAsserted since := by
      intro since hl
      obtain ⟨a, ha', -⟩ := livenessOf_eq_stuckAsserted_iff.mp hl
      rw [ha] at ha'
      cases ha'
    have hnew : livenessOf threshold (h ++ [.level now (.ok .asserted)]) = .healthy := by
      simp [livenessOf, herr, hrun, hnil, Observation.at_, hzero]
    rw [hnew]
    split
    · exact absurd ‹_› (hnot _)
    · exact (if_neg hzero).symm
  | some a =>
    have hne : errorRun h = [] := (errorRun_eq_nil_or h).resolve_right fun h0 => by
      rw [h0] at ha
      cases ha
    have hold : livenessOf threshold h =
        if (assertedRun h).any fun x => threshold ≤ x.at_.since a.at_ then .stuckAsserted a.at_
        else .healthy := by
      simp only [livenessOf, hne, List.head?_nil, ha]
    have hnew : livenessOf threshold (h ++ [.level now (.ok .asserted)]) =
        if (assertedRun h).any (fun x => threshold ≤ x.at_.since a.at_) ||
          decide (threshold ≤ now.since a.at_) then .stuckAsserted a.at_ else .healthy := by
      simp only [livenessOf, herr, hrun, List.head?_append, ha, List.head?_nil, Option.some_or,
        List.any_append, List.any_cons, List.any_nil, Bool.or_false]
      rfl
    rw [hnew, hold]
    cases (assertedRun h).any fun x => threshold ≤ x.at_.since a.at_ <;> simp

end Concat

/-- The tracker is in the state of its history; while it is Healthy it remembers where the Asserted
run began. -/
structure Tracks (threshold : TimeDelta) (h : List Observation) (tracker : SensorLivenessTracker) :
    Prop where
  limit : tracker.stuckThreshold = threshold
  state : tracker.state = livenessOf threshold h
  timer : tracker.state = .healthy → tracker.assertedSince = (assertedRun h).head?.map Observation.at_

namespace Tracks

theorem error {now : DateTime} {err : MotionSensorError} (ht : Tracks threshold h tracker)
    (hat : o.at_ = now) (he : o.error? = some err) :
    Tracks threshold (h ++ [o]) (tracker.handleError now err).1 := by
  have hstate := livenessOf_concat_error threshold (h := h) he
  rw [← ht.state] at hstate
  unfold SensorLivenessTracker.handleError
  split
  · rename_i since reason hs
    rw [hs] at hstate
    refine ⟨ht.limit, hs.trans hstate.symm, fun hh => ?_⟩
    rw [hs] at hh
    cases hh
  · rename_i hs
    refine ⟨ht.limit, ?_, fun hh => by cases hh⟩
    rw [hstate, ← hat]
    split
    · exact absurd ‹_› (hs _ _)
    · rfl

theorem quiescent {now : DateTime} (ht : Tracks threshold h tracker) :
    Tracks threshold (h ++ [.level now (.ok .quiescent)]) tracker.handleQuiescent.1 := by
  have hrun : assertedRun (h ++ [.level now (.ok .quiescent)]) = [] := assertedRun_concat
  unfold SensorLivenessTracker.handleQuiescent
  split
  · exact ⟨ht.limit, livenessOf_concat_quiescent.symm, fun _ => by rw [hrun]; rfl⟩
  · exact ⟨ht.limit, livenessOf_concat_quiescent.symm, fun _ => by rw [hrun]; rfl⟩
  · rename_i hs
    exact ⟨ht.limit, hs.trans livenessOf_concat_quiescent.symm, fun _ => by rw [hrun]; rfl⟩

theorem asserted {now : DateTime} (hpos : 0 < threshold) (ht : Tracks threshold h tracker) :
    Tracks threshold (h ++ [.level now (.ok .asserted)]) (tracker.handleAsserted now).1 := by
  have hstate := livenessOf_concat_asserted (h := h) now hpos
  rw [← ht.state] at hstate
  have hrun : assertedRun (h ++ [.level now (.ok .asserted)]) =
      assertedRun h ++ [.level now (.ok .asserted)] := assertedRun_concat
  have hhead : (assertedRun (h ++ [.level now (.ok .asserted)])).head?.map Observation.at_ =
      some (((assertedRun h).head?.map Observation.at_).getD now) := by
    rw [hrun, List.head?_append]
    cases (assertedRun h).head? <;> rfl
  unfold SensorLivenessTracker.handleAsserted
  split
  · -- after an error a new run begins with this probe
    rename_i since reason hs
    rw [hs] at hstate
    obtain ⟨o, ho, -⟩ := livenessOf_eq_unavailable_iff.mp (ht.state.symm.trans hs)
    have hnil : assertedRun h = [] := (errorRun_eq_nil_or h).resolve_left fun h0 => by
      rw [h0] at ho
      cases ho
    have hzero : ¬ threshold ≤ now.since now := by
      simp only [DateTime.since, sub_self]
      exact not_le.mpr hpos
    rw [hnil] at hstate hhead
    exact ⟨ht.limit, (hstate.trans (if_neg hzero)).symm, fun _ => hhead.symm⟩
  · rename_i since hs
    rw [hs] at hstate
    refine ⟨ht.limit, hs.trans hstate.symm, fun hh => ?_⟩
    rw [hs] at hh
    cases hh
  · rename_i hs
    rw [hs] at hstate
    rw [ht.timer hs, ht.limit]
    dsimp only
    split_ifs with hle
    · exact ⟨rfl, (hstate.trans (if_pos hle)).symm, fun hh => by cases hh⟩
    · exact ⟨rfl, hs.trans (hstate.trans (if_neg hle)).symm, fun _ => hhead.symm⟩

theorem observe (hpos : 0 < threshold) (ht : Tracks threshold h tracker) (o : Observation) :
    Tracks threshold (h ++ [o]) (tracker.observe o).1 := by
  cases o with
  | level now result =>
    rcases result with err | (_ | _)
    · exact ht.error rfl rfl
    · exact ht.quiescent
    · exact ht.asserted hpos
  | triggerError now err => exact ht.error rfl rfl

/-- A new tracker tracks the history it is fed. -/
theorem run (hpos : 0 < threshold) (ht : Tracks threshold [] tracker) (h : List Observation) :
    Tracks threshold h (tracker.observeAll h).1 := by
  induction h using List.reverseRecOn with
  | nil => exact ht
  | append_singleton h o ih =>
    rw [SensorLivenessTracker.observeAll_concat]
    exact ih.observe hpos o

end Tracks

/-! ## The transitions -/

/-- What a transition makes of the state before it. -/
def SensorLivenessTransition.apply (s : SensorLiveness) : SensorLivenessTransition → SensorLiveness
  | .degraded .stuckAsserted since _ => .stuckAsserted since
  | .degraded .unavailable since reason => .unavailable since (reason.getD "")
  | .recovered _ => .healthy
  | .noChange => s

/-- The state that a list of transitions leads to. -/
def replay (ts : List SensorLivenessTransition) : SensorLiveness :=
  ts.foldl SensorLivenessTransition.apply .healthy

theorem replay_concat (ts : List SensorLivenessTransition) (t : SensorLivenessTransition) :
    replay (ts ++ [t]) = t.apply (replay ts) := by
  simp [replay, List.foldl_append]

/-- The transition from `s` to `s'`, if it changes the kind, is a degradation or a recovery from the
kind of `s`. -/
structure Emits (s : SensorLiveness) (t : SensorLivenessTransition) (s' : SensorLiveness) :
    Prop where
  apply : s' = t.apply s
  noChange : t = .noChange ↔ s'.kind = s.kind
  recovered : ∀ k, t = .recovered k → s.kind = some k

theorem emits_handleError (tracker : SensorLivenessTracker) (now : DateTime)
    (err : MotionSensorError) :
    Emits tracker.state (tracker.handleError now err).2 (tracker.handleError now err).1.state := by
  unfold SensorLivenessTracker.handleError
  split
  · exact ⟨rfl, by simp, by simp⟩
  · rename_i hs
    refine ⟨rfl, ?_, by simp⟩
    cases hk : tracker.state with
    | healthy => simp [SensorLiveness.kind]
    | stuckAsserted since => simp [SensorLiveness.kind]
    | unavailable since reason => exact absurd hk (hs since reason)

theorem emits_handleQuiescent (tracker : SensorLivenessTracker) :
    Emits tracker.state tracker.handleQuiescent.2 tracker.handleQuiescent.1.state := by
  unfold SensorLivenessTracker.handleQuiescent
  split <;> rename_i hs <;> rw [hs]
  · exact ⟨rfl, by simp [SensorLiveness.kind], by simp [SensorLiveness.kind]⟩
  · exact ⟨rfl, by simp [SensorLiveness.kind], by simp [SensorLiveness.kind]⟩
  · exact ⟨rfl, by simp [SensorLiveness.kind], by simp⟩

theorem emits_handleAsserted (tracker : SensorLivenessTracker) (now : DateTime) :
    Emits tracker.state (tracker.handleAsserted now).2 (tracker.handleAsserted now).1.state := by
  unfold SensorLivenessTracker.handleAsserted
  split <;> rename_i hs <;> rw [hs]
  · exact ⟨rfl, by simp [SensorLiveness.kind], by simp [SensorLiveness.kind]⟩
  · exact ⟨rfl, by simp [SensorLiveness.kind], by simp⟩
  · dsimp only
    split_ifs
    · exact ⟨rfl, by simp [SensorLiveness.kind], by simp⟩
    · exact ⟨rfl, by simp [SensorLiveness.kind], by simp⟩

theorem emits_observe (tracker : SensorLivenessTracker) (o : Observation) :
    Emits tracker.state (tracker.observe o).2 (tracker.observe o).1.state := by
  cases o with
  | level now result =>
    rcases result with err | (_ | _)
    · exact emits_handleError tracker now err
    · exact emits_handleQuiescent tracker
    · exact emits_handleAsserted tracker now
  | triggerError now err => exact emits_handleError tracker now err

/-- Every recovery follows a degradation of its kind, with nothing but no-changes in between. -/
def RecoveriesPaired (ts : List SensorLivenessTransition) : Prop :=
  ∀ pre k post, ts = pre ++ .recovered k :: post →
    ∃ first since reason mid, pre = first ++ .degraded k since reason :: mid ∧
      ∀ t ∈ mid, t = .noChange

/-- A degraded state was entered by a degradation of its kind that nothing has followed. -/
def EnteredBy (ts : List SensorLivenessTransition) (s : SensorLiveness) : Prop :=
  ∀ k, s.kind = some k → ∃ first since reason mid, ts = first ++ .degraded k since reason :: mid ∧
    ∀ t ∈ mid, t = .noChange

theorem EnteredBy.concat {ts : List SensorLivenessTransition} {t : SensorLivenessTransition}
    {s s' : SensorLiveness} (h : EnteredBy ts s) (ht : Emits s t s') : EnteredBy (ts ++ [t]) s' := by
  intro k hk
  cases t with
  | noChange =>
    obtain ⟨first, since, reason, mid, rfl, hmid⟩ := h k ((ht.noChange.mp rfl).symm.trans hk)
    refine ⟨first, since, reason, mid ++ [.noChange], by simp, fun t ht => ?_⟩
    rcases List.mem_append.mp ht with ht | ht
    · exact hmid t ht
    · exact List.mem_singleton.mp ht
  | recovered k' =>
    rw [ht.apply] at hk
    cases hk
  | degraded k' since reason =>
    obtain rfl : k' = k := by
      rw [ht.apply] at hk
      cases k' <;> exact Option.some.inj hk
    exact ⟨ts, since, reason, [], rfl, by simp⟩

theorem RecoveriesPaired.concat {ts : List SensorLivenessTransition} {t : SensorLivenessTransition}
    {s s' : SensorLiveness} (h : RecoveriesPaired ts) (he : EnteredBy ts s) (ht : Emits s t s') :
    RecoveriesPaired (ts ++ [t]) := by
  intro pre k post hts
  rcases List.eq_nil_or_concat post with rfl | ⟨rest, y, rfl⟩
  · obtain ⟨rfl, hlast⟩ := List.append_inj' hts rfl
    exact he k (ht.recovered k (List.cons.inj hlast).1)
  · have hcut : ts ++ [t] = (pre ++ .recovered k :: rest) ++ [y] := by
      rw [hts]
      simp
    exact h pre k rest (List.append_inj' hcut rfl).1

/-- The transitions emitted over a history, against the states before and after each. -/
structure Replays (tracker : SensorLivenessTracker) (h : List Observation) : Prop where
  state : (tracker.observeAll h).1.state = replay (tracker.observeAll h).2
  length : (tracker.observeAll h).2.length = h.length
  noChange : ∀ i t, (tracker.observeAll h).2[i]? = some t → (t = .noChange ↔
    (tracker.observeAll (h.take (i + 1))).1.state.kind =
      (tracker.observeAll (h.take i)).1.state.kind)
  paired : RecoveriesPaired (tracker.observeAll h).2
  entered : EnteredBy (tracker.observeAll h).2 (tracker.observeAll h).1.state

theorem replays (hs : tracker.state = .healthy) (h : List Observation) : Replays tracker h := by
  induction h using List.reverseRecOn with
  | nil =>
    refine ⟨hs, rfl, by simp, fun pre k post hts => by simp at hts, fun k hk => ?_⟩
    rw [SensorLivenessTracker.observeAll_nil, hs] at hk
    cases hk
  | append_singleton h o ih =>
    have hemit := emits_observe (tracker.observeAll h).1 o
    refine ⟨?_, ?_, fun i t hi => ?_, ?_, ?_⟩
    · rw [SensorLivenessTracker.observeAll_concat, replay_concat, ← ih.state]
      exact hemit.apply
    · rw [SensorLivenessTracker.observeAll_concat, List.length_append, List.length_append, ih.length]
      rfl
    · rw [SensorLivenessTracker.observeAll_concat] at hi
      rcases Nat.lt_trichotomy i h.length with hlt | rfl | hgt
      · rw [List.getElem?_append_left (by rw [ih.length]; exact hlt)] at hi
        rw [List.take_append_of_le_length (by omega), List.take_append_of_le_length (by omega)]
        exact ih.noChange i t hi
      · rw [List.getElem?_append_right (by rw [ih.length]), ih.length, Nat.sub_self] at hi
        obtain rfl := Option.some.inj hi
        have hall : (h ++ [o]).take (h.length + 1) = h ++ [o] := List.take_of_length_le (by simp)
        rw [hall, List.take_left, SensorLivenessTracker.observeAll_concat]
        exact hemit.noChange
      · rw [List.getElem?_append_right (by rw [ih.length]; omega), ih.length] at hi
        obtain ⟨j, hj⟩ : ∃ j, i - h.length = j + 1 := ⟨i - h.length - 1, by omega⟩
        rw [hj] at hi
        cases hi
    · rw [SensorLivenessTracker.observeAll_concat]
      exact ih.paired.concat ih.entered hemit
    · rw [SensorLivenessTracker.observeAll_concat]
      exact ih.entered.concat hemit

/-! ## The state against the history -/

theorem exists_unavailableSince_iff :
    (∃ since, UnavailableSince h since) ↔ ∃ o, h.getLast? = some o ∧ o.isError = true := by
  rcases List.eq_nil_or_concat h with rfl | ⟨l, o, rfl⟩
  · simp [UnavailableSince, errorRun]
  · simp only [UnavailableSince, List.concat_eq_append, List.getLast?_append, List.getLast?_singleton,
      Option.some_or, Option.some.injEq, exists_eq_left']
    rw [errorRun_concat]
    cases o.isError with
    | false => simp
    | true => cases hh : errorRun l <;> simp

/-- The tracker after the history `h`, and the transitions it has emitted over it. -/
structure MatchesHistory (threshold : TimeDelta) (tracker : SensorLivenessTracker)
    (h : List Observation) : Prop where
  unavailable : ∀ since,
    (∃ reason, (tracker.observeAll h).1.state = .unavailable since reason) ↔ UnavailableSince h since
  lastError : (∃ since, UnavailableSince h since) ↔ ∃ o, h.getLast? = some o ∧ o.isError = true
  stuckAsserted : ∀ since,
    (tracker.observeAll h).1.state = .stuckAsserted since ↔ StuckSince threshold h since
  healthy : (tracker.observeAll h).1.state = .healthy ↔
    (∀ since, ¬ UnavailableSince h since) ∧ ∀ since, ¬ StuckSince threshold h since
  transitions : Replays tracker h

theorem tracks_new {stuckSecs : UInt64} (hnew : SensorLivenessTracker.new stuckSecs = some tracker) :
    Tracks (stuckSecs.toNat * nanosPerSec) [] tracker := by
  have hle : stuckSecs.toNat ≤ 9223372036854775 :=
    SensorLivenessTracker.exists_new_iff.mp ⟨tracker, hnew⟩
  have hclamp : clampedSecs stuckSecs = stuckSecs.toNat := by
    unfold clampedSecs
    omega
  have hsecs : TimeDelta.seconds (clampedSecs stuckSecs) =
      some ((stuckSecs.toNat : ℤ) * nanosPerSec) := by
    rw [hclamp]
    exact if_pos (by omega)
  unfold SensorLivenessTracker.new at hnew
  rw [hsecs] at hnew
  obtain rfl := Option.some.inj hnew
  exact ⟨rfl, rfl, fun _ => rfl⟩

/-- For every threshold of at least a second, the tracker is Unavailable exactly after an error, since
the first of the errors the history ends with; StuckAsserted exactly if one of the Asserted probes the
history ends with comes a threshold after the first; Healthy otherwise.  The transitions it emits replay
the state. -/
theorem liveness_matches_history {stuckSecs : UInt64} (hsecs : 1 ≤ stuckSecs.toNat)
    (hnew : SensorLivenessTracker.new stuckSecs = some tracker) (h : List Observation) :
    MatchesHistory (stuckSecs.toNat * nanosPerSec) tracker h := by
  have hstart := tracks_new hnew
  have hpos : (0 : ℤ) < stuckSecs.toNat * nanosPerSec := by
    unfold nanosPerSec
    omega
  have hstate := (hstart.run hpos h).state
  refine ⟨fun since => ?_, exists_unavailableSince_iff, fun since => ?_, ?_, replays hstart.state h⟩
  · rw [hstate]
    constructor
    · rintro ⟨reason, hl⟩
      obtain ⟨o, ho, hat, -⟩ := livenessOf_eq_unavailable_iff.mp hl
      exact ⟨o, ho, hat⟩
    · rintro ⟨o, ho, hat⟩
      exact ⟨_, livenessOf_eq_unavailable_iff.mpr ⟨o, ho, hat, rfl⟩⟩
  · rw [hstate]
    exact livenessOf_eq_stuckAsserted_iff
  · rw [hstate]
    exact livenessOf_eq_healthy_iff

/-- A second of threshold, a probe that fails and one that is Asserted again. -/
theorem liveness_matches_history_error :
    ∃ tracker, SensorLivenessTracker.new 1 = some tracker ∧
      MatchesHistory (1 * nanosPerSec) tracker
        [.level (.ofSecs 0 (by decide)) (.error (.unavailable "gone")),
          .level (.ofSecs 1 (by decide)) (.ok .asserted)] :=
  ⟨⟨.healthy, 1 * nanosPerSec, none⟩, rfl,
    liveness_matches_history (show 1 ≤ (1 : UInt64).toNat by decide) rfl _⟩

end Perchstation
