import Perchstation.Delivery.SkipSet
import Perchstation.Station

/-!
# Poller — the classify poller beside the other parties

The poller's operations one at a time: a scan, one poll of an entry the scan has handed on, a prune
round.  Between any two of them the other parties capture, enqueue, evict and deliver.  The store it
starts on may hold anything, as long as every sidecar is named after its clip, those of `delivered/`
decode and no clip-id is used twice.
-/

namespace Perchstation

open Resumption QueueStore ClassifyPoller

/-- The station with the entries that the poll round under way has still to poll. -/
structure Polling where
  station : Station
  due : List ClipQueueEntry

/-- What an operation did; those of the poller tell the changes they asked for. -/
inductive PollEvent
  | beside (event : Event)
  | scanned (asked : List Req)
  | polled (entry : ClipQueueEntry) (asked : List Req)
  | pruned (ids : List ClipId)

/-- An operation of another party: a capture, an enqueue, a policy call or half an attempt. -/
def Event.Beside : Event → Prop
  | .captured | .enqueued _ _ | .enforced _ | .started _ | .finished _ _ _ => True
  | _ => False

/-- The entries a scan hands on; after an error the round ends. -/
def handed : Except PollerError (List ClipQueueEntry) → List ClipQueueEntry
  | .ok entries => entries
  | .error _ => []

/-- The entries left to poll; after an error the round ends. -/
def remaining (rest : List ClipQueueEntry) : Except PollerError Unit → List ClipQueueEntry
  | .ok () => rest
  | .error _ => []

inductive PollStep (cfg : Config) : Polling → PollEvent → Polling → Prop
  | beside {st st' : Station} {due : List ClipQueueEntry} {ev : Event} : ev.Beside →
      Step cfg st ev st' → PollStep cfg ⟨st, due⟩ (.beside ev) ⟨st', due⟩
  | scan {st : Station} {v : Finset ClipId × Except PollerError (List ClipQueueEntry)} {t : Fs}
      {readings readings' : List DateTime} {asked : List Req} :
      Runs Watched (scanNonTerminal st.seen) ((st.fs, readings), []) v ((t, readings'), asked) →
      PollStep cfg ⟨st, []⟩ (.scanned asked) ⟨{ st with fs := t, seen := v.1 }, handed v.2⟩
  | poll {st : Station} {e : ClipQueueEntry} {rest : List ClipQueueEntry}
      {v : Finset ClipId × Except PollerError Unit} {t : Fs} {readings readings' : List DateTime}
      {asked : List Req} :
      Runs Watched (pollOne cfg.client cfg.showUuid st.seen e) ((st.fs, readings), []) v
        ((t, readings'), asked) →
      PollStep cfg ⟨st, e :: rest⟩ (.polled e asked)
        ⟨{ st with fs := t, seen := v.1 }, remaining rest v.2⟩
  | prune {st : Station} {v : Finset ClipId × List ClipId} {t : Fs} :
      Runs Nominal (pruneRound cfg.retentionHours st.seen) st.fs v t →
      PollStep cfg ⟨st, []⟩ (.pruned v.2) ⟨{ st with fs := t, seen := v.1 }, []⟩

/-! ## A poll round is a scan and its polls -/

section Rounds

variable {cfg : Config} {st : Station} {fs t : Fs} {seen : Finset ClipId}

theorem exec_pollLoop {es : List ClipQueueEntry} {v : Finset ClipId × Except PollerError ℕ}
    (h : Runs Nominal (pollLoop cfg.client cfg.showUuid seen es) fs v t) :
    ∃ tr, Exec (PollStep cfg) ⟨{ st with fs := fs, seen := seen }, es⟩ tr
      ⟨{ st with fs := t, seen := v.1 }, []⟩ := by
  induction es generalizing fs seen v t with
  | nil =>
    obtain ⟨rfl, rfl⟩ := h
    exact ⟨[], .nil⟩
  | cons e rest ih =>
    rw [pollLoop, runs_bind] at h
    obtain ⟨⟨w, r⟩, u, hu, h⟩ := h
    obtain ⟨readings, asked, hw⟩ := exists_watched hu
    have hstep : PollStep cfg ⟨{ st with fs := fs, seen := seen }, e :: rest⟩ (.polled e asked)
        ⟨{ st with fs := u, seen := w }, remaining rest r⟩ :=
      @PollStep.poll cfg { st with fs := fs, seen := seen } _ _ _ _ _ _ _ hw
    cases r with
    | error err =>
      obtain ⟨rfl, rfl⟩ := h
      exact ⟨_, Exec.nil.snoc hstep⟩
    | ok _ =>
      simp only [runs_bind] at h
      obtain ⟨⟨w', r⟩, u', hu', h⟩ := h
      obtain ⟨tr, htr⟩ := ih hu'
      have hend : v.1 = w' ∧ t = u' := by
        cases r <;> exact ⟨congrArg Prod.fst h.1, h.2⟩
      obtain ⟨rfl, rfl⟩ := hend
      exact ⟨_, (Exec.nil.snoc hstep).append htr⟩

/-- The steps of the system make up the rounds of the code. -/
theorem exec_pollRound {v : Finset ClipId × Except PollerError ℕ}
    (h : Runs Nominal (pollRound cfg.client cfg.showUuid st.seen) st.fs v t) :
    ∃ tr, Exec (PollStep cfg) ⟨st, []⟩ tr ⟨{ st with fs := t, seen := v.1 }, []⟩ := by
  rw [pollRound, runs_bind] at h
  obtain ⟨⟨w, r⟩, u, hu, h⟩ := h
  obtain ⟨readings, asked, hw⟩ := exists_watched hu
  have hstep : PollStep cfg ⟨st, []⟩ (.scanned asked) ⟨{ st with fs := u, seen := w }, handed r⟩ :=
    .scan hw
  cases r with
  | error err =>
    obtain ⟨rfl, rfl⟩ := h
    exact ⟨_, Exec.nil.snoc hstep⟩
  | ok es =>
    obtain ⟨tr, htr⟩ : ∃ tr, Exec (PollStep cfg) ⟨{ st with fs := u, seen := w }, es⟩ tr
        ⟨{ st with fs := t, seen := v.1 }, []⟩ := exec_pollLoop h
    exact ⟨_, (Exec.nil.snoc hstep).append htr⟩

end Rounds

/-! ## Clips and their ids -/

/-- The sidecar of `c` in `delivered/`, if there is one. -/
abbrev Station.deliveredFile (st : Station) (c : ClipId) : Option Blob :=
  st.fs.get (.queue .delivered c .json)

/-- The clip is past its delivery: no sidecar of it waits or is uploaded. -/
structure Passed (st : Station) (c : ClipId) : Prop where
  pending : st.fs.get (.queue .pending c .json) = none
  inflight : st.fs.get (.queue .inflight c .json) = none
  awaiting : ∀ e, st.awaiting = some e → e.clipId ≠ c

/-- Sidecars are named after their clips, those of `delivered/` decode, and no clip-id is used
twice: a clip in `delivered/` is in no earlier directory, and an id not yet handed out has no
sidecar. -/
structure UsedOnce (st : Station) : Prop where
  named : Named st.fs
  decodes : AllDecode st.fs
  apart : ∀ c, st.deliveredFile c ≠ none → Passed st c
  taken : ∀ e, st.awaiting = some e → st.fs.get (.queue .pending e.clipId .json) = none
  unused : ∀ c, c ∉ st.used → Passed st c ∧ st.deliveredFile c = none

variable {cfg : Config} {st st' : Station} {ev : Event} {c : ClipId} {fs t : Fs}

theorem Passed.of_sameClip {aw : Option ClipQueueEntry} {seen used : Finset ClipId}
    (h : Passed st c) (hs : SameClip st.fs t c) (haw : ∀ e, aw = some e → e.clipId ≠ c) :
    Passed ⟨t, aw, seen, used⟩ c :=
  ⟨(hs.sidecar .pending).trans h.pending, (hs.sidecar .inflight).trans h.inflight, haw⟩

/-- The operation removes the sidecar of `c` by an eviction. -/
def Event.Evicts (c : ClipId) : Event → Prop
  | .enforced outcome => ∃ r ∈ outcome.evictions, r.clipId = c
  | _ => False

/-- What an operation of another party does to the sidecars of `delivered/`. -/
structure Aside (st : Station) (ev : Event) (st' : Station) : Prop where
  named : Named st'.fs
  used : st.used ⊆ st'.used
  seen : st'.seen = st.seen
  taken : ∀ e, st'.awaiting = some e → st'.fs.get (.queue .pending e.clipId .json) = none
  passed : ∀ c, Passed st c → (c ∈ st'.used → c ∈ st.used) → Passed st' c ∧
    (st'.deliveredFile c = st.deliveredFile c ∧ ¬ ev.Evicts c ∨
      st'.deliveredFile c = none ∧ ev.Evicts c)
  fresh : ∀ c, c ∉ st.used → st'.deliveredFile c = none
  arrived : ∀ c, ¬ Passed st c → st'.deliveredFile c = none ∨
    (∃ e, st'.deliveredFile c = some (.sidecar e)) ∧ Passed st' c

theorem UsedOnce.delivered_eq_none (ho : UsedOnce st) (h : ¬ Passed st c) :
    st.deliveredFile c = none := by
  by_contra hne
  exact h (ho.apart c hne)

theorem Aside.orderly (h : Aside st ev st') (ho : UsedOnce st) : UsedOnce st' := by
  have hcases : ∀ c, st'.deliveredFile c = none ∨ st'.deliveredFile c = st.deliveredFile c ∧
      Passed st' c ∨ (∃ e, st'.deliveredFile c = some (.sidecar e)) ∧ Passed st' c := by
    intro c
    by_cases hp : Passed st c
    · by_cases hu : c ∈ st'.used → c ∈ st.used
      · obtain ⟨hp', ⟨hsame, -⟩ | ⟨hnone, -⟩⟩ := h.passed c hp hu
        · exact Or.inr (Or.inl ⟨hsame, hp'⟩)
        · exact Or.inl hnone
      · rw [Classical.not_imp] at hu
        exact Or.inl (h.fresh c hu.2)
    · rcases h.arrived c hp with hnone | harr
      · exact Or.inl hnone
      · exact Or.inr (Or.inr harr)
  refine ⟨h.named, ?_, fun c hc => ?_, h.taken, fun c hc => ?_⟩
  · rintro c ⟨data, hd⟩
    rcases hcases c with hn | ⟨hs, -⟩ | ⟨⟨e, he⟩, -⟩
    · cases hn.symm.trans hd
    · exact ho.decodes c ⟨data, hs.symm.trans hd⟩
    · cases he.symm.trans hd
  · rcases hcases c with hn | ⟨-, hp⟩ | ⟨-, hp⟩
    · exact absurd hn hc
    · exact hp
    · exact hp
  · have hold : c ∉ st.used := fun hm => hc (h.used hm)
    exact ⟨(h.passed c (ho.unused c hold).1 fun hm => absurd hm hc).1, h.fresh c hold⟩

/-! ## The operations of the other parties -/

/-- An operation that leaves the passed clips alone. -/
theorem Aside.of_sameClip {aw : Option ClipQueueEntry} (ho : UsedOnce st) (hn : Named t)
    (hev : ∀ c, ¬ ev.Evicts c)
    (htaken : ∀ e, aw = some e → t.get (.queue .pending e.clipId .json) = none)
    (hsame : ∀ c, Passed st c → SameClip st.fs t c)
    (haw : ∀ e, aw = some e → ¬ Passed st e.clipId)
    (harr : ∀ c, ¬ Passed st c → t.get (.queue .delivered c .json) = none ∨
      (∃ e, t.get (.queue .delivered c .json) = some (.sidecar e)) ∧
        Passed ⟨t, aw, st.seen, st.used⟩ c) :
    Aside st ev ⟨t, aw, st.seen, st.used⟩ where
  named := hn
  used := Finset.Subset.refl _
  seen := rfl
  taken := htaken
  passed c hp _ := by
    refine ⟨hp.of_sameClip (hsame c hp) fun e he => ?_, Or.inl ⟨(hsame c hp).sidecar _, hev c⟩⟩
    rintro rfl
    exact haw e he hp
  fresh c hc := by
    obtain ⟨hp, hnone⟩ := ho.unused c hc
    exact ((hsame c hp).sidecar _).trans hnone
  arrived := harr

theorem Step.capture_aside (ho : UsedOnce st) (name : String) (b : Blob) :
    Aside st .captured { st with fs := st.fs.put (.source name) b } := by
  have hsame : ∀ c, SameClip st.fs (st.fs.put (.source name) b) c := by
    rintro c d x (rfl | rfl) <;> simp [FileMap.get_put]
  refine .of_sameClip ho (ho.named.put fun _ _ _ hp _ => by cases hp) (fun _ h => h)
    (fun e he => ((hsame _).sidecar _).trans (ho.taken e he)) (fun c _ => hsame c)
    (fun e he hp => hp.awaiting e he rfl) fun c hc => Or.inl ?_
  exact ((hsame c).sidecar _).trans (ho.delivered_eq_none hc)

theorem Step.enqueue_aside {name : String} {clipMeta : ClipMeta}
    {r : Except QueueError ClipQueueEntry} (ho : UsedOnce st) (hc : c ∉ st.used)
    (h : Runs Nominal (enqueueWithId c (.source name) clipMeta) st.fs r t) :
    Aside st (.enqueued c r) { st with fs := t, used := insert c st.used } := by
  obtain ⟨hnew, hnone⟩ := ho.unused c hc
  have hsame : ∀ c', c' ≠ c → SameClip st.fs t c' := by
    intro c' hc'
    rcases runs_enqueueWithId.mp h with ⟨-, -, rfl⟩ | ⟨m, len, at_, -, -, -, rfl⟩
    · exact SameClip.refl _ _
    · exact sameClip_enqueued hc'
  have hdel : t.get (.queue .delivered c .json) = none := by
    rcases runs_enqueueWithId.mp h with ⟨-, -, rfl⟩ | ⟨m, len, at_, -, -, -, rfl⟩
    · exact hnone
    · rw [get_enqueued]
      simpa using hnone
  have hn : Named t := by
    rcases runs_enqueueWithId.mp h with ⟨-, -, rfl⟩ | ⟨m, len, at_, -, -, -, rfl⟩
    · exact ho.named
    · exact ((ho.named.del _).put_media _ _ _).replaceSidecar _ _
  refine ⟨hn, Finset.subset_insert _ _, rfl, fun e he => ?_, fun c' hp hu => ?_, fun c' hc' => ?_,
    fun c' hp => Or.inl ?_⟩
  · exact ((hsame _ (hnew.awaiting e he)).sidecar _).trans (ho.taken e he)
  · have hne : c' ≠ c := by
      rintro rfl
      exact hc (hu (Finset.mem_insert_self _ _))
    exact ⟨hp.of_sameClip (hsame c' hne) hp.awaiting,
      Or.inl ⟨(hsame c' hne).sidecar _, fun h => h⟩⟩
  · by_cases hne : c' = c
    · rw [hne]
      exact hdel
    · exact ((hsame c' hne).sidecar _).trans (ho.unused c' hc').2
  · have hne : c' ≠ c := by
      rintro rfl
      exact hp hnew
    exact ((hsame c' hne).sidecar _).trans (ho.delivered_eq_none hp)

/-- An eviction of a passed clip removes its sidecar from `delivered/`. -/
theorem Step.enforce_aside {policy : QueuePolicy} {incoming : UInt64} {outcome : PolicyOutcome}
    (ho : UsedOnce st) (h : Runs Nominal (applyPolicy cfg.profile policy incoming) st.fs outcome t) :
    Aside st (.enforced outcome) { st with fs := t } := by
  obtain ⟨heff, -⟩ := runs_applyPolicy h
  have hnone : ∀ {p}, st.fs.get p = none → t.get p = none := by
    intro p hp
    cases hg : t.get p with
    | none => rfl
    | some b =>
      rw [heff.subset p b hg] at hp
      cases hp
  refine ⟨ho.named.of_subset fun _ _ _ => heff.subset _ _, Finset.Subset.refl _, rfl,
    fun e he => hnone (ho.taken e he), fun c hp _ => ⟨⟨hnone hp.pending, hnone hp.inflight,
      hp.awaiting⟩, ?_⟩, fun c hc => hnone (ho.unused c hc).2, fun c hp =>
      Or.inl (hnone (ho.delivered_eq_none hp))⟩
  by_cases hev : ∃ r ∈ outcome.evictions, r.clipId = c
  · obtain ⟨r, hr, rfl⟩ := hev
    obtain ⟨d, s, e, hd, he, hid, hgone⟩ := heff.evicted r hr
    obtain rfl : e.clipId = s := ho.named _ _ _ he
    rw [hid] at he
    rcases hd with rfl | ⟨rfl, -⟩
    · rw [hp.pending] at he
      cases he
    · exact Or.inr ⟨hgone .json (Or.inr rfl), r, hr, rfl⟩
  · refine Or.inl ⟨heff.same _ fun r hr d x hpath => hev ⟨r, hr, ?_⟩, hev⟩
    exact (Path.queue.inj hpath).2.1.symm

theorem get_movedDelivered_json {d : Dir} {e : ClipQueueEntry} :
    (movedDelivered fs e).get (.queue d e.clipId .json) =
      if d = .delivered then some (.sidecar e)
      else if d = .inflight then none else fs.get (.queue d e.clipId .json) := by
  cases d <;> simp [movedDelivered, FileMap.get_put, FileMap.get_del, get_replaceSidecar]

theorem get_movedInflight_pending {m : Blob} {e : ClipQueueEntry} :
    (movedInflight fs m e).get (.queue .pending e.clipId .json) = none := by
  simp [movedInflight, FileMap.get_del]

theorem get_movedInflight_delivered {m : Blob} {e : ClipQueueEntry} :
    (movedInflight fs m e).get (.queue .delivered e.clipId .json) =
      fs.get (.queue .delivered e.clipId .json) := by
  simp [movedInflight, FileMap.get_del, get_replaceSidecar, get_moveMedia]

theorem get_movedBack_delivered {e : ClipQueueEntry} :
    (movedBack fs e).get (.queue .delivered e.clipId .json) =
      fs.get (.queue .delivered e.clipId .json) := by
  unfold movedBack mediaReturned
  split <;> simp [FileMap.get_del, get_replaceSidecar, get_moveMedia]

/-- A scan of `pending/` leaves the passed clips alone; the entry it picks is not of one. -/
theorem Picked.passed {o : Option ClipQueueEntry} (h : Picked st.fs t o) (hn : Named st.fs) :
    (∀ c, Passed st c → SameClip st.fs t c) ∧ ∀ e, o = some e → ¬ Passed st e.clipId := by
  refine ⟨fun c hp => h.sameClip c ?_, fun e he hp => ?_⟩
  · rintro ⟨data, hd⟩
    rw [hp.pending] at hd
    cases hd
  · obtain ⟨c, hc⟩ := h.entry e he
    obtain rfl := hn _ _ _ hc
    rw [hp.pending] at hc
    cases hc

theorem Step.start_aside {r : Except QueueError Head} (ho : UsedOnce st)
    (h : HeadRun st.fs r t) :
    Aside st (.started r) { st with fs := t, awaiting := Head.awaiting r } := by
  have hdel : ∀ {u o}, Picked st.fs u o → ∀ c, ¬ Passed st c →
      u.get (.queue .delivered c .json) = none := fun hp c hc =>
    (hp.elsewhere c .delivered .json (by simp) (by simp)).trans (ho.delivered_eq_none hc)
  cases h with
  | idle hp =>
    -- corrupt sidecars may have been set aside, the rest is as it was
    exact .of_sameClip ho (ho.named.picked hp) (fun _ h => h) (fun _ he => by cases he)
      (hp.passed ho.named).1 (fun _ he => by cases he) fun c hc => Or.inl (hdel hp c hc)
  | @missing u e hp hm =>
    -- an orphan leaves `pending/`
    obtain ⟨hsame, hpick⟩ := hp.passed ho.named
    refine .of_sameClip ho ((ho.named.picked hp).del _ |>.del _) (fun _ h => h)
      (fun _ he => by cases he) (fun c hc => ?_) (fun _ he => by cases he) fun c hc => Or.inl ?_
    · have hne : c ≠ e.clipId := by
        rintro rfl
        exact hpick e rfl hc
      exact (hsame c hc).trans ((sameClip_del hne).trans (sameClip_del hne))
    · simpa [FileMap.get_del] using hdel hp c hc
  | @refused u e m len at_ at' reason hp hm hlen hreason =>
    obtain ⟨hsame, hpick⟩ := hp.passed ho.named
    have hmove : ∀ c, c ≠ e.clipId → SameClip u (movedDelivered
        (movedInflight u m (startAttempt e at_)) (refusedRecord (startAttempt e at_) at' reason)) c :=
      fun c hc => (sameClip_movedInflight (e := startAttempt e at_) hc).trans
        (sameClip_movedDelivered (e := refusedRecord (startAttempt e at_) at' reason) hc)
    refine .of_sameClip ho (ho.named.picked hp).movedInflight.movedDelivered (fun _ h => h)
      (fun _ he => by cases he) (fun c hc => (hsame c hc).trans (hmove c ?_))
      (fun _ he => by cases he) fun c hc => ?_
    · rintro rfl
      exact hpick e rfl hc
    · -- the clip refused is the one that arrives in `delivered/`
      by_cases hce : c = e.clipId
      · subst hce
        have hget : ∀ d, (movedDelivered (movedInflight u m (startAttempt e at_))
            (refusedRecord (startAttempt e at_) at' reason)).get (.queue d e.clipId .json) = _ :=
          fun d => get_movedDelivered_json
        refine Or.inr ⟨⟨_, (hget .delivered).trans (if_pos rfl)⟩, ?_, hget .inflight, ?_⟩
        · exact (hget .pending).trans (get_movedInflight_pending (e := startAttempt e at_))
        · rintro _ ⟨⟩
      · exact Or.inl (((hmove c hce).sidecar _).trans (hdel hp c hc))
  | @upload u e m at_ hp hm =>
    -- the clip picked goes to `inflight/`
    obtain ⟨hsame, hpick⟩ := hp.passed ho.named
    have hmove : ∀ c, c ≠ e.clipId → SameClip u (movedInflight u m (startAttempt e at_)) c :=
      fun c hc => sameClip_movedInflight (e := startAttempt e at_) hc
    refine .of_sameClip ho (ho.named.picked hp).movedInflight (fun _ h => h) ?_
      (fun c hc => (hsame c hc).trans (hmove c ?_)) ?_ fun c hc => Or.inl ?_
    · rintro _ ⟨⟩
      exact get_movedInflight_pending
    · rintro rfl
      exact hpick e rfl hc
    · rintro _ ⟨⟩
      exact hpick e rfl
    · by_cases hce : c = e.clipId
      · subst hce
        exact (get_movedInflight_delivered (e := startAttempt e at_)).trans (hdel hp _ hc)
      · exact ((hmove c hce).sidecar _).trans (hdel hp c hc)

theorem Step.finish_aside {e : ClipQueueEntry} {schedule : BackoffSchedule} {at_ : DateTime}
    {readings : List DateTime} {result : Except ClientError ClassifyTaskPublic} (ho : UsedOnce st)
    (haw : st.awaiting = some e) (h : FinishRun schedule st.fs e at_ result t) :
    Aside st (.finished e result readings) { st with fs := t, awaiting := none } := by
  have hne : ∀ c, Passed st c → c ≠ e.clipId := fun c hp => (hp.awaiting e haw).symm
  have hsettle : ∀ e' : ClipQueueEntry, e'.clipId = e.clipId →
      Aside st (.finished e result readings)
        { st with fs := movedDelivered st.fs e', awaiting := none } := by
    intro e' hid
    refine .of_sameClip ho ho.named.movedDelivered (fun _ h => h) (fun _ he => by cases he)
      (fun c hp => sameClip_movedDelivered (hid ▸ hne c hp)) (fun _ he => by cases he) fun c hc => ?_
    by_cases hce : c = e'.clipId
    · subst hce
      refine Or.inr ⟨⟨e', get_movedDelivered_json⟩, ?_, get_movedDelivered_json, ?_⟩
      · exact get_movedDelivered_json.trans (hid ▸ ho.taken e haw)
      · rintro _ ⟨⟩
    · exact Or.inl (((sameClip_movedDelivered hce).sidecar _).trans (ho.delivered_eq_none hc))
  have hback : ∀ e' : ClipQueueEntry, e'.clipId = e.clipId →
      Aside st (.finished e result readings)
        { st with fs := movedBack st.fs e', awaiting := none } := by
    intro e' hid
    refine .of_sameClip ho ho.named.movedBack (fun _ h => h) (fun _ he => by cases he)
      (fun c hp => sameClip_movedBack (hid ▸ hne c hp)) (fun _ he => by cases he)
      fun c hc => Or.inl ?_
    by_cases hce : c = e'.clipId
    · subst hce
      exact get_movedBack_delivered.trans (ho.delivered_eq_none hc)
    · exact ((sameClip_movedBack hce).sidecar _).trans (ho.delivered_eq_none hc)
  cases h with
  | accepted => exact hsettle _ rfl
  | undecodable => exact hsettle _ rfl
  | retried => exact hback _ rfl
  | exhausted => exact hsettle _ rfl
  | terminal => exact hsettle _ rfl

/-- Every operation of another party leaves the passed clips in `delivered/`, or evicts them. -/
theorem Step.aside (ho : UsedOnce st) (hev : ev.Beside) (h : Step cfg st ev st') :
    Aside st ev st' := by
  cases h with
  | capture name b => exact Step.capture_aside ho name b
  | enqueue hc hr => exact Step.enqueue_aside ho hc hr
  | enforce hr => exact Step.enforce_aside ho hr
  | start hnone hr => exact Step.start_aside ho (runs_tryOnceHead hr)
  | finish he hr =>
    obtain ⟨_, _, -, -, hfin⟩ := runs_tryOnceFinish hr
    exact Step.finish_aside ho he hfin
  | poll => exact hev.elim
  | prune => exact hev.elim
  | restart => exact hev.elim

end Perchstation
