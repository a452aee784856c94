import Perchstation.Queue.Pick
import Perchstation.Station

/-!
# Retry times — when a clip is uploaded again

A failed upload puts its clip off until a time that goes into the record.  The scan passes over the
record until then, whatever the clock does in between, and nothing else moves it, restarts
included.  Only a restart during the upload itself takes a clip back without a time.
-/

namespace Perchstation

open Resumption QueueStore

variable {cfg : Config} {st st' : Station} {ev : Event} {fs t : Fs} {c : ClipId} {m : Blob}
  {e : ClipQueueEntry}

/-- The step starts an upload of the clip, at the time `at_` of its reading of the clock. -/
def Event.Uploads (ev : Event) (c : ClipId) (at_ : DateTime) : Prop :=
  ∃ e, ev = .started (.ok (.upload e)) ∧ e.clipId = c ∧ e.lastAttemptAt = some at_

/-- The step ends an upload of the clip that failed for now and is due again at `next`, as the
schedule says for the time of the failure, the attempts so far and the wish of the server. -/
def Event.PutsOff (cfg : Config) (ev : Event) (c : ClipId) (next : DateTime) : Prop :=
  ∃ e err at_ rest, ev = .finished e (.error err) (at_ :: rest) ∧ e.clipId = c ∧
    classifyUploadError err = .transient ∧
    cfg.schedule.schedule at_ e.attempts e.firstAttemptAt err.retryAfter = some (.retry next)

def Event.Restarts (ev : Event) : Prop := ∃ r, ev = .restarted r

/-- The step ends an upload of the clip. -/
def Event.Ends (ev : Event) (c : ClipId) : Prop :=
  ∃ e result readings, ev = .finished e result readings ∧ e.clipId = c

/-- An entry taken to its upload was due. -/
theorem eligible_of_upload (hn : Named fs) (h : Runs Nominal tryOnceHead fs (.ok (.upload e)) t) :
    ∃ e₀ at_, Eligible fs at_ e₀.clipId e₀ ∧ e = startAttempt e₀ at_ := by
  rw [tryOnceHead, runs_bind] at h
  obtain ⟨at_, w, hw, h⟩ := h
  obtain rfl : w = fs := runs_now.mp hw
  rw [runs_bind] at h
  obtain ⟨_, u, hu, h⟩ := h
  obtain ⟨o, rfl, hpick⟩ := pickedLeast_of_runs hu
  cases o with
  | none =>
    obtain ⟨hr, -⟩ := h
    cases hr
  | some e₀ =>
    obtain ⟨c, hel, -⟩ := hpick.entry e₀ rfl
    obtain rfl : e₀.clipId = c := hn _ _ _ hel.1
    refine ⟨e₀, at_, hel, ?_⟩
    dsimp only at h
    rw [runs_bind] at h
    obtain ⟨_, w', hw', h⟩ := h
    rcases runs_transitionInflight.mp hw' with ⟨-, rfl, rfl⟩ | ⟨m, -, rfl, rfl⟩
    · simp only [runs_bind, runs_quarantineOrphan, and_assoc, exists_and_left, exists_eq_left] at h
      obtain ⟨hr, -⟩ := h
      cases hr
    · rcases runs_startUpload get_movedInflight_media h with ⟨hr, -⟩ | ⟨_, _, _, -, -, hr, -⟩
      · cases hr
        rfl
      · cases hr

/-- A first half that comes to no upload of the clip leaves it in `pending/`, or refuses it. -/
theorem HeadRun.pending {r : Except QueueError Head} {o : OpenEntry c} (hfs : Tidy fs)
    (hn : Named fs) (h : HeadRun fs r t) (hat : At fs c (.pending m o))
    (hnot : ∀ e, r = .ok (.upload e) → e.clipId ≠ c) :
    At t c (.pending m o) ∨ ∃ d, At t c (.delivered d) := by
  cases h with
  | idle hp => exact Or.inl (hat.of_sameClip ((hp.tidy hfs hn).1 c))
  | @missing u e hp hm =>
    obtain ⟨m', ho, hat'⟩ := (hp.tidy hfs hn).2 e rfl
    have hsome := hat'.media (d := .pending) (by simp)
    rw [hm] at hsome
    cases hsome
  | @refused u e m' len at_ at' reason hp hm hlen hreason =>
    obtain ⟨hsame, hpick⟩ := hp.tidy hfs hn
    by_cases hc : c = e.clipId
    · subst hc
      obtain ⟨m'', ho, hat'⟩ := hpick e rfl
      have h1 := hat'.movedInflight (e := OpenEntry.started ⟨e, rfl, ho⟩ at_)
      obtain rfl : m'' = m' :=
        Option.some.inj ((hat'.media (d := .pending) (by simp)).symm.trans hm)
      exact Or.inr ⟨_, h1.movedDelivered
        (e := ⟨refusedRecord (startAttempt e at_) at' reason, by simp, by simp⟩)⟩
    · have hmid : SameClip u (movedInflight u m' (startAttempt e at_)) c :=
        sameClip_movedInflight (e := startAttempt e at_) hc
      refine Or.inl (((hat.of_sameClip (hsame c)).of_sameClip hmid).of_sameClip ?_)
      exact sameClip_movedDelivered (e := refusedRecord (startAttempt e at_) at' reason) hc
  | @upload u e m' at_ hp hm =>
    have hc : c ≠ e.clipId := fun h => hnot _ rfl h.symm
    exact Or.inl ((hat.of_sameClip ((hp.tidy hfs hn).1 c)).of_sameClip
      (sameClip_movedInflight (e := startAttempt e at_) hc))

/-- The end of an upload of another clip leaves the clip alone. -/
theorem FinishRun.sameClip {at_ : DateTime} {result : Except ClientError ClassifyTaskPublic}
    (hc : c ≠ e.clipId) (h : FinishRun cfg.schedule fs e at_ result t) : SameClip fs t c := by
  cases h with
  | @accepted task => exact sameClip_movedDelivered (e := deliveredRecord e task at_) hc
  | undecodable => exact sameClip_movedDelivered (e := undecodableRecord e at_) hc
  | @retried err next _ _ =>
    exact sameClip_movedBack (e := retryRecord e next (errorKind err) err.status err.display) hc
  | @exhausted err at' _ _ =>
    exact sameClip_movedDelivered
      (e := undeliverableRecord e at' (errorKind err) err.status err.display) hc
  | @terminal err _ _ =>
    exact sameClip_movedDelivered
      (e := undeliverableRecord e at_ (errorKind err) err.status err.display) hc

/-- The end of an upload is final for its clip, or says when it is due again. -/
theorem FinishRun.clip {at_ : DateTime} {result : Except ClientError ClassifyTaskPublic}
    (ho : e.outcome = none) (hat : At fs e.clipId (.inflight m ⟨e, rfl, ho⟩))
    (h : FinishRun cfg.schedule fs e at_ result t) :
    (∃ d, At t e.clipId (.delivered d)) ∨ ∃ err next, result = .error err ∧
      classifyUploadError err = .transient ∧
      cfg.schedule.schedule at_ e.attempts e.firstAttemptAt err.retryAfter = some (.retry next) ∧
      ∃ o, At t e.clipId (.pending m o) ∧ o.1.nextAttemptAfter = some next := by
  have hdone : ∀ e' : ClipQueueEntry, e'.clipId = e.clipId → e'.outcome.isSome →
      ∃ d, At (movedDelivered fs e') e.clipId (.delivered d) :=
    fun e' hid hout => ⟨_, hat.movedDelivered (e := ⟨e', hid, hout⟩)⟩
  cases h with
  | accepted => exact Or.inl (hdone _ (by simp) (by simp))
  | undecodable => exact Or.inl (hdone _ (by simp) (by simp))
  | @retried err next htr hs =>
    have hback := hat.movedBack
      (e := ⟨retryRecord e next (errorKind err) err.status err.display, by simp, by simp [ho]⟩)
    exact Or.inr ⟨err, next, rfl, htr, hs, _, hback, rfl⟩
  | exhausted => exact Or.inl (hdone _ (by simp) (by simp))
  | terminal => exact Or.inl (hdone _ (by simp) (by simp))

/-! ## The clip after its upload -/

/-- Nothing will upload the clip any more. -/
def Over (fs : Fs) (c : ClipId) : Prop := At fs c .gone ∨ ∃ d, At fs c (.delivered d)

/-- The clip waits in `pending/` for the time `next`. -/
def WaitsUntil (fs : Fs) (c : ClipId) (next : DateTime) : Prop :=
  ∃ m o, At fs c (.pending m o) ∧ o.1.nextAttemptAfter = some next

/-- What a clip has come to since an upload of it began, by the steps `tr`. -/
inductive SinceUpload (cfg : Config) (st : Station) (c : ClipId) (tr : List (Event × Station)) : Prop
  | uploading (e : ClipQueueEntry) : st.awaiting = some e → e.clipId = c →
      (∀ s ∈ tr, ¬ s.1.Ends c) → SinceUpload cfg st c tr
  | waits (next : DateTime) : WaitsUntil st.fs c next →
      (∃ s ∈ tr, s.1.PutsOff cfg c next) → SinceUpload cfg st c tr
  | ended : Over st.fs c → SinceUpload cfg st c tr
  | restarted : (∃ s ∈ tr, s.1.Restarts) → (∀ s ∈ tr, ¬ s.1.Ends c) →
      (∀ e, st.awaiting = some e → e.clipId ≠ c) → SinceUpload cfg st c tr

theorem Over.step (hi : Inv st) (h : Step cfg st ev st') (hc : c ∈ st.used) (hover : Over st.fs c) :
    Over st'.fs c := by
  rcases hover with hgone | ⟨d, hd⟩
  · obtain ⟨q, hq, hpq, -⟩ := hi.moved h c .gone hc hgone
    obtain rfl := hpq.of_gone
    exact Or.inl hq
  · obtain ⟨q, hq, hpq, -⟩ := hi.moved h c (.delivered d) hc hd
    rcases hpq.of_delivered with rfl | ⟨d', rfl, -⟩
    · exact Or.inl hq
    · exact Or.inr ⟨d', hq⟩

/-- An upload starts while none is under way, for a clip in `pending/` whose time has passed. -/
theorem Step.pending_of_uploads {at_ : DateTime} (hi : Inv st) (h : Step cfg st ev st')
    (hup : ev.Uploads c at_) : st.awaiting = none ∧ ∃ m o, At st.fs c (.pending m o) ∧
      ∀ next, o.1.nextAttemptAfter = some next → next ≤ at_ := by
  obtain ⟨e, rfl, rfl, hlast⟩ := hup
  cases h with
  | start hnone hr =>
    obtain ⟨e₀, at', hel, rfl⟩ := eligible_of_upload hi.named hr
    obtain rfl : at' = at_ := Option.some.inj hlast
    obtain ⟨p, hp⟩ := hi.tidy e₀.clipId
    obtain ⟨m, hid, rfl⟩ := hp.pending_of_get hel.1
    exact ⟨hnone, m, _, hp, hel.2⟩

/-- What a step can do to a clip that waits in `pending/`. -/
theorem Step.pending {o : OpenEntry c} (hi : Inv st) (h : Step cfg st ev st') (hc : c ∈ st.used)
    (hat : At st.fs c (.pending m o)) :
    At st'.fs c (.pending m o) ∨ Over st'.fs c ∨ ∃ at_, ev.Uploads c at_ := by
  cases h with
  | capture name b =>
    refine Or.inl (hat.of_sameClip ?_)
    rintro d x (rfl | rfl) <;> simp [FileMap.get_put]
  | @enqueue s name clipMeta r t hs hr =>
    have hne : c ≠ s := fun heq => hs (heq ▸ hc)
    rcases runs_enqueueWithId.mp hr with ⟨-, -, rfl⟩ | ⟨m', len, at_, -, -, -, rfl⟩
    · exact Or.inl hat
    · exact Or.inl (hat.of_sameClip (sameClip_enqueued hne))
  | enforce hr =>
    obtain ⟨heff, -⟩ := runs_applyPolicy hr
    rcases hat.policyEffect hi.named heff with ⟨hsame, -⟩ | ⟨hgone, -⟩
    · exact Or.inl hsame
    · exact Or.inr (Or.inl (Or.inl hgone))
  | @start r t hnone hr =>
    -- the step that uploads the clip, or takes another one
    by_cases hup : ∃ e, r = .ok (.upload e) ∧ e.clipId = c
    · obtain ⟨e, rfl, rfl⟩ := hup
      obtain ⟨e₀, at_, hel, rfl⟩ := eligible_of_upload hi.named hr
      exact Or.inr (Or.inr ⟨at_, _, rfl, rfl, rfl⟩)
    · rcases (runs_tryOnceHead hr).pending hi.tidy hi.named hat
          (fun e he hid => hup ⟨e, he, hid⟩) with hsame | hdone
      · exact Or.inl hsame
      · exact Or.inr (Or.inl (Or.inr hdone))
  | @finish e result readings r t he hr =>
    -- the clip of the upload is in `inflight/`, so it is another one
    obtain ⟨m', ho, hinfl⟩ := hi.awaiting e he
    have hne : c ≠ e.clipId := by
      rintro rfl
      cases hat.unique hinfl
    obtain ⟨at_, rest, -, -, hfin⟩ := runs_tryOnceFinish hr
    refine Or.inl (hat.of_sameClip ?_)
    exact hfin.sameClip hne
  | poll hr =>
    rcases hat.pollEffect (runs_pollRound hi.named hr) with hsame | ⟨_, _, hp, -⟩
    · exact Or.inl hsame
    · cases hp
  | prune hr =>
    obtain ⟨-, cutoff, -, heff⟩ := runs_pruneRound hr
    rcases hat.pruneEffect hi.named heff with ⟨hsame, -⟩ | ⟨hgone, -⟩
    · exact Or.inl hsame
    · exact Or.inr (Or.inl (Or.inl hgone))
  | restart he hr =>
    obtain ⟨q, hq, hback⟩ := (reconcileInflight_returned hi.tidy hi.named hr).1 c _ hat
    rcases hback with rfl | ⟨_, _, _, hp, -⟩
    · exact Or.inl hq
    · cases hp

/-- What a step can do to the clip of the upload under way. -/
theorem Step.uploading (hi : Inv st) (h : Step cfg st ev st') (he : st.awaiting = some e) :
    (st'.awaiting = some e ∧ ¬ ev.Ends e.clipId) ∨ Over st'.fs e.clipId ∨
      (ev.Restarts ∧ st'.awaiting = none) ∨
      ∃ next, WaitsUntil st'.fs e.clipId next ∧ ev.PutsOff cfg e.clipId next := by
  have hends : ∀ {ev : Event}, (∀ e' result readings, ev ≠ .finished e' result readings) →
      ¬ ev.Ends e.clipId := by
    rintro ev hne ⟨e', result, readings, hev, -⟩
    exact hne e' result readings hev
  cases h with
  | start hnone hr =>
    rw [he] at hnone
    cases hnone
  | @finish e' result readings r t he' hr =>
    obtain rfl : e = e' := Option.some.inj (he.symm.trans he')
    obtain ⟨m, ho, hat⟩ := hi.awaiting e he
    obtain ⟨at_, rest, rfl, -, hfin⟩ := runs_tryOnceFinish hr
    rcases hfin.clip ho hat with hdone | ⟨err, next, rfl, htr, hs, hback⟩
    · exact Or.inr (Or.inl (Or.inr hdone))
    · exact Or.inr (Or.inr (Or.inr ⟨next, ⟨m, hback⟩, e, err, at_, rest, rfl, rfl, htr, hs⟩))
  | restart => exact Or.inr (Or.inr (Or.inl ⟨⟨_, rfl⟩, rfl⟩))
  | capture => exact Or.inl ⟨he, hends (by simp)⟩
  | enqueue => exact Or.inl ⟨he, hends (by simp)⟩
  | enforce => exact Or.inl ⟨he, hends (by simp)⟩
  | poll => exact Or.inl ⟨he, hends (by simp)⟩
  | prune => exact Or.inl ⟨he, hends (by simp)⟩

/-- A clip that is not being uploaded stays so in every step that does not upload it. -/
theorem Step.idle (h : Step cfg st ev st') (hno : ∀ at_, ¬ ev.Uploads c at_)
    (hidle : ∀ e, st.awaiting = some e → e.clipId ≠ c) :
    ¬ ev.Ends c ∧ ∀ e, st'.awaiting = some e → e.clipId ≠ c := by
  constructor
  · rintro ⟨e, result, readings, rfl, hid⟩
    exact hidle e h.finish_elim.1 hid
  · intro e he
    cases h with
    | capture => exact hidle e he
    | enqueue => exact hidle e he
    | enforce => exact hidle e he
    | @start r t hnone hr =>
      rintro rfl
      rcases r with err | _ | _ | e' <;> cases he
      have hup := runs_tryOnceHead hr
      cases hup with
      | upload => exact hno _ ⟨_, rfl, rfl, rfl⟩
    | finish => cases he
    | poll => exact hidle e he
    | prune => exact hidle e he
    | restart => cases he

/-- The account of a clip is kept by every step that does not upload it again. -/
theorem SinceUpload.step {tr : List (Event × Station)} (hi : Inv st) (h : Step cfg st ev st')
    (hc : c ∈ st.used) (hno : ∀ at_, ¬ ev.Uploads c at_) (hsince : SinceUpload cfg st c tr) :
    SinceUpload cfg st' c (tr ++ [(ev, st')]) := by
  have hlast : (ev, st') ∈ tr ++ [(ev, st')] := List.mem_append_right _ List.mem_cons_self
  have hnone : (∀ s ∈ tr, ¬ s.1.Ends c) → ¬ ev.Ends c →
      ∀ s ∈ tr ++ [(ev, st')], ¬ s.1.Ends c := by
    intro htr hev s hs
    rcases List.mem_append.mp hs with hs | hs
    · exact htr s hs
    · rw [List.mem_singleton.mp hs]
      exact hev
  cases hsince with
  | uploading e he hid hends =>
    subst hid
    rcases Step.uploading hi h he with ⟨haw, hev⟩ | hover | ⟨hre, haw⟩ | ⟨next, hw, hoff⟩
    · exact .uploading e haw rfl (hnone hends hev)
    · exact .ended hover
    · refine .restarted ⟨_, hlast, hre⟩ (hnone hends ?_) fun e he => ?_
      · obtain ⟨r, rfl⟩ := hre
        rintro ⟨_, _, _, hev, -⟩
        cases hev
      · rw [haw] at he
        cases he
    · exact .waits next hw ⟨_, hlast, hoff⟩
  | waits next hw hoff =>
    obtain ⟨s, hs, hoff⟩ := hoff
    obtain ⟨m, o, hat, hnext⟩ := hw
    rcases Step.pending hi h hc hat with hat' | hover | ⟨at_, hup⟩
    · exact .waits next ⟨m, o, hat', hnext⟩ ⟨s, List.mem_append_left _ hs, hoff⟩
    · exact .ended hover
    · exact absurd hup (hno at_)
  | ended hover => exact .ended (hover.step hi h hc)
  | restarted hre hends hidle =>
    obtain ⟨s, hs, hre⟩ := hre
    obtain ⟨hev, hidle'⟩ := h.idle hno hidle
    exact .restarted ⟨s, List.mem_append_left _ hs, hre⟩ (hnone hends hev) hidle'

/-- An upload of the clip answers to the account: a restart has cut the last one short, or a time
has passed. -/
theorem SinceUpload.uploads {tr : List (Event × Station)} {at_ : DateTime} (hi : Inv st)
    (h : Step cfg st ev st') (hsince : SinceUpload cfg st c tr)
    (hup : ev.Uploads c at_) :
    ((∃ s ∈ tr, s.1.Restarts) ∧ ∀ s ∈ tr, ¬ s.1.Ends c) ∨
      ∃ s ∈ tr, ∃ next, s.1.PutsOff cfg c next ∧ next ≤ at_ := by
  obtain ⟨hnone, m, o, hat, hdue⟩ := Step.pending_of_uploads hi h hup
  cases hsince with
  | uploading e he hid hends =>
    rw [he] at hnone
    cases hnone
  | waits next hw hoff =>
    obtain ⟨s, hs, hoff⟩ := hoff
    obtain ⟨m', o', hat', hnext⟩ := hw
    obtain ⟨rfl, rfl⟩ := Phase.pending.inj (hat.unique hat')
    exact Or.inr ⟨s, hs, next, hoff, hdue next hnext⟩
  | ended hover =>
    rcases hover with hgone | ⟨d, hd⟩
    · cases hat.unique hgone
    · cases hat.unique hd
  | restarted hre hends => exact Or.inl ⟨hre, hends⟩

/-- The upload of a clip that starts with the clock at `at_` opens its account. -/
theorem Step.sinceUpload {at_ : DateTime} (h : Step cfg st ev st') (hup : ev.Uploads c at_) :
    SinceUpload cfg st' c [] := by
  obtain ⟨e, rfl, rfl, -⟩ := hup
  cases h with
  | start hnone hr => exact .uploading e rfl rfl (by simp)

/-- In every run whose restarts come while an upload is awaited, a clip is uploaded again only if a
restart cut its last upload short, or if that upload failed for now and put it off until a time that has
passed. -/
theorem reuploads_are_due {st₀ : Station} {tr tr' : List (Event × Station)} {ev' : Event}
    {at_ at' : DateTime} (h₀ : st₀.Initial)
    (h : Exec (Step cfg) st₀ (tr ++ (ev, st) :: (tr' ++ [(ev', st')])) st')
    (hup : ev.Uploads c at_) (hup' : ev'.Uploads c at')
    (hno : ∀ s ∈ tr', ∀ b, ¬ s.1.Uploads c b) :
    ((∃ s ∈ tr', s.1.Restarts) ∧ ∀ s ∈ tr', ¬ s.1.Ends c) ∨
      ∃ s ∈ tr', ∃ next, s.1.PutsOff cfg c next ∧ next ≤ at' := by
  obtain ⟨a, hrun, hs, hrest⟩ := h.cut
  obtain ⟨b, hbetween, hs', -⟩ := hrest.cut
  have ha : Inv a := h₀.inv.exec hrun
  have hused : c ∈ st.used := by
    obtain ⟨-, m, o, hat, -⟩ := Step.pending_of_uploads ha hs hup
    exact hs.used_subset (ha.mem_used hat (by simp))
  have hi : Inv st := ha.step hs
  have hsince : SinceUpload cfg b c tr' := by
    clear hrest hs' h
    induction hbetween with
    | nil => exact hs.sinceUpload hup
    | @snoc tr₁ t u l hrun' hstep ih =>
      have hinit := ih fun s hs' => hno s (List.mem_append_left _ hs')
      exact hinit.step (hi.exec hrun') hstep (used_subset_of_exec hrun' hused)
        (hno (l, u) (List.mem_append_right _ List.mem_cons_self))
  exact hsince.uploads (hi.exec hbetween) hs' hup'

/-! ## A second upload -/

namespace Station

/-- The record of the first upload after the network failed it. -/
def offlineRecord (next : DateTime) : ClipQueueEntry :=
  retryRecord (startAttempt firstEntry epoch) next (errorKind (.network "" "")) none
    (ClientError.network "" "").display

def offline (next : DateTime) : Station :=
  { uploading with fs := movedBack uploading.fs (offlineRecord next), awaiting := none }

theorem exists_step_offline : ∃ next rest,
    Step Config.plain uploading (.finished (startAttempt firstEntry epoch)
      (.error (.network "" "")) (epoch :: rest)) (offline next) := by
  have hrep : Config.plain.schedule.Representable epoch
      (startAttempt firstEntry epoch).attempts none :=
    ⟨10000000000, .ofSecs 10 ⟨by decide, by decide⟩, by decide +kernel, rfl⟩
  obtain ⟨next, hnext⟩ := @BackoffSchedule.exists_schedule_eq_retry Config.plain.schedule epoch
    (startAttempt firstEntry epoch).attempts (startAttempt firstEntry epoch).firstAttemptAt none
    rfl hrep
  have hfin : FinishRun Config.plain.schedule uploading.fs (startAttempt firstEntry epoch) epoch
      (.error (.network "" "")) (offline next).fs := .retried rfl hnext
  obtain ⟨rest, hstep⟩ := Step.exists_finish rfl hfin
  exact ⟨next, rest, hstep⟩

/-- The clip is taken to its second upload as soon as its time has come. -/
theorem step_again {next : DateTime} {hid} (hi : Inv (offline next))
    (hat : At (offline next).fs "c1" (.pending footage ⟨offlineRecord next, hid⟩)) :
    Step cfg (offline next) (.started (.ok (.upload (startAttempt (offlineRecord next) next))))
      ⟨movedInflight (offline next).fs footage (startAttempt (offlineRecord next) next),
        some (startAttempt (offlineRecord next) next), ∅, {"c1"}⟩ := by
  have hlen : footage.HasLen 1 := rfl
  refine .start rfl (runs_tryOnceHead_due (e := offlineRecord next) (fun c hc => ?_) ?_ ?_ ?_ hlen
    (by decide) (by decide))
  · -- no other clip has ever been enqueued
    by_contra hne
    have hgone := hi.unused c fun hmem => hne (Finset.mem_singleton.mp hmem)
    rw [hgone.sidecar (by simp)] at hc
    cases hc
  · exact hat.sidecar (d := .pending) (by simp)
  · rintro _ ⟨⟩
    exact le_refl _
  · exact hat.media (d := .pending) (by simp)

def offlineTrace (next : DateTime) (rest : List DateTime) : List (Event × Station) :=
  [(.finished (startAttempt firstEntry epoch) (.error (.network "" "")) (epoch :: rest),
    offline next)]

end Station

/-- The network fails the first upload of a clip; its second comes when the schedule says. -/
theorem reuploads_are_due_offline : ∃ next rest,
    ((∃ s ∈ Station.offlineTrace next rest, s.1.Restarts) ∧
        ∀ s ∈ Station.offlineTrace next rest, ¬ s.1.Ends "c1") ∨
      ∃ s ∈ Station.offlineTrace next rest, ∃ due,
        s.1.PutsOff Config.plain "c1" due ∧ due ≤ next := by
  obtain ⟨next, rest, hstep⟩ := Station.exists_step_offline
  obtain ⟨m, ho, hat⟩ := Station.uploading_inv.awaiting _ rfl
  obtain rfl : m = Station.footage := by
    have hmedia := hat.media (d := .inflight) (by simp)
    exact Option.some.inj (hmedia.symm.trans get_movedInflight_media)
  have hback := hat.movedBack (e := ⟨Station.offlineRecord next, rfl, rfl⟩)
  have hi : Inv (Station.offline next) := Station.uploading_inv.step hstep
  have hrun : Exec (Step Config.plain) Station.blank
      ([(.captured, Station.captured), (.enqueued "c1" (.ok Station.firstEntry), Station.queued)] ++
        (.started (.ok (.upload (startAttempt Station.firstEntry Station.epoch))),
          Station.uploading) :: (Station.offlineTrace next rest ++
        [(.started (.ok (.upload (startAttempt (Station.offlineRecord next) next))), _)])) _ :=
    (Station.exec_uploading.snoc hstep).snoc (Station.step_again hi hback)
  refine ⟨next, rest, reuploads_are_due Station.blank_initial hrun
    ⟨startAttempt Station.firstEntry Station.epoch, rfl, rfl, rfl⟩
    ⟨startAttempt (Station.offlineRecord next) next, rfl, rfl, rfl⟩ fun s hs b hup => ?_⟩
  obtain rfl := List.mem_singleton.mp hs
  obtain ⟨_, hev, -⟩ := hup
  cases hev

end Perchstation
