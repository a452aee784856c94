import Perchstation.Station

/-!
# Causes — what takes a clip to `delivered/`

`SettledBy` lists the ways a step of the station can record an outcome, with the record it writes.
-/

namespace Perchstation

open Resumption QueueStore

variable {cfg : Config} {st st' : Station} {ev : Event} {fs t : Fs} {e : ClipQueueEntry}

/-- The record that the step labelled with the event writes for a clip that was in the phase. -/
inductive SettledBy (schedule : BackoffSchedule) {c : ClipId} :
    Phase c → Event → ClipQueueEntry → Prop
  | refused {m : Blob} {o : OpenEntry c} {len : UInt64} {at_ at' : DateTime} {reason : String} :
      m.HasLen len → RefusedFor len reason →
      SettledBy schedule (.pending m o) (.started (.ok .progressed))
        (refusedRecord (startAttempt o.1 at_) at' reason)
  | accepted {m : Blob} {o : OpenEntry c} {task : ClassifyTaskPublic} {at_ : DateTime}
      {rest : List DateTime} :
      SettledBy schedule (.inflight m o) (.finished o.1 (.ok task) (at_ :: rest))
        (deliveredRecord o.1 task at_)
  | undecodable {m : Blob} {o : OpenEntry c} {url message : String} {at_ : DateTime}
      {rest : List DateTime} :
      SettledBy schedule (.inflight m o)
        (.finished o.1 (.error (.undecodableSuccess url message)) (at_ :: rest))
        (undecodableRecord o.1 at_)
  | exhausted {m : Blob} {o : OpenEntry c} {err : ClientError} {at_ at' : DateTime}
      {rest : List DateTime} : classifyUploadError err = .transient →
      schedule.budgetExhausted at_ o.1.attempts o.1.firstAttemptAt = true →
      SettledBy schedule (.inflight m o) (.finished o.1 (.error err) (at_ :: rest))
        (undeliverableRecord o.1 at' (errorKind err) err.status err.display)
  | terminal {m : Blob} {o : OpenEntry c} {err : ClientError} {at_ : DateTime}
      {rest : List DateTime} : classifyUploadError err = .terminal →
      (∀ url message, err ≠ .undecodableSuccess url message) →
      SettledBy schedule (.inflight m o) (.finished o.1 (.error err) (at_ :: rest))
        (undeliverableRecord o.1 at_ (errorKind err) err.status err.display)

section Settled

variable {c : ClipId} {p : Phase c} {d : ClosedEntry c}

theorem At.entry_delivered (h : At fs c (.delivered d)) {e : ClipQueueEntry}
    (he : fs.get (.queue .delivered c .json) = some (.sidecar e)) : d.1 = e :=
  Option.some.inj (h.entry_of_get (by simp) he)

theorem get_movedDelivered : (movedDelivered fs e).get (.queue .delivered e.clipId .json) =
    some (.sidecar e) := by
  simp [movedDelivered, FileMap.get_put]

theorem HeadRun.settled {schedule : BackoffSchedule} {r : Except QueueError Head} (hfs : Tidy fs)
    (hn : Named fs) (h : HeadRun fs r t) (hp : At fs c p) (hne : ∀ d, p ≠ .delivered d)
    (hd : At t c (.delivered d)) : SettledBy schedule p (.started r) d.1 := by
  have hstay : ∀ {u}, SameClip fs u c → ¬ At u c (.delivered d) := fun hs hu =>
    hne d ((hp.of_sameClip hs).unique hu)
  cases h with
  | idle hpick => exact absurd hd (hstay ((hpick.tidy hfs hn).1 c))
  | @missing u e hpick hm =>
    obtain ⟨m, ho, hat⟩ := (hpick.tidy hfs hn).2 e rfl
    have := hat.media (d := .pending) (by simp)
    rw [hm] at this
    cases this
  | @refused u e m len at_ at' reason hpick hm hlen hreason =>
    obtain ⟨hsame, hentry⟩ := hpick.tidy hfs hn
    obtain ⟨m', ho, hat⟩ := hentry e rfl
    obtain rfl : m' = m := Option.some.inj ((hat.media (d := .pending) (by simp)).symm.trans hm)
    by_cases hc : c = e.clipId
    · subst hc
      obtain rfl := (hp.of_sameClip (hsame _)).unique hat
      have hrec := hd.entry_delivered
        (get_movedDelivered (e := refusedRecord (startAttempt e at_) at' reason))
      rw [hrec]
      exact .refused hlen hreason
    · refine absurd hd (hstay ((hsame c).trans ?_))
      exact (sameClip_movedInflight (e := startAttempt e at_) hc).trans
        (sameClip_movedDelivered (e := refusedRecord (startAttempt e at_) at' reason) hc)
  | @upload u e m at_ hpick hm =>
    obtain ⟨hsame, hentry⟩ := hpick.tidy hfs hn
    obtain ⟨m', ho, hat⟩ := hentry e rfl
    by_cases hc : c = e.clipId
    · subst hc
      have h1 := hat.movedInflight (e := OpenEntry.started ⟨e, rfl, ho⟩ at_)
      obtain rfl : m' = m := Option.some.inj ((hat.media (d := .pending) (by simp)).symm.trans hm)
      cases hd.unique h1
    · exact absurd hd (hstay ((hsame c).trans
        (sameClip_movedInflight (e := startAttempt e at_) hc)))

theorem FinishRun.settled {schedule : BackoffSchedule} {at_ : DateTime} {m : Blob}
    {rest : List DateTime} {result : Except ClientError ClassifyTaskPublic} (ho : e.outcome = none)
    (hat : At fs e.clipId (.inflight m ⟨e, rfl, ho⟩)) (h : FinishRun schedule fs e at_ result t)
    (hp : At fs c p) (hne : ∀ d, p ≠ .delivered d) (hd : At t c (.delivered d)) :
    SettledBy schedule p (.finished e result (at_ :: rest)) d.1 := by
  by_cases hc : c = e.clipId
  · subst hc
    obtain rfl := hp.unique hat
    cases h with
    | accepted =>
      rw [hd.entry_delivered (get_movedDelivered (e := deliveredRecord e _ at_))]
      exact .accepted
    | undecodable =>
      rw [hd.entry_delivered (get_movedDelivered (e := undecodableRecord e at_))]
      exact .undecodable
    | @retried err next =>
      have hback := hat.movedBack
        (e := ⟨retryRecord e next (errorKind err) err.status err.display, rfl, ho⟩)
      cases hd.unique hback
    | @exhausted err at' htrans hb =>
      rw [hd.entry_delivered (get_movedDelivered
        (e := undeliverableRecord e at' (errorKind err) err.status err.display))]
      exact .exhausted htrans hb
    | @terminal err ht hund =>
      rw [hd.entry_delivered (get_movedDelivered
        (e := undeliverableRecord e at_ (errorKind err) err.status err.display))]
      exact .terminal ht hund
  · have hsame : SameClip fs t c := by
      cases h with
      | accepted => exact sameClip_movedDelivered hc
      | undecodable => exact sameClip_movedDelivered hc
      | retried => exact sameClip_movedBack hc
      | exhausted => exact sameClip_movedDelivered hc
      | terminal => exact sameClip_movedDelivered hc
    exact absurd ((hp.of_sameClip hsame).unique hd) (hne d)

/-- A step that takes a clip to `delivered/` is one of those listed. -/
theorem Step.settled (hi : Inv st) (h : Step cfg st ev st') (hp : At st.fs c p)
    (hne : ∀ d, p ≠ .delivered d) (hd : At st'.fs c (.delivered d)) :
    SettledBy cfg.schedule p ev d.1 := by
  have hstay : At st'.fs c p → False := fun hs => hne d (hs.unique hd)
  have hgone : ¬ At st'.fs c .gone := fun hg => by cases hg.unique hd
  cases h with
  | capture name b =>
    refine (hstay (hp.of_sameClip ?_)).elim
    rintro d x (rfl | rfl) <;> simp [FileMap.get_put]
  | @enqueue c' name clipMeta r t hc hr =>
    rcases runs_enqueueWithId.mp hr with ⟨-, rfl, rfl⟩ | ⟨m, len, at_, -, -, rfl, rfl⟩
    · exact (hstay hp).elim
    · by_cases hcc : c = c'
      · subst hcc
        have hnew := (hi.unused c hc).enqueued (n := name) (m := m)
          (e := ⟨.new c clipMeta.capturedAt at_ len, rfl, rfl⟩)
        cases hnew.unique hd
      · exact (hstay (hp.of_sameClip (sameClip_enqueued hcc))).elim
  | enforce hr =>
    rcases hp.policyEffect hi.named (runs_applyPolicy hr).1 with ⟨hat, -⟩ | ⟨hat, -⟩
    · exact (hstay hat).elim
    · exact (hgone hat).elim
  | start _ hr => exact (runs_tryOnceHead hr).settled hi.tidy hi.named hp hne hd
  | finish he hr =>
    obtain ⟨m, ho, hat⟩ := hi.awaiting _ he
    obtain ⟨at_, rest, rfl, -, hfin⟩ := runs_tryOnceFinish hr
    exact hfin.settled ho hat hp hne hd
  | poll hr =>
    rcases hp.pollEffect (runs_pollRound hi.named hr) with hat | ⟨e, -, rfl, -⟩
    · exact (hstay hat).elim
    · exact absurd rfl (hne e)
  | prune hr =>
    obtain ⟨-, cutoff, -, heff⟩ := runs_pruneRound hr
    rcases hp.pruneEffect hi.named heff with ⟨hat, -⟩ | ⟨hat, -⟩
    · exact (hstay hat).elim
    · exact (hgone hat).elim
  | restart _ hr =>
    obtain ⟨q, hq, hpq⟩ := (reconcileInflight_returned hi.tidy hi.named hr).1 c p hp
    obtain rfl := hd.unique hq
    rcases hpq with rfl | ⟨_, _, _, -, hp', -⟩
    · exact absurd rfl (hne d)
    · cases hp'

/-- Every clip in `delivered/` has been settled by a step of the run and since then only polled. -/
theorem exists_settled {st₀ : Station} {tr : List (Event × Station)} (h₀ : st₀.Initial)
    (h : Exec (Step cfg) st₀ tr st) (hd : At st.fs c (.delivered d)) :
    ∃ tr₁ s tr₂ a p e, tr = tr₁ ++ s :: tr₂ ∧ Exec (Step cfg) st₀ tr₁ a ∧ At a.fs c p ∧
      SettledBy cfg.schedule p s.1 e ∧ PollUpdate e d.1 := by
  induction h generalizing d with
  | nil =>
    have hside := hd.sidecar (d := .delivered) (by simp)
    rw [h₀.empty] at hside
    cases hside
  | @snoc tr t u l hrun hs ih =>
    have hit : Inv t := h₀.inv.exec hrun
    obtain ⟨p, hp⟩ := hit.tidy c
    by_cases hdel : ∃ d', p = .delivered d'
    · obtain ⟨d', rfl⟩ := hdel
      obtain ⟨q, hq, hmoves, -⟩ := hit.moved hs c _ (hit.mem_used hp (by simp)) hp
      obtain rfl := hq.unique hd
      obtain h | ⟨d'', hd'', hu⟩ := hmoves.of_delivered
      · cases h
      · obtain rfl := Phase.delivered.inj hd''
        obtain ⟨tr₁, s, tr₂, a, p, e, rfl, h1, h2, h3, h4⟩ := ih hp
        exact ⟨tr₁, s, tr₂ ++ [(l, u)], a, p, e, by simp, h1, h2, h3, h4.trans hu⟩
    · exact ⟨tr, (l, u), [], t, p, d.1, rfl, hrun, hp,
        hs.settled hit hp (fun d' he => hdel ⟨d', he⟩) hd, .refl _⟩

end Settled

/-! ## Undeliverable -/

/-- perchpub rejects the request for good. -/
def ClientError.IsRejection : ClientError → Prop
  | .http _ status _ _ =>
    400 ≤ status ∧ status ≤ 499 ∧ status ≠ 408 ∧ status ≠ 425 ∧ status ≠ 429
  | _ => False

/-- The station's configuration is wrong or the clip cannot be opened. -/
def ClientError.IsLocalFault : ClientError → Prop
  | .credentialIo _ _ | .tlsConfig _ | .invalidUrl _ _ | .outboundDisallowed _ _
  | .clipOpen _ _ => True
  | _ => False

/-- The clip was refused before its upload, perchpub rejected it, this station is at fault, or a
budget was used up. -/
inductive PermanentCause (schedule : BackoffSchedule) {c : ClipId} : Phase c → Event → Prop
  | preflight {m : Blob} {o : OpenEntry c} {len : UInt64} {reason : String} {r : Head} :
      m.HasLen len → RefusedFor len reason →
      PermanentCause schedule (.pending m o) (.started (.ok r))
  | rejected {m : Blob} {o : OpenEntry c} {err : ClientError} {readings : List DateTime} :
      err.IsRejection → PermanentCause schedule (.inflight m o) (.finished o.1 (.error err) readings)
  | localFault {m : Blob} {o : OpenEntry c} {err : ClientError} {readings : List DateTime} :
      err.IsLocalFault → PermanentCause schedule (.inflight m o) (.finished o.1 (.error err) readings)
  | exhausted {m : Blob} {o : OpenEntry c} {err : ClientError} {at_ : DateTime}
      {rest : List DateTime} :
      schedule.budgetExhausted at_ o.1.attempts o.1.firstAttemptAt = true →
      PermanentCause schedule (.inflight m o) (.finished o.1 (.error err) (at_ :: rest))

/-- A status that `classifyStatus` takes for what it means. -/
def AgreedStatus (status : UInt16) : Prop :=
  (200 ≤ status ∧ status ≤ 299) ∨ (400 ≤ status ∧ status ≤ 499) ∨ status = 500 ∨
    status = 502 ∨ status = 503 ∨ status = 504

/-- A response that was read has such a status. -/
def Agreed (result : Except ClientError ClassifyTaskPublic) : Prop :=
  ∀ url status message retryAfter,
    result = .error (.http url status message retryAfter) → AgreedStatus status

/-- If the step ends an upload, its response has such a status or a budget is used up. -/
def Event.Agreed (schedule : BackoffSchedule) : Event → Prop
  | .finished e result readings => Perchstation.Agreed result ∨
      ∃ at_ rest, readings = at_ :: rest ∧
        schedule.budgetExhausted at_ e.attempts e.firstAttemptAt = true
  | _ => True

theorem classifyStatus_agreed {status : UInt16} (h : AgreedStatus status) :
    classifyStatus status = .terminal →
      400 ≤ status ∧ status ≤ 499 ∧ status ≠ 408 ∧ status ≠ 425 ∧ status ≠ 429 := by
  unfold classifyStatus
  split_ifs with h1 h2
  · nofun
  · nofun
  · intro _
    rcases h with h | h | h | h | h | h
    · exact absurd h h1
    · exact ⟨h.1, h.2, by tauto⟩
    · simp [h] at h2
    · simp [h] at h2
    · simp [h] at h2
    · simp [h] at h2

/-- A terminal error is a rejection or a local fault. -/
theorem terminal_cases {err : ClientError} (h : classifyUploadError err = .terminal)
    (hund : ∀ url message, err ≠ .undecodableSuccess url message)
    (ha : ∀ url status message retryAfter, err = .http url status message retryAfter →
      AgreedStatus status) : err.IsRejection ∨ err.IsLocalFault := by
  cases err with
  | http url status message retryAfter =>
    exact Or.inl (classifyStatus_agreed (ha _ _ _ _ rfl) h)
  | network => cases h
  | decode => cases h
  | undecodableSuccess url message => exact absurd rfl (hund _ _)
  | credentialIo => exact Or.inr trivial
  | tlsConfig => exact Or.inr trivial
  | invalidUrl => exact Or.inr trivial
  | outboundDisallowed => exact Or.inr trivial
  | clipOpen => exact Or.inr trivial

theorem SettledBy.cause {schedule : BackoffSchedule} {c : ClipId} {p : Phase c}
    (h : SettledBy schedule p ev e) (hev : ev.Agreed schedule)
    (hout : e.outcome = some .undeliverable) : PermanentCause schedule p ev := by
  cases h with
  | refused hlen hreason => exact .preflight hlen hreason
  | accepted => cases hout
  | undecodable => cases hout
  | exhausted _ hb => exact .exhausted hb
  | terminal ht hund =>
    rcases hev with hev | ⟨at', rest', hread, hb⟩
    · rcases terminal_cases ht hund fun _ _ _ _ he => hev _ _ _ _ (congrArg Except.error he) with h | h
      · exact .rejected h
      · exact .localFault h
    · rw [hread]
      exact .exhausted hb

theorem exists_cause {st₀ : Station} {tr : List (Event × Station)} (h₀ : st₀.Initial)
    (h : Exec (Step cfg) st₀ tr st) (hev : ∀ s ∈ tr, s.1.Agreed cfg.schedule) {c : ClipId}
    {d : ClosedEntry c} (hd : At st.fs c (.delivered d))
    (hout : d.1.outcome = some .undeliverable) :
    ∃ tr₁ s tr₂ a p, tr = tr₁ ++ s :: tr₂ ∧ Exec (Step cfg) st₀ tr₁ a ∧ At a.fs c p ∧
      PermanentCause cfg.schedule p s.1 := by
  obtain ⟨tr₁, s, tr₂, a, p, d₀, rfl, h1, h2, hset, hu⟩ := exists_settled h₀ h hd
  exact ⟨tr₁, s, tr₂, a, p, rfl, h1, h2,
    hset.cause (hev s (by simp)) (hu.outcome.symm.trans hout)⟩

/-- The upload failed on the network or the server answered 500 to 599. -/
def IsOutage (result : Except ClientError ClassifyTaskPublic) : Prop :=
  (∃ url message, result = .error (.network url message)) ∨
    ∃ response at_ url, 500 ≤ response.status ∧ response.status ≤ 599 ∧
      result = readAndClassify response at_ url

/-- An outage is an error that is retried, if its status is one the classification agrees with. -/
theorem IsOutage.transient {result : Except ClientError ClassifyTaskPublic} (h : IsOutage result)
    (ha : Agreed result) : ∃ err, result = .error err ∧ classifyUploadError err = .transient := by
  rcases h with ⟨url, message, rfl⟩ | ⟨response, at_, url, h1, h2, rfl⟩
  · exact ⟨_, rfl, rfl⟩
  · by_cases hr : response.Readable
    · have hs : isSuccess response.status = false := by
        unfold isSuccess
        have : ¬ response.status < 300 := by
          rw [UInt16.lt_iff_toNat_lt]
          rw [UInt16.le_iff_toNat_le] at h1
          have h500 : (500 : UInt16).toNat = 500 := rfl
          have h300 : (300 : UInt16).toNat = 300 := rfl
          omega
        simp [this]
      have herr : readAndClassify response at_ url = .error (.http url response.status response.text
          (parseRetryAfter response.retryAfter at_)) := by
        rw [readAndClassify, (readCapped_ok_iff response url).mpr hr]
        simp [classifyResponse, hs]
      refine ⟨_, herr, (classifyStatus_eq_transient_iff _).mpr ?_⟩
      rcases ha _ _ _ _ herr with h | h | h | h | h | h
      · exact Or.inl h
      · exfalso
        have h499 := h.2
        rw [UInt16.le_iff_toNat_le] at h1 h499
        have h500 : (500 : UInt16).toNat = 500 := rfl
        have h499' : (499 : UInt16).toNat = 499 := rfl
        omega
      · tauto
      · tauto
      · tauto
      · tauto
    · obtain ⟨err, herr, hb⟩ := readAndClassify_of_not_readable hr
      refine ⟨err, herr, ?_⟩
      cases err with
      | network => rfl
      | decode => rfl
      | _ => exact hb.elim

/-- After an outage the clip goes back to `pending/` with its media. -/
theorem Inv.back_to_pending {result : Except ClientError ClassifyTaskPublic} {at_ : DateTime}
    (hi : Inv st) (haw : st.awaiting = some e) (hout : IsOutage result) (ha : Agreed result)
    (hrep : ∀ err, result = .error err → cfg.schedule.Representable at_ e.attempts err.retryAfter)
    (hb : cfg.schedule.budgetExhausted at_ e.attempts e.firstAttemptAt = false) :
    (∃ rest st₁, Step cfg st (.finished e result (at_ :: rest)) st₁) ∧
      ∀ rest st₁, Step cfg st (.finished e result (at_ :: rest)) st₁ →
        ∃ m ho o, At st.fs e.clipId (.inflight m ⟨e, rfl, ho⟩) ∧
          At st₁.fs e.clipId (.pending m o) := by
  obtain ⟨err, rfl, htrans⟩ := hout.transient ha
  obtain ⟨next, hnext⟩ := BackoffSchedule.exists_schedule_eq_retry hb (hrep err rfl)
  refine ⟨?_, fun rest st₁ hs => ?_⟩
  · have hfin : FinishRun cfg.schedule st.fs e at_ (.error err) _ := .retried htrans hnext
    obtain ⟨rest, hs⟩ := Step.exists_finish haw hfin
    exact ⟨rest, _, hs⟩
  · obtain ⟨m, ho, hat⟩ := hi.awaiting e haw
    obtain ⟨-, at', rest', hread, hfin⟩ := hs.finish_elim
    obtain ⟨rfl, -⟩ := List.cons.inj hread
    generalize st₁.fs = u at hfin
    cases hfin with
    | undecodable => cases htrans
    | @retried _ next _ _ =>
      have hback := hat.movedBack
        (e := ⟨retryRecord e next (errorKind err) err.status err.display, rfl, ho⟩)
      exact ⟨m, ho, _, hat, hback⟩
    | exhausted _ hb' =>
      rw [hb] at hb'
      cases hb'
    | terminal ht =>
      rw [htrans] at ht
      cases ht

/-- In a run whose uploads are answered with 2xx, 4xx, 500, 502, 503 or 504 while a budget is left,
every Undeliverable clip has a permanent cause, and an outage sends the clip back to `pending/` with
its media if the instant of the next attempt can be represented. -/
theorem undeliverable_only_for_cause {st₀ : Station} {tr : List (Event × Station)}
    (h₀ : st₀.Initial) (h : Exec (Step cfg) st₀ tr st)
    (hev : ∀ s ∈ tr, s.1.Agreed cfg.schedule) :
    (∀ c (d : ClosedEntry c), At st.fs c (.delivered d) → d.1.outcome = some .undeliverable →
      ∃ tr₁ s tr₂ a p, tr = tr₁ ++ s :: tr₂ ∧ Exec (Step cfg) st₀ tr₁ a ∧ At a.fs c p ∧
        PermanentCause cfg.schedule p s.1) ∧
    ∀ e result at_, st.awaiting = some e → IsOutage result → Agreed result →
      (∀ err, result = .error err → cfg.schedule.Representable at_ e.attempts err.retryAfter) →
      cfg.schedule.budgetExhausted at_ e.attempts e.firstAttemptAt = false →
      (∃ rest st₁, Step cfg st (.finished e result (at_ :: rest)) st₁) ∧
        ∀ rest st₁, Step cfg st (.finished e result (at_ :: rest)) st₁ →
          ∃ m ho o, At st.fs e.clipId (.inflight m ⟨e, rfl, ho⟩) ∧
            At st₁.fs e.clipId (.pending m o) := by
  exact ⟨fun c d hd hout => exists_cause h₀ h hev hd hout,
    fun e result at_ haw hout ha hrep hb => (h₀.inv.exec h).back_to_pending haw hout ha hrep hb⟩

/-- A server that does not implement the method any more. -/
def notImplemented : HttpResponse := ⟨501, .absent, none, [], none, "", .error ""⟩

/-- The network fails a first attempt at the instant `epoch`. -/
theorem undeliverable_only_for_cause_uploading :
    ∃ rest st₁, Step Config.plain Station.uploading (.finished
      (startAttempt Station.firstEntry Station.epoch) (.error (.network "" ""))
      (Station.epoch :: rest)) st₁ := by
  have hagreed : ∀ x ∈ Station.firstTrace, x.1.Agreed Config.plain.schedule := by
    simp [Station.firstTrace, Event.Agreed]
  have hrep : Config.plain.schedule.Representable Station.epoch
      (startAttempt Station.firstEntry Station.epoch).attempts none :=
    ⟨10000000000, .ofSecs 10 ⟨by decide, by decide⟩, by decide +kernel, rfl⟩
  refine ((undeliverable_only_for_cause Station.blank_initial Station.exec_uploading hagreed).2
    _ _ _ rfl (Or.inl ⟨"", "", rfl⟩) ?_ ?_ rfl).1
  · intro _ _ _ _ h
    cases h
  · rintro err ⟨⟩
    exact hrep

/-- A server that answers 501 to a first attempt costs the clip its media. -/
theorem undeliverable_on_not_implemented :
    ∃ tr st₁, Exec (Step Config.plain) Station.blank (Station.firstTrace ++ tr) st₁ ∧
      (∃ rest, tr = [(.finished (startAttempt Station.firstEntry Station.epoch)
        (readAndClassify notImplemented Station.epoch "") (Station.epoch :: rest), st₁)]) ∧
      Config.plain.schedule.budgetExhausted Station.epoch
        (startAttempt Station.firstEntry Station.epoch).attempts
        (startAttempt Station.firstEntry Station.epoch).firstAttemptAt = false ∧
      st₁.fs.get (.queue .inflight "c1" .mp4) = none ∧
      st₁.fs.get (.queue .pending "c1" .mp4) = none ∧
      ∃ e, st₁.fs.get (.queue .delivered "c1" .json) = some (.sidecar e) ∧
        e.outcome = some .undeliverable := by
  have hterm : classifyUploadError (.http "" 501 "" none) = .terminal := rfl
  have hfin : FinishRun Config.plain.schedule Station.uploading.fs
      (startAttempt Station.firstEntry Station.epoch) Station.epoch
      (readAndClassify notImplemented Station.epoch "") _ :=
    .terminal hterm nofun
  obtain ⟨rest, hs⟩ := Step.exists_finish rfl hfin
  obtain ⟨m, ho, hat⟩ := Station.uploading_inv.awaiting _ rfl
  have hd := hat.movedDelivered
    (e := ⟨undeliverableRecord (startAttempt Station.firstEntry Station.epoch) Station.epoch
      "http_status" (some 501) (ClientError.http "" 501 "" none).display, rfl, rfl⟩)
  exact ⟨_, _, Station.exec_uploading.append (.snoc .nil hs), ⟨rest, rfl⟩, rfl,
    hd.media (d := .inflight) (by simp), hd.media (d := .pending) (by simp), _,
    hd.sidecar (d := .delivered) (by simp), rfl⟩

end Perchstation
