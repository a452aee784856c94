import Perchstation.Provenance.Evidence
import Perchstation.Queue.ScanRules

/-!
# Operations — every operation of the queue, the runner and the poller is covered

One lemma for each function: started with sourced records it asks only what it has evidence for, and
the records it returns are sourced.
-/

namespace Perchstation

open Interleaving Resumption QueueStore

namespace Provenance

variable {client : PerchpubClient} {showUuid : Uuid → String} {K : Set Deed} {e : ClipQueueEntry}
  {p : Path} {at_ : DateTime} {schedule : BackoffSchedule} {c : ClipId}

/-- A task that is covered, with what its result shows. -/
abbrev Ok {α : Type} (client : PerchpubClient) (showUuid : Uuid → String)
    (post : α → Set Deed → Prop) (q : Act α) (K : Set Deed) : Prop :=
  Backed (covered client showUuid) post q K

/-- Nothing is shown by the result. -/
abbrev Any {α : Type} : α → Set Deed → Prop := fun _ _ => True

/-- The record returned, if there is one, is sourced. -/
def Record (client : PerchpubClient) (showUuid : Uuid → String) {ε : Type} :
    Except ε ClipQueueEntry → Set Deed → Prop :=
  fun r K => ∀ e, r = .ok e → Sourced client showUuid K e

theorem path_of_hasExt {x : Ext} (h : p.hasExt x = true) : ∃ d c, p = .queue d c x := by
  cases p with
  | queue d c y =>
    obtain rfl : y = x := by simpa [Path.hasExt] using h
    exact ⟨d, c, rfl⟩
  | _ => cases h

/-- A request after which the program is at its end, or goes on whatever the answer. -/
theorem ask_then {α : Type} {r : Req} {f : Rep r → Act α} {post : α → Set Deed → Prop}
    (hr : Covered client showUuid r K)
    (hf : ∀ v K', K ≤ K' → Ok client showUuid post (f v) K') :
    Ok client showUuid post (Prog.request r >>= f) K :=
  backed_request hr fun v K' hK _ => hf v K' hK

/-! ## The store -/

theorem ok_removeIfExists (h : ∀ d c, p ≠ .queue d c .mp4Tmp) :
    Ok client showUuid Any (removeIfExists p) K := by
  refine ask_then h fun v K' _ => ?_
  rcases v with (_ | _ | _) | _ <;> exact trivial

theorem ok_removeQueued {d : Dir} {x : Ext} (hx : x ≠ .mp4Tmp) :
    Ok client showUuid Any (removeIfExists (.queue d c x)) K := by
  refine ok_removeIfExists ?_
  rintro d' c' ⟨⟩
  exact hx rfl

theorem ok_writeSidecarAtomic {d : Dir} (he : Sourced client showUuid K e) :
    Ok client showUuid Any (writeSidecarAtomic (.sidecar d e.clipId) e) K := by
  refine ask_then ⟨⟨d, rfl⟩, he⟩ fun v K' _ => ?_
  rcases v with err | _
  · exact trivial
  · refine ask_then (Or.inr ⟨d, d, e.clipId, .jsonTmp, trivial, rfl, rfl⟩) fun v K' _ => ?_
    rcases v with err | _ <;> exact trivial

theorem ok_readSidecar (hp : p.hasExt .json = true) :
    Ok client showUuid (Record client showUuid) (readSidecar p) K := by
  obtain ⟨d, c, rfl⟩ := path_of_hasExt hp
  refine backed_request trivial fun v K' _ hv => ?_
  rcases v with err | b
  · exact fun _ h => by cases h
  · cases b with
    | bytes data => exact fun _ h => by cases h
    | sidecar entry =>
      intro e' he'
      obtain rfl := Except.ok.inj he'
      exact (hv.2 trivial).2

theorem ok_quarantineCorrupt (hp : p.hasExt .json = true) :
    Ok client showUuid Any (quarantineCorrupt p) K := by
  obtain ⟨d, c, rfl⟩ := path_of_hasExt hp
  refine ask_then trivial fun v K' _ => ?_
  rcases v with err | _
  · exact trivial
  · refine ask_then (Or.inr ⟨d, .corrupt, c, .json, trivial, rfl, rfl⟩) fun v K' _ => ?_
    rcases v with err | _
    · exact trivial
    · refine ask_then trivial fun v K' _ => ?_
      cases v with
      | false => exact trivial
      | true => exact ask_then (Or.inl ⟨d, .corrupt, c, rfl, rfl⟩) fun _ _ _ => trivial

theorem ok_scanPending {paths : List Path} (hp : ∀ q ∈ paths, q.hasExt .json = true) :
    Ok client showUuid (fun r K => ∀ e, r = .ok (some e) → Sourced client showUuid K e)
      (scanPending at_ paths) K := by
  induction paths generalizing K with
  | nil => exact fun _ h => by cases h
  | cons q rest ih =>
    have hq := hp q List.mem_cons_self
    have hrest := fun {K : Set Deed} =>
      ih (K := K) fun q hq => hp q (List.mem_cons_of_mem _ hq)
    refine (ok_readSidecar hq).bind fun r K' _ hr => ?_
    rcases r with err | entry
    · cases err with
      | deserialise => exact (ok_quarantineCorrupt hq).bind fun _ K'' _ _ => hrest
      | _ => exact hrest
    · have hentry : ∀ e, Except.ok (ε := QueueError) (some entry) = .ok (some e) →
          Sourced client showUuid K' e := by
        intro e he
        obtain rfl := Option.some.inj (Except.ok.inj he)
        exact hr entry rfl
      dsimp only
      split
      · split_ifs
        · exact hrest
        · exact hentry
      · exact hentry

theorem ok_pickOldestPending :
    Ok client showUuid (fun r K => ∀ e, r = .ok (some e) → Sourced client showUuid K e)
      (pickOldestPending at_) K := by
  refine ask_then trivial fun v K' _ => ?_
  rcases v with err | paths
  · exact fun _ h => by cases h
  · exact ok_scanPending fun q hq => (List.mem_filter.mp (mem_sortPaths.mp hq)).2

theorem ok_quarantineOrphan : Ok client showUuid Any (quarantineOrphan c) K := by
  refine (ok_removeQueued (by simp)).bind fun r K' _ _ => ?_
  rcases r with err | _
  · exact trivial
  · exact ok_removeQueued (by simp)

/-- A move of media between directories. -/
theorem covered_moveMedia {d d' : Dir} : Covered client showUuid
    (.rename (.media d c) (.media d' c)) K := Or.inl ⟨d, d', c, rfl, rfl⟩

theorem ok_transitionInflight (he : Sourced client showUuid K e) :
    Ok client showUuid (Record client showUuid) (transitionInflight e at_) K := by
  refine ask_then covered_moveMedia fun v K' hK => ?_
  have hstart : Sourced client showUuid K' (startAttempt e at_) := (he.mono hK).startAttempt
  rcases v with err | _
  · cases err <;> exact fun _ h => by cases h
  · refine (ok_writeSidecarAtomic hstart).bind fun r K'' hK' _ => ?_
    rcases r with err | _
    · exact ask_then covered_moveMedia fun _ _ _ => fun _ h => by cases h
    · refine (ok_removeQueued (by simp)).bind fun r K₃ hK'' _ => ?_
      rcases r with err | _
      · exact fun _ h => by cases h
      · intro e' he'
        obtain rfl := Except.ok.inj he'
        exact hstart.mono (hK'.trans hK'')

theorem ok_transitionBackToPending (he : Sourced client showUuid K e) :
    Ok client showUuid Any (transitionBackToPending e) K := by
  have hreturn : Ok client showUuid Any
      (returnMedia (.media .inflight e.clipId) (.media .pending e.clipId)) K := by
    refine ask_then trivial fun v K' _ => ?_
    cases v with
    | false => exact trivial
    | true =>
      refine ask_then covered_moveMedia fun v K'' _ => ?_
      rcases v with err | _ <;> exact trivial
  refine hreturn.bind fun r K' hK _ => ?_
  rcases r with err | _
  · exact trivial
  · refine (ok_writeSidecarAtomic (he.mono hK)).bind fun r K'' _ _ => ?_
    rcases r with err | _
    · exact trivial
    · exact ok_removeQueued (by simp)

theorem ok_transitionDelivered (he : Sourced client showUuid K e) :
    Ok client showUuid Any (transitionDelivered e) K := by
  refine (ok_writeSidecarAtomic he).bind fun r K' _ _ => ?_
  rcases r with err | _
  · exact trivial
  · refine (ok_removeQueued (by simp)).bind fun r K'' _ _ => ?_
    rcases r with err | _
    · exact trivial
    · refine ask_then (Or.inr ⟨_, _, e.clipId, .json, trivial, rfl, rfl⟩) fun v K₃ _ => ?_
      rcases v with err | _ <;> exact trivial

/-! ## Boot reconciliation -/

theorem ok_sweepLoop {paths : List Path} : Ok client showUuid Any (sweepLoop paths) K := by
  induction paths generalizing K with
  | nil => exact trivial
  | cons q rest ih =>
    rw [sweepLoop]
    split_ifs with hq
    · obtain ⟨d, c, rfl⟩ := path_of_hasExt hq
      refine ask_then trivial fun v K' _ => ?_
      cases v with
      | true => exact ih
      | false =>
        refine (ok_removeQueued (by simp)).bind fun r K'' _ _ => ?_
        rcases r with err | _
        · exact trivial
        · exact ih
    · exact ih

theorem ok_sweepOrphanMedia {d : Dir} : Ok client showUuid Any (sweepOrphanMedia d) K := by
  refine ask_then trivial fun v K' _ => ?_
  rcases v with err | paths
  · exact trivial
  · exact ok_sweepLoop

theorem ok_reconcileLoop {paths : List Path} (hp : ∀ q ∈ paths, q.hasExt .json = true) :
    Ok client showUuid Any (reconcileLoop paths) K := by
  induction paths generalizing K with
  | nil => exact trivial
  | cons q rest ih =>
    have hrest := fun {K : Set Deed} =>
      ih (K := K) fun q hq => hp q (List.mem_cons_of_mem _ hq)
    refine (ok_readSidecar (hp q List.mem_cons_self)).bind fun r K' _ hr => ?_
    rcases r with err | entry
    · exact trivial
    · have hentry := hr entry rfl
      dsimp only
      split_ifs
      · refine (ok_transitionDelivered hentry).bind fun r K'' _ _ => ?_
        rcases r with err | _
        · exact trivial
        · exact hrest
      · refine (ok_transitionBackToPending hentry.requeued).bind fun r K'' _ _ => ?_
        rcases r with err | _
        · exact trivial
        · refine hrest.bind fun r K₃ _ _ => ?_
          rcases r with err | _ <;> exact trivial

theorem ok_reconcileInflight : Ok client showUuid Any reconcileInflight K := by
  refine ok_sweepOrphanMedia.bind fun r K' _ _ => ?_
  rcases r with err | _
  · exact trivial
  · refine ok_sweepOrphanMedia.bind fun r K'' _ _ => ?_
    rcases r with err | _
    · exact trivial
    · refine ask_then trivial fun v K₃ _ => ?_
      rcases v with err | paths
      · exact trivial
      · exact ok_reconcileLoop fun q hq => (List.mem_filter.mp (mem_sortPaths.mp hq)).2

/-! ## One attempt -/

/-- An upload that is to start has a sourced record. -/
theorem ok_startUpload (he : Sourced client showUuid K e) :
    Ok client showUuid (fun r K => ∀ e, r = .ok (.upload e) → Sourced client showUuid K e)
      (startUpload e) K := by
  have hcheck : Ok client showUuid Any (preflightCheck (.media .inflight e.clipId)) K := by
    refine ask_then trivial fun v K' _ => ?_
    rcases v with err | len
    · exact trivial
    · dsimp only
      split_ifs <;> exact trivial
  refine hcheck.bind fun check K' hK _ => ?_
  have hK' := he.mono hK
  cases check with
  | none =>
    intro e' he'
    cases he'
    exact hK'
  | some reason =>
    refine ask_then trivial fun at_ K'' hK => ?_
    refine (ok_transitionDelivered (hK'.mono hK).undeliverableRecord).bind fun r K₃ _ _ => ?_
    rcases r with err | _ <;> exact fun _ h => by cases h

theorem ok_tryOnceHead :
    Ok client showUuid (fun r K => ∀ e, r = .ok (.upload e) → Sourced client showUuid K e)
      tryOnceHead K := by
  refine ask_then trivial fun at_ K' _ => ?_
  refine ok_pickOldestPending.bind fun r K'' _ hr => ?_
  rcases r with err | _ | entry
  · exact fun _ h => by cases h
  · exact fun _ h => by cases h
  · refine (ok_transitionInflight (hr entry rfl)).bind fun r K₃ _ hr => ?_
    rcases r with err | entry
    · cases err with
      | missingMedia s =>
        refine ok_quarantineOrphan.bind fun r K₄ _ _ => ?_
        rcases r with err | _ <;> exact fun _ h => by cases h
      | _ => exact fun _ h => by cases h
    · exact ok_startUpload (hr entry rfl)

/-- What an upload's result shows. -/
def Shown (client : PerchpubClient) (c : ClipId) :
    Except ClientError ClassifyTaskPublic → Set Deed → Prop
  | .ok task, K => ∃ response, Answered client K c response ∧ response.task = .ok task
  | .error (.undecodableSuccess _ _), K => ∃ response, Answered client K c response
  | .error _, _ => True

/-- What a response that is read shows. -/
theorem shown_readAndClassify {response : HttpResponse} {url : String}
    (h : isSuccess response.status = true → Answered client K c response) :
    Shown client c (readAndClassify response at_ url) K := by
  unfold readAndClassify
  cases hcap : readCapped response url with
  | error err =>
    have hbody := readCapped_error response url err hcap
    cases err <;> first | exact trivial | exact hbody.elim
  | ok _ =>
    show Shown client c (classifyResponse response _ url) K
    unfold classifyResponse
    split_ifs with hs
    · cases htask : response.task with
      | ok task => exact ⟨response, h hs, htask⟩
      | error message => exact ⟨response, h hs⟩
    · exact trivial

/-- A URL that is refused is no answer. -/
theorem shown_of_not_allowed {path : String} {err : ClientError}
    (h : client.allowed path = .error err) : Shown client c (.error err) K := by
  unfold PerchpubClient.allowed PerchpubClient.endpoint at h
  cases hparse : client.parse (PerchpubClient.trimEndSlashes client.baseUrl.text ++ path) with
  | error message =>
    simp only [hparse] at h
    obtain rfl := Except.error.inj h
    exact trivial
  | ok url =>
    simp only [hparse, PerchpubClient.checkAuthority] at h
    by_cases hauth : url.authority = client.baseUrl.authority
    · simp [hauth] at h
    · simp only [hauth, if_false] at h
      obtain rfl := Except.error.inj h
      exact trivial

theorem ok_uploadClip :
    Ok client showUuid (Shown client c) (client.uploadClip (.media .inflight c) c) K := by
  unfold PerchpubClient.uploadClip
  cases hurl : client.allowed "/api/v1/upload/" with
  | error err => exact shown_of_not_allowed hurl
  | ok url =>
    refine ask_then trivial fun v K' _ => ?_
    rcases v with err | _
    · exact trivial
    · refine backed_request ⟨url, c, hurl, rfl, rfl, rfl⟩ fun v K'' _ hv => ?_
      rcases v with message | response
      · exact trivial
      · obtain ⟨⟨fs, hmem⟩, -⟩ := hv
        refine ask_then trivial fun at_ K₃ hK => ?_
        exact shown_readAndClassify fun hs => ⟨hs, fs, url, hurl, hK hmem⟩

theorem ok_tryOnceFinish {result : Except ClientError ClassifyTaskPublic}
    (he : Sourced client showUuid K e) (hr : Shown client e.clipId result K) :
    Ok client showUuid Any (tryOnceFinish schedule e result) K := by
  have hgiveUp : ∀ {K'} kind status message, Sourced client showUuid K' e →
      Ok client showUuid Any (markUndeliverable e kind status message) K' := by
    intro K' kind status message he
    exact ask_then trivial fun at_ K'' hK => ok_transitionDelivered (he.mono hK).undeliverableRecord
  rcases result with err | task
  · by_cases hund : ∃ u message, err = .undecodableSuccess u message
    · obtain ⟨u, message, rfl⟩ := hund
      obtain ⟨response, hresponse⟩ := hr
      exact ask_then trivial fun at_ K' hK =>
        ok_transitionDelivered (.undecodableRecord (hresponse.mono hK))
    · have hne : ∀ u message, err ≠ .undecodableSuccess u message := fun u message h =>
        hund ⟨u, message, h⟩
      show Ok client showUuid Any (handleUploadError schedule e err) K
      unfold handleUploadError
      split
      · exact absurd rfl (hne _ _)
      split
      · refine ask_then trivial fun at_ K' hK => ?_
        cases schedule.schedule at_ e.attempts e.firstAttemptAt err.retryAfter with
        | none => exact ⟨trivial, fun v _ _ _ => v.elim⟩
        | some next =>
          cases next with
          | retry next => exact ok_transitionBackToPending (he.mono hK).retryRecord
          | exhausted => exact hgiveUp _ _ _ (he.mono hK)
      · exact hgiveUp _ _ _ he
  · obtain ⟨response, hresponse, htask⟩ := hr
    exact ask_then trivial fun at_ K' hK =>
      ok_transitionDelivered (.deliveredRecord (hresponse.mono hK) htask)

theorem ok_tryOnce : Ok client showUuid Any (tryOnce client schedule) K := by
  refine ok_tryOnceHead.bind fun r K' _ hr => ?_
  rcases r with err | head
  · exact trivial
  · cases head with
    | idle => exact trivial
    | progressed => exact trivial
    | upload entry =>
      refine ok_uploadClip.bind fun result K'' hK hshown => ?_
      refine (ok_tryOnceFinish ((hr entry rfl).mono hK) hshown).bind fun r K₃ _ _ => ?_
      rcases r with err | _ <;> exact trivial

/-! ## Admission -/

theorem ok_readSidecarsLoop {paths : List Path} :
    Ok client showUuid Any (readSidecarsLoop paths) K := by
  induction paths generalizing K with
  | nil => exact trivial
  | cons q rest ih =>
    rw [readSidecarsLoop]
    split_ifs with hq
    · refine (ok_readSidecar hq).bind fun r K' _ _ => ?_
      rcases r with err | entry
      · cases err with
        | io path source => cases source <;> first | exact ih | exact trivial
        | _ => exact trivial
      · refine ih.bind fun r K'' _ _ => ?_
        rcases r with err | out <;> exact trivial
    · exact ih

theorem ok_readSidecars {d : Dir} : Ok client showUuid Any (readSidecars d) K := by
  refine ask_then trivial fun v K' _ => ?_
  rcases v with err | paths
  · exact trivial
  · exact ok_readSidecarsLoop

theorem ok_takeCensus : Ok client showUuid Any takeCensus K := by
  refine ok_readSidecars.bind fun r K' _ _ => ?_
  rcases r with err | inflight
  · exact trivial
  · refine ok_readSidecars.bind fun r K'' _ _ => ?_
    rcases r with err | delivered
    · exact trivial
    · refine ok_readSidecars.bind fun r K₃ _ _ => ?_
      rcases r with err | pending <;> exact trivial

theorem ok_evict {candidate : EvictableEntry} : Ok client showUuid Any (evict candidate) K := by
  refine (ok_removeQueued (by simp)).bind fun r K' _ _ => ?_
  rcases r with err | _
  · exact trivial
  · exact ok_removeQueued (by simp)

theorem ok_evictLoop {policy : QueuePolicy} {incoming bytes : UInt64} {queueFull : InboxError}
    {clips : UInt32} {evictions : List EvictionRecord} {candidates : List EvictableEntry} :
    Ok client showUuid Any
      (evictLoop policy incoming queueFull clips bytes evictions candidates) K := by
  induction candidates generalizing K clips bytes evictions with
  | nil =>
    rw [evictLoop]
    split_ifs <;> exact trivial
  | cons candidate rest ih =>
    rw [evictLoop]
    split_ifs
    · refine ok_evict.bind fun r K' _ _ => ?_
      rcases r with err | _
      · exact trivial
      · exact ih
    · exact trivial

theorem ok_applyPolicy {profile : Profile} {policy : QueuePolicy} {incoming : UInt64} :
    Ok client showUuid Any (applyPolicy profile policy incoming) K := by
  refine ok_takeCensus.bind fun r K' _ _ => ?_
  rcases r with err | census
  · exact trivial
  · dsimp only
    cases censusTotals profile census with
    | none => exact ⟨trivial, fun v _ _ _ => v.elim⟩
    | some totals =>
      show Ok client showUuid Any (enforce policy incoming census totals.1 totals.2) K'
      unfold enforce
      dsimp only
      split
      · split
        · exact trivial
        · split
          · exact trivial
          · exact ok_evictLoop
      · exact trivial

/-! ## The poller -/

theorem ok_pruneLoop {before : DateTime} {paths : List Path} :
    Ok client showUuid Any (pruneLoop before paths) K := by
  induction paths generalizing K with
  | nil => exact trivial
  | cons q rest ih =>
    rw [pruneLoop]
    split_ifs with hq
    · refine (ok_readSidecar hq).bind fun r K' _ _ => ?_
      obtain ⟨d, c, rfl⟩ := path_of_hasExt hq
      rcases r with err | entry
      · exact ih
      · dsimp only
        split_ifs
        · refine (ok_removeQueued (by simp)).bind fun r K'' _ _ => ?_
          rcases r with err | _
          · exact ih
          · refine ask_then ?_ fun _ K₃ _ => ih.bind fun _ _ _ _ => trivial
            rintro d' c' ⟨⟩
        · exact ih
    · exact ih

theorem ok_pruneRound {retentionHours : ℤ} {known : Finset ClipId} :
    Ok client showUuid Any (ClassifyPoller.pruneRound retentionHours known) K := by
  refine ask_then trivial fun at_ K' _ => ?_
  cases ClassifyPoller.pruneCutoff retentionHours at_ with
  | none => exact ⟨trivial, fun v _ _ _ => v.elim⟩
  | some cutoff =>
    have hprune : Ok client showUuid Any (pruneDelivered cutoff) K' := by
      refine ask_then trivial fun v K'' _ => ?_
      rcases v with err | paths
      · exact trivial
      · exact ok_pruneLoop.bind fun _ _ _ _ => trivial
    refine hprune.bind fun r K'' _ _ => ?_
    rcases r with err | pruned <;> exact trivial

theorem ok_updateDeliveredSidecar (he : Sourced client showUuid K e) :
    Ok client showUuid Any (updateDeliveredSidecar e) K := ok_writeSidecarAtomic he

/-- The entries of a scan are sourced. -/
def Entries (client : PerchpubClient) (showUuid : Uuid → String) :
    Finset ClipId × Except PollerError (List ClipQueueEntry) → Set Deed → Prop :=
  fun r K => ∀ entries, r.2 = .ok entries → ∀ e ∈ entries, Sourced client showUuid K e

theorem ok_scanLoop {known : Finset ClipId} {paths : List Path} :
    Ok client showUuid (Entries client showUuid) (ClassifyPoller.scanLoop known paths) K := by
  induction paths generalizing K known with
  | nil =>
    intro entries h e he
    obtain rfl := Except.ok.inj h
    cases he
  | cons q rest ih =>
    rw [ClassifyPoller.scanLoop]
    split_ifs with hq hseen
    · exact ih
    · refine (ok_readSidecar hq).bind fun r K' _ hr => ?_
      rcases r with err | entry
      · cases err with
        | deserialise => exact (ok_quarantineCorrupt hq).bind fun _ K'' _ _ => ih
        | _ => exact ih
      · have hentry := hr entry rfl
        dsimp only
        split_ifs
        · have hbudget : Ok client showUuid Any
              (ClassifyPoller.classifyBudgetExhausted entry) K' := by
            unfold ClassifyPoller.classifyBudgetExhausted
            split
            · exact trivial
            · exact ask_then trivial fun _ _ _ => trivial
          refine hbudget.bind fun exhausted K'' hK _ => ?_
          have hK'' := hentry.mono hK
          cases exhausted with
          | true =>
            -- the entry is rewritten as lost, with what it was sourced from
            refine ask_then trivial fun at_ K₃ hK => ?_
            refine (ok_updateDeliveredSidecar (hK''.mono hK).lost).bind fun r K₄ _ _ => ?_
            rcases r with err | _
            · exact fun _ h => by cases h
            · exact ih
          | false =>
            -- the entry is handed on
            refine ih.bind fun ⟨known', found⟩ K₃ hK hfound => ?_
            rcases found with err | entries
            · exact fun _ h => by cases h
            · intro entries' h e' he'
              obtain rfl := Except.ok.inj h
              rcases List.mem_cons.mp he' with rfl | he'
              · exact hK''.mono hK
              · exact hfound entries rfl e' he'
        · exact ih
    · exact ih

theorem ok_getClassifyTask {id : Uuid} :
    Ok client showUuid (fun r K => ∀ task, r = .ok task → ∃ response,
        Polled client showUuid K id response ∧ response.task = .ok task)
      (client.getClassifyTask showUuid id) K := by
  unfold PerchpubClient.getClassifyTask
  cases hurl : client.allowed ("/api/v1/classify-task/" ++ showUuid id) with
  | error err => exact fun _ h => by cases h
  | ok url =>
    refine backed_request ⟨_, url, hurl, rfl⟩ fun v K' _ hv => ?_
    rcases v with message | response
    · exact fun _ h => by cases h
    · obtain ⟨⟨fs, hmem⟩, -⟩ := hv
      refine ask_then trivial fun at_ K'' hK => ?_
      intro task htask
      have hread : readAndClassify response at_ url.text = .ok task := htask
      unfold readAndClassify classifyResponse at hread
      split at hread
      · cases hread
      · split_ifs at hread with hs
        split at hread
        · rename_i htask'
          obtain rfl := Except.ok.inj hread
          exact ⟨response, ⟨hs, fs, url, hurl, hK hmem⟩, htask'⟩
        · cases hread

theorem ok_pollOne {known : Finset ClipId} (he : Sourced client showUuid K e) :
    Ok client showUuid Any (ClassifyPoller.pollOne client showUuid known e) K := by
  unfold ClassifyPoller.pollOne
  split
  · exact ⟨trivial, fun v _ _ _ => v.elim⟩
  · rename_i id hid
    refine ok_getClassifyTask.bind fun r K' hK hr => ?_
    rcases r with err | task
    · dsimp only
      cases classifyPollError err with
      | transient => exact trivial
      | terminal =>
        refine ask_then trivial fun at_ K'' hK' => ?_
        refine (ok_updateDeliveredSidecar (he.mono (hK.trans hK')).lost).bind fun r K₃ _ _ => ?_
        rcases r with err | _ <;> exact trivial
    · obtain ⟨response, hpolled, htask⟩ := hr task rfl
      refine (ok_updateDeliveredSidecar
        ((he.mono hK).polledRecord hid hpolled htask)).bind fun r K'' _ _ => ?_
      rcases r with err | _ <;> exact trivial

theorem ok_pollLoop {known : Finset ClipId} {entries : List ClipQueueEntry}
    (he : ∀ e ∈ entries, Sourced client showUuid K e) :
    Ok client showUuid Any (ClassifyPoller.pollLoop client showUuid known entries) K := by
  induction entries generalizing K known with
  | nil => exact trivial
  | cons entry rest ih =>
    refine (ok_pollOne (he entry List.mem_cons_self)).bind fun ⟨known', r⟩ K' hK _ => ?_
    rcases r with err | _
    · exact trivial
    · refine (ih fun e h => (he e (List.mem_cons_of_mem _ h)).mono hK).bind
        fun ⟨known'', r⟩ K'' _ _ => ?_
      rcases r with err | n <;> exact trivial

theorem ok_pollRound {known : Finset ClipId} :
    Ok client showUuid Any (ClassifyPoller.pollRound client showUuid known) K := by
  have hscan : Ok client showUuid (Entries client showUuid)
      (ClassifyPoller.scanNonTerminal known) K := by
    refine ask_then trivial fun v K' _ => ?_
    rcases v with err | paths
    · exact fun _ h => by cases h
    · exact ok_scanLoop
  refine hscan.bind fun ⟨known', r⟩ K' _ hr => ?_
  rcases r with err | entries
  · exact trivial
  · exact ok_pollLoop (hr entries rfl)

end Provenance

end Perchstation
