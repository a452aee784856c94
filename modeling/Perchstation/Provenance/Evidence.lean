import Mathlib.Order.CompletePartialOrder
import Perchstation.Delivery.Classify
import Perchstation.Delivery.Runner
import Perchstation.Lib.Evidence

/-!
# Evidence — what the records and the uploads of a station go back to

Every request is written down with the files as they were and with its answer.  A record is `Sourced`
if perchpub has said what it says of the upload and of the classification; footage is `BroughtIn` if an
enqueue brought it in under the clip's name.

`covered` is the discipline of the tasks other than the capture: a record is written only if it is
sourced, moves stay with their clip, and requests go to the configured authority.
-/

namespace Perchstation

open Interleaving Resumption

/-- One request, the files it found and its answer. -/
structure Deed where
  fs : Fs
  req : Req
  reply : Rep req

/-- A failing call.  A file being written may be left torn, but no record appears that was not being
written. -/
def Torn : Env Req Rep Fs := fun fs r v t =>
  Faulty fs r v t ∧ ∀ p e, t.get p = some (.sidecar e) →
    fs.get p = some (.sidecar e) ∨ r = .write p (.sidecar e) ∨ ∃ src, r = .copy src p

/-- The answers of the file system, the clock and the servers, on record. -/
def Witnessed : Env Req Rep (Fs × List Deed) := fun s r v t =>
  (Nominal s.1 r v t.1 ∨ Torn s.1 r v t.1) ∧ t.2 = s.2 ++ [⟨s.1, r, v⟩]

def onRecord (deeds : List Deed) : Set Deed := {x | x ∈ deeds}

/-- What is on record in a state. -/
def seen (s : Fs × List Deed) : Set Deed := onRecord s.2

/-- The extensions of records. -/
def Ext.IsRecord : Ext → Prop
  | .json | .jsonTmp => True
  | .mp4 | .mp4Tmp => False

section Sources

variable (client : PerchpubClient) (showUuid : Uuid → String)

/-- Perchpub has answered an upload of the clip with a 2xx. -/
def Answered (K : Set Deed) (c : ClipId) (response : HttpResponse) : Prop :=
  isSuccess response.status = true ∧ ∃ fs url, client.allowed "/api/v1/upload/" = .ok url ∧
    (⟨fs, .post url.text (.media .inflight c) (c ++ Ext.mp4.suffix), .ok response⟩ : Deed) ∈ K

/-- Perchpub has answered a poll of the task with a 2xx. -/
def Polled (K : Set Deed) (id : Uuid) (response : HttpResponse) : Prop :=
  isSuccess response.status = true ∧ ∃ fs url,
    client.allowed ("/api/v1/classify-task/" ++ showUuid id) = .ok url ∧
    (⟨fs, .getUrl url.text, .ok response⟩ : Deed) ∈ K

/-- What the record says of its upload and its classification, perchpub has said. -/
structure Sourced (K : Set Deed) (e : ClipQueueEntry) : Prop where
  accepted : e.outcome = some .delivered → ∃ response, Answered client K e.clipId response
  task : ∀ id, e.classifyTaskId = some id → ∃ response task,
    Answered client K e.clipId response ∧ response.task = .ok task ∧ task.id = id
  status : ∀ s, e.lastClassifyStatus = some s → s = .unknown ∨
    (∃ response task, Answered client K e.clipId response ∧ response.task = .ok task ∧
      task.status = s) ∨
    ∃ id response task, e.classifyTaskId = some id ∧ Polled client showUuid K id response ∧
      response.task = .ok task ∧ task.status = s

end Sources

/-- An enqueue has brought the footage in under the clip's name. -/
def BroughtIn (K : Set Deed) (c : ClipId) (b : Blob) : Prop :=
  ∃ fs name, fs.get (.source name) = some b ∧
    ((⟨fs, .rename (.source name) (.media .pending c), .ok ()⟩ : Deed) ∈ K ∨
      (⟨fs, .copy (.source name) (.queue .pending c .mp4Tmp), .ok ()⟩ : Deed) ∈ K)

variable {client : PerchpubClient} {showUuid : Uuid → String} {K K' : Set Deed} {c : ClipId} {b : Blob}
  {e e' : ClipQueueEntry} {response : HttpResponse}

theorem Answered.mono (h : Answered client K c response) (hK : K ≤ K') :
    Answered client K' c response := by
  obtain ⟨hs, fs, url, hurl, hmem⟩ := h
  exact ⟨hs, fs, url, hurl, hK hmem⟩

theorem Polled.mono {id : Uuid} (h : Polled client showUuid K id response) (hK : K ≤ K') :
    Polled client showUuid K' id response := by
  obtain ⟨hs, fs, url, hurl, hmem⟩ := h
  exact ⟨hs, fs, url, hurl, hK hmem⟩

theorem BroughtIn.mono (h : BroughtIn K c b) (hK : K ≤ K') : BroughtIn K' c b := by
  obtain ⟨fs, name, hb, hmem⟩ := h
  exact ⟨fs, name, hb, hmem.imp (fun h => hK h) fun h => hK h⟩

namespace Sourced

theorem mono (h : Sourced client showUuid K e) (hK : K ≤ K') : Sourced client showUuid K' e where
  accepted hout := by
    obtain ⟨response, hr⟩ := h.accepted hout
    exact ⟨response, hr.mono hK⟩
  task id hid := by
    obtain ⟨response, task, hr, htask⟩ := h.task id hid
    exact ⟨response, task, hr.mono hK, htask⟩
  status s hs := by
    rcases h.status s hs with hu | ⟨response, task, hr, htask⟩ | ⟨id, response, task, hid, hr, htask⟩
    · exact Or.inl hu
    · exact Or.inr (Or.inl ⟨response, task, hr.mono hK, htask⟩)
    · exact Or.inr (Or.inr ⟨id, response, task, hid, hr.mono hK, htask⟩)

/-- A record with the same clip, upload and classification. -/
theorem congr (h : Sourced client showUuid K e) (hid : e'.clipId = e.clipId)
    (hout : e'.outcome = some .delivered → e.outcome = some .delivered)
    (htask : e'.classifyTaskId = e.classifyTaskId)
    (hstatus : e'.lastClassifyStatus = e.lastClassifyStatus) : Sourced client showUuid K e' where
  accepted := by
    intro h'
    rw [hid]
    exact h.accepted (hout h')
  task := by
    intro id h'
    rw [hid]
    exact h.task id (htask ▸ h')
  status := by
    intro s h'
    rw [hid, htask]
    exact h.status s (hstatus ▸ h')

theorem new {capturedAt enqueuedAt : DateTime} {byteSize : UInt64} :
    Sourced client showUuid K (.new c capturedAt enqueuedAt byteSize) where
  accepted h := by cases h
  task _ h := by cases h
  status _ h := by cases h

theorem startAttempt {at_ : DateTime} (h : Sourced client showUuid K e) :
    Sourced client showUuid K (QueueStore.startAttempt e at_) :=
  h.congr rfl id rfl rfl

theorem requeued (h : Sourced client showUuid K e) :
    Sourced client showUuid K (QueueStore.requeued e) :=
  h.congr rfl id rfl rfl

theorem retryRecord {next : DateTime} {kind message : String} {status : Option UInt16}
    (h : Sourced client showUuid K e) :
    Sourced client showUuid K (retryRecord e next kind status message) :=
  h.congr rfl id rfl rfl

theorem undeliverableRecord {at_ : DateTime} {kind message : String} {status : Option UInt16}
    (h : Sourced client showUuid K e) :
    Sourced client showUuid K (undeliverableRecord e at_ kind status message) :=
  h.congr rfl (fun h => by cases h) rfl rfl

theorem lost {at_ : DateTime} (h : Sourced client showUuid K e) :
    Sourced client showUuid K { e with classifyLostAt := some at_ } :=
  h.congr rfl id rfl rfl

/-- The record of an upload whose answer decodes. -/
theorem deliveredRecord {at_ : DateTime} {task : ClassifyTaskPublic}
    (hr : Answered client K e.clipId response) (htask : response.task = .ok task) :
    Sourced client showUuid K (deliveredRecord e task at_) where
  accepted _ := ⟨response, hr⟩
  task _ h := ⟨response, task, hr, htask, Option.some.inj h⟩
  status _ h := Or.inr (Or.inl ⟨response, task, hr, htask, Option.some.inj h⟩)

/-- The record of an accepted upload whose answer does not decode. -/
theorem undecodableRecord {at_ : DateTime} (hr : Answered client K e.clipId response) :
    Sourced client showUuid K (undecodableRecord e at_) where
  accepted _ := ⟨response, hr⟩
  task _ h := by cases h
  status _ h := Or.inl (Option.some.inj h).symm

/-- The record after a poll of its task. -/
theorem polledRecord {id : Uuid} {task : ClassifyTaskPublic} (h : Sourced client showUuid K e)
    (hid : e.classifyTaskId = some id) (hr : Polled client showUuid K id response)
    (htask : response.task = .ok task) :
    Sourced client showUuid K { e with lastClassifyStatus := some task.status } where
  accepted hout := h.accepted hout
  task := h.task
  status _ hs := Or.inr (Or.inr ⟨id, response, task, hid, hr, htask, Option.some.inj hs⟩)

end Sourced

/-! ## The discipline -/

/-- A move within a clip: of its media, or of its record to the place of a record. -/
def StaysWithClip (src dst : Path) : Prop :=
  (∃ d d' c, src = .media d c ∧ dst = .media d' c) ∨
    ∃ d d' c x, x.IsRecord ∧ src = .queue d c x ∧ dst = .queue d' c .json

/-- What a request needs to be covered. -/
def Covered (client : PerchpubClient) (showUuid : Uuid → String) : Req → Set Deed → Prop
  | .write p (.sidecar e), K =>
      (∃ d, p = .queue d e.clipId .jsonTmp) ∧ Sourced client showUuid K e
  | .write _ (.bytes _), _ => False
  | .rename src dst, _ => StaysWithClip src dst
  | .copy _ _, _ => False
  | .removeFile p, _ => ∀ d c, p ≠ .queue d c .mp4Tmp
  | .post url file name, _ => ∃ u c, client.allowed "/api/v1/upload/" = .ok u ∧ url = u.text ∧
      file = .media .inflight c ∧ name = c ++ Ext.mp4.suffix
  | .getUrl url, _ => ∃ path u, client.allowed path = .ok u ∧ url = u.text
  | _, _ => True

/-- What an answer tells of a record that was read. -/
def Tells (client : PerchpubClient) (showUuid : Uuid → String) : (r : Req) → Rep r → Set Deed → Prop
  | .read (.queue _ c x), .ok (.sidecar e), K =>
      x.IsRecord → e.clipId = c ∧ Sourced client showUuid K e
  | _, _, _ => True

/-- The discipline of every task but the capture. -/
def covered (client : PerchpubClient) (showUuid : Uuid → String) :
    Discipline Req Rep (Set Deed) where
  needs := Covered client showUuid
  shows r v K := (∃ fs, (⟨fs, r, v⟩ : Deed) ∈ K) ∧ Tells client showUuid r v K
  needs_mono := by
    intro r K K' hK h
    cases r with
    | write p b =>
      cases b with
      | sidecar e => exact ⟨h.1, h.2.mono hK⟩
      | bytes data => exact h
    | _ => exact h

end Perchstation
