import Perchstation.Config
import Perchstation.Delivery.Requests
import Perchstation.Delivery.RunnerRules
import Perchstation.Lib.Heed
import Perchstation.Queue.Pick
import Perchstation.Station

/-!
# Progress — the delivery head never wedges

With uploads that succeed, every `try_once` that reports work takes a sidecar out of `pending/` for
good: it is delivered, put away as corrupt, or dropped for want of its media.  So at a fixed time the
iteration comes to a queue with nothing eligible left.
-/

namespace Perchstation

open Resumption QueueStore Interleaving

variable {fs t u : Fs} {at_ : DateTime} {c s : ClipId} {e : ClipQueueEntry} {m : Blob}
  {client : PerchpubClient} {schedule : BackoffSchedule} {clock : DateTime → Prop} {url : Url}

/-- The answers without faults where the server accepts every clip; `clock` are the readings there
may be. -/
def Delivering (clock : DateTime → Prop) : Env Req Rep Fs
  | fs, .now, v, t => clock v ∧ t = fs
  | fs, .post _ _ _, v, t => t = fs ∧ ∃ response : HttpResponse,
      v = .ok response ∧ isSuccess response.status = true ∧ response.Readable
  | fs, r, v, t => Nominal fs r v t

theorem nominal_of_delivering {r : Req} {v : Rep r} (h : Delivering clock fs r v t) :
    Nominal fs r v t := by
  cases r with
  | now => exact h.2
  | post => exact h.1
  | _ => exact h

theorem runs_of_delivering {α : Type} {p : Act α} {a : α}
    (h : Runs (Delivering clock) p fs a t) : Runs Nominal p fs a t :=
  Runs.map id (fun _ _ _ _ => nominal_of_delivering) h

/-- The upload has been accepted. -/
def Accepted (r : Except ClientError ClassifyTaskPublic) : Prop :=
  (∃ task, r = .ok task) ∨ ∃ url message, r = .error (.undecodableSuccess url message)

/-- An upload of a file that is there is accepted. -/
theorem accepted_of_delivering {p : Path} {r : Except ClientError ClassifyTaskPublic}
    (hurl : client.allowed "/api/v1/upload/" = .ok url) (hp : fs.get p = some m)
    (h : Runs (Delivering clock) (client.uploadClip p c) fs r t) : t = fs ∧ Accepted r := by
  unfold PerchpubClient.uploadClip at h
  rw [hurl] at h
  dsimp only at h
  rw [runs_bind] at h
  obtain ⟨v, w, hopen, h⟩ := h
  have hopen : w = fs ∧ v = .ok () := by simpa [Delivering, Nominal, hp] using hopen
  obtain ⟨rfl, rfl⟩ := hopen
  dsimp only at h
  rw [runs_bind] at h
  obtain ⟨v, w', hpost, h⟩ := h
  obtain ⟨rfl, response, rfl, hsuccess, hread⟩ := runs_post.mp hpost
  dsimp only at h
  rw [runs_bind] at h
  obtain ⟨at_, w, hnow, h⟩ := h
  obtain ⟨-, rfl⟩ := runs_now.mp hnow
  obtain ⟨rfl, rfl⟩ := h
  refine ⟨rfl, ?_⟩
  rcases readAndClassify_of_readable hsuccess hread with ⟨task, hok⟩ | ⟨message, herr⟩
  · exact Or.inl ⟨task, hok⟩
  · exact Or.inr ⟨_, message, herr⟩

/-- The record of an accepted upload closes the clip. -/
theorem finish_accepted {result : Except ClientError ClassifyTaskPublic} (h : Accepted result)
    (hfin : FinishRun schedule fs e at_ result t) :
    ∃ e', e'.clipId = e.clipId ∧ e'.outcome.isSome ∧ t = movedDelivered fs e' := by
  cases hfin with
  | accepted => exact ⟨_, deliveredRecord_clipId, rfl, rfl⟩
  | undecodable => exact ⟨_, undecodableRecord_clipId, rfl, rfl⟩
  | retried htransient hnext =>
    rcases h with ⟨task, heq⟩ | ⟨url, message, heq⟩
    · cases heq
    · cases heq
      cases htransient
  | exhausted htransient hbudget => exact ⟨_, undeliverableRecord_clipId, rfl, rfl⟩
  | terminal hterm hne => exact ⟨_, undeliverableRecord_clipId, rfl, rfl⟩

/-- What becomes of the clip that was picked. -/
inductive Handled (u t : Fs) (e : ClipQueueEntry) (at_ : DateTime) : Prop
  | orphaned : u.get (.queue .pending e.clipId .mp4) = none →
      t = (u.del (.queue .pending e.clipId .json)).del (.queue .pending e.clipId .mp4) →
      Handled u t e at_
  | delivered {m : Blob} {e' : ClipQueueEntry} : u.get (.queue .pending e.clipId .mp4) = some m →
      e'.clipId = e.clipId → e'.outcome.isSome →
      t = movedDelivered (movedInflight u m (startAttempt e at_)) e' → Handled u t e at_

/-- `try_once` finds nothing eligible, or handles the clip it picks. -/
theorem runs_tryOnce_delivering {r : Except QueueError Bool}
    (hurl : client.allowed "/api/v1/upload/" = .ok url)
    (h : Runs (Delivering clock) (tryOnce client schedule) fs r t) :
    ∃ at_, clock at_ ∧ ((r = .ok false ∧ PickedLeast fs t at_ none) ∨
      r = .ok true ∧ ∃ u e, PickedLeast fs u at_ (some e) ∧ Handled u t e at_) := by
  rw [tryOnce, runs_bind] at h
  obtain ⟨hd, w, hhead, h⟩ := h
  rw [tryOnceHead, runs_bind] at hhead
  obtain ⟨at_, w', hnow, hhead⟩ := hhead
  obtain ⟨hclock, rfl⟩ := runs_now.mp hnow
  refine ⟨at_, hclock, ?_⟩
  rw [runs_bind] at hhead
  obtain ⟨v, u, hpick, hhead⟩ := hhead
  obtain ⟨o, rfl, hleast⟩ := pickedLeast_of_runs (runs_of_delivering hpick)
  cases o with
  | none =>
    obtain ⟨rfl, rfl⟩ := hhead
    obtain ⟨rfl, rfl⟩ := h
    exact Or.inl ⟨rfl, hleast⟩
  | some e =>
    dsimp only at hhead
    rw [runs_bind] at hhead
    obtain ⟨v, w₁, hmove, hhead⟩ := hhead
    rcases runs_transitionInflight.mp (runs_of_delivering hmove) with
      ⟨hnone, rfl, rfl⟩ | ⟨m, hm, rfl, rfl⟩
    · -- the media is missing: the orphan is dropped
      -- the upload starts and is accepted
      dsimp only at hhead
      rw [runs_bind] at hhead
      obtain ⟨v, w₂, hdrop, hhead⟩ := hhead
      obtain ⟨rfl, rfl⟩ := runs_quarantineOrphan.mp (runs_of_delivering hdrop)
      obtain ⟨rfl, rfl⟩ := hhead
      obtain ⟨rfl, rfl⟩ := h
      exact Or.inr ⟨rfl, _, e, hleast, .orphaned hnone rfl⟩
    · refine Or.inr ?_
      rcases runs_startUpload get_movedInflight_media (runs_of_delivering hhead) with
        ⟨rfl, rfl⟩ | ⟨len, reason, at', -, -, rfl, rfl⟩
      · dsimp only at h
        rw [runs_bind] at h
        obtain ⟨result, w₂, hup, h⟩ := h
        obtain ⟨rfl, haccepted⟩ := accepted_of_delivering hurl get_movedInflight_media hup
        rw [runs_bind] at h
        obtain ⟨v, w₃, hfin, h⟩ := h
        have hfin := runs_of_delivering hfin
        rw [tryOnceFinish_eq, runs_bind] at hfin
        obtain ⟨at', w₄, hnow', hfin⟩ := hfin
        obtain rfl := runs_now.mp hnow'
        obtain ⟨rfl, hrun⟩ := runs_finishAt.mp hfin
        obtain ⟨e', hid, hout, rfl⟩ := finish_accepted haccepted hrun
        obtain ⟨rfl, rfl⟩ := h
        exact ⟨rfl, u, e, hleast, .delivered hm hid hout rfl⟩
      · -- the upload is refused unsent, and the clip delivered so
        obtain ⟨rfl, rfl⟩ := h
        have hid : (refusedRecord (startAttempt e at_) at' reason).clipId = e.clipId :=
          refusedRecord_clipId
        exact ⟨rfl, u, e, hleast, .delivered hm hid rfl rfl⟩

/-! ## What one `try_once` does to the clips -/

/-- The sidecars of `pending/` that decode bear their own names. -/
def PendingNamed (fs : Fs) : Prop :=
  ∀ c e, fs.get (.queue .pending c .json) = some (.sidecar e) → e.clipId = c

/-- The sidecars waiting in `pending/`. -/
def pendingSidecars (fs : Fs) : ℕ := (sidecarsIn fs .pending).card

/-- The clip is in `delivered/`, closed. -/
def InDelivered (fs : Fs) (c : ClipId) : Prop :=
  ∃ e, fs.get (.queue .delivered c .json) = some (.sidecar e) ∧ e.clipId = c ∧ e.outcome.isSome

/-- The clip is eligible and has its media. -/
def Deliverable (fs : Fs) (at_ : DateTime) (c : ClipId) : Prop :=
  (∃ e, Eligible fs at_ c e) ∧ (fs.get (.queue .pending c .mp4)).isSome

/-- A scan leaves the clips alone whose sidecars decode. -/
theorem OnlyCorrupt.holdings (h : OnlyCorrupt fs t)
    (he : fs.get (.queue .pending c .json) = some (.sidecar e)) : holdings t c = holdings fs c := by
  rcases h.files c with hkeep | ⟨⟨data, hd⟩, -⟩
  · exact hkeep
  · rw [he] at hd
    cases hd

/-- A scan leaves of the sidecars in `pending/` those that decode, and brings none. -/
theorem OnlyCorrupt.pending (h : OnlyCorrupt fs t)
    (hs : (t.get (.queue .pending s .json)).isSome) :
    t.get (.queue .pending s .json) = fs.get (.queue .pending s .json) := by
  rcases h.files s with hkeep | ⟨-, hmoved⟩
  · exact congrFun (congrFun hkeep .pending) .json
  · have hgone : t.get (.queue .pending s .json) = none := congrFun (congrFun hmoved .pending) .json
    rw [hgone] at hs
    cases hs

theorem OnlyCorrupt.delivered (h : OnlyCorrupt fs t) (x : Ext) :
    t.get (.queue .delivered s x) = fs.get (.queue .delivered s x) := by
  rcases h.files s with hkeep | ⟨-, hmoved⟩
  · exact congrFun (congrFun hkeep .delivered) x
  · exact congrFun (congrFun hmoved .delivered) x

/-- What one `try_once` does that handles the clip `c`. -/
structure Worked (fs t : Fs) (at_ : DateTime) (c : ClipId) : Prop where
  picked : ∃ e, Eligible fs at_ c e
  gone : t.get (.queue .pending c .json) = none
  closed : (fs.get (.queue .pending c .mp4)).isSome → InDelivered t c
  pending : ∀ s, (t.get (.queue .pending s .json)).isSome →
    t.get (.queue .pending s .json) = fs.get (.queue .pending s .json)
  kept : ∀ s, s ≠ c → Deliverable fs at_ s → Deliverable t at_ s
  delivered : ∀ s, InDelivered fs s → InDelivered t s

section Handled

variable (h : Handled u t e at_)

include h

/-- The other clips are as the scan has left them. -/
theorem Handled.other (hs : s ≠ e.clipId) : holdings t s = holdings u s := by
  cases h with
  | orphaned _ ht => rw [ht, holdings_quarantineOrphan, if_neg hs]
  | delivered _ hid _ ht =>
    rw [ht, holdings_movedDelivered, hid, if_neg hs, holdings_movedInflight, startAttempt_clipId,
      if_neg hs]

theorem Handled.gone : t.get (.queue .pending e.clipId .json) = none := by
  cases h with
  | orphaned _ ht =>
    have hfiles := @holdings_quarantineOrphan u e.clipId e.clipId
    rw [if_pos rfl, ← ht] at hfiles
    exact congrFun (congrFun hfiles .pending) .json
  | @delivered m e' _ hid _ ht =>
    have hfiles := @holdings_movedDelivered (movedInflight u m (startAttempt e at_)) e.clipId e'
    rw [if_pos hid.symm, ← ht, holdings_movedInflight, startAttempt_clipId, if_pos rfl] at hfiles
    exact congrFun (congrFun hfiles .pending) .json

/-- With its media the clip comes to `delivered/`. -/
theorem Handled.closed (hs : (u.get (.queue .pending e.clipId .mp4)).isSome) :
    InDelivered t e.clipId := by
  cases h with
  | orphaned hnone _ =>
    rw [hnone] at hs
    cases hs
  | @delivered m e' _ hid hout ht =>
    have hfiles := @holdings_movedDelivered (movedInflight u m (startAttempt e at_)) e.clipId e'
    rw [if_pos hid.symm, ← ht] at hfiles
    exact ⟨e', congrFun (congrFun hfiles .delivered) .json, hid, hout⟩

/-- A record of the clip that was in `delivered/` before stays, or is replaced. -/
theorem Handled.stays (hd : InDelivered u e.clipId) : InDelivered t e.clipId := by
  obtain ⟨e', he', hrest⟩ := hd
  cases h with
  | orphaned hnone ht =>
    have hfiles := @holdings_quarantineOrphan u e.clipId e.clipId
    rw [if_pos rfl, ← ht] at hfiles
    have hkeep : t.get (.queue .delivered e.clipId .json) =
        u.get (.queue .delivered e.clipId .json) := congrFun (congrFun hfiles .delivered) .json
    exact ⟨e', hkeep.trans he', hrest⟩
  | delivered hm hid hout ht => exact (Handled.delivered hm hid hout ht).closed (by rw [hm]; rfl)

end Handled

theorem worked_of_handled (hn : PendingNamed fs) (hpick : PickedLeast fs u at_ (some e))
    (hhandled : Handled u t e at_) : Worked fs t at_ e.clipId := by
  obtain ⟨c, hel, -⟩ := hpick.entry e rfl
  obtain rfl := hn c e hel.1
  have hown : holdings u e.clipId = holdings fs e.clipId := hpick.only.holdings hel.1
  have hmedia : u.get (.queue .pending e.clipId .mp4) = fs.get (.queue .pending e.clipId .mp4) :=
    congrFun (congrFun hown .pending) .mp4
  have hrecords : ∀ s, InDelivered fs s → InDelivered u s := fun s ⟨e', he', hrest⟩ =>
    ⟨e', (hpick.only.delivered .json).trans he', hrest⟩
  refine ⟨⟨e, hel⟩, hhandled.gone, fun hs => hhandled.closed (hmedia ▸ hs), ?_, ?_, ?_⟩
  · intro s hs
    by_cases hc : s = e.clipId
    · subst hc
      rw [hhandled.gone] at hs
      cases hs
    · have hsame : t.get (.queue .pending s .json) = u.get (.queue .pending s .json) :=
        congrFun (congrFun (hhandled.other hc) .pending) .json
      rw [hsame] at hs ⊢
      exact hpick.only.pending hs
  · rintro s hc ⟨⟨e', he'⟩, hs⟩
    have hsame : holdings t s = holdings fs s :=
      (hhandled.other hc).trans (hpick.only.holdings he'.1)
    have hjson : t.get (.queue .pending s .json) = fs.get (.queue .pending s .json) :=
      congrFun (congrFun hsame .pending) .json
    have hmp4 : t.get (.queue .pending s .mp4) = fs.get (.queue .pending s .mp4) :=
      congrFun (congrFun hsame .pending) .mp4
    exact ⟨⟨e', hjson.trans he'.1, he'.2⟩, hmp4 ▸ hs⟩
  · intro s hs
    by_cases hc : s = e.clipId
    · subst hc
      exact hhandled.stays (hrecords _ hs)
    · obtain ⟨e', he', hrest⟩ := hrecords s hs
      have hsame : t.get (.queue .delivered s .json) = u.get (.queue .delivered s .json) :=
        congrFun (congrFun (hhandled.other hc) .delivered) .json
      exact ⟨e', hsame.trans he', hrest⟩

theorem Worked.pendingNamed (h : Worked fs t at_ c) (hn : PendingNamed fs) : PendingNamed t := by
  intro s e he
  refine hn s e ?_
  rw [← h.pending s (by rw [he]; rfl), he]

/-- The sidecars waiting become fewer. -/
theorem Worked.decreases (h : Worked fs t at_ c) : pendingSidecars t < pendingSidecars fs := by
  obtain ⟨e, he, -⟩ := h.picked
  refine Finset.card_lt_card (Finset.ssubset_iff_of_subset ?_ |>.mpr ?_)
  · intro p hp
    obtain ⟨s, rfl, hs⟩ := mem_sidecarsIn.mp hp
    exact mem_sidecarsIn.mpr ⟨s, rfl, h.pending s hs ▸ hs⟩
  · refine ⟨.queue .pending c .json, mem_sidecarsIn.mpr ⟨c, rfl, by rw [he]; rfl⟩, fun hp => ?_⟩
    obtain ⟨s, heq, hs⟩ := mem_sidecarsIn.mp hp
    obtain ⟨-, rfl, -⟩ := Path.queue.inj heq
    rw [h.gone] at hs
    cases hs

/-! ## Iterating at a fixed time -/

/-- `n` iterations at the time `at_`, each of which reports work. -/
inductive Iterated (client : PerchpubClient) (schedule : BackoffSchedule) (at_ : DateTime) :
    ℕ → Fs → Fs → Prop
  | zero {fs : Fs} : Iterated client schedule at_ 0 fs fs
  | succ {n : ℕ} {fs u t : Fs} :
      Runs (Delivering (· = at_)) (tryOnce client schedule) fs (.ok true) u →
      Iterated client schedule at_ n u t → Iterated client schedule at_ (n + 1) fs t

section Iterated

variable {n : ℕ} (hurl : client.allowed "/api/v1/upload/" = .ok url)

include hurl

/-- A run of `try_once` works on a clip, or finds nothing eligible. -/
theorem tryOnce_works {r : Except QueueError Bool} (hn : PendingNamed fs)
    (h : Runs (Delivering clock) (tryOnce client schedule) fs r t) :
    ∃ at_, clock at_ ∧ ((r = .ok false ∧ PickedLeast fs t at_ none) ∨
      r = .ok true ∧ ∃ c, Worked fs t at_ c) := by
  obtain ⟨at_, hclock, hres⟩ := runs_tryOnce_delivering hurl h
  refine ⟨at_, hclock, hres.imp_right ?_⟩
  rintro ⟨rfl, u, e, hpick, hhandled⟩
  exact ⟨rfl, _, worked_of_handled hn hpick hhandled⟩

/-- Every deliverable clip still is, or has come to `delivered/`; and each iteration has cost a
sidecar. -/
theorem Iterated.progress (h : Iterated client schedule at_ n fs t) (hn : PendingNamed fs) :
    PendingNamed t ∧ n + pendingSidecars t ≤ pendingSidecars fs ∧
      (∀ c, InDelivered fs c → InDelivered t c) ∧
      ∀ c, Deliverable fs at_ c → Deliverable t at_ c ∨ InDelivered t c := by
  induction h with
  | zero => exact ⟨hn, (Nat.zero_add _).le, fun _ hd => hd, fun _ hd => Or.inl hd⟩
  | succ hrun _ ih =>
    obtain ⟨_, rfl, ⟨hr, -⟩ | ⟨-, c, hwork⟩⟩ := tryOnce_works hurl hn hrun
    · cases hr
    obtain ⟨hnamed, hcount, hdone, hrest⟩ := ih (hwork.pendingNamed hn)
    have hless := hwork.decreases
    refine ⟨hnamed, by omega, fun s hs => hdone s (hwork.delivered s hs), fun s hs => ?_⟩
    by_cases hc : s = c
    · subst hc
      exact Or.inr (hdone s (hwork.closed hs.2))
    · exact hrest s (hwork.kept s hc hs)

/-- An iteration that finds nothing leaves nothing eligible: what was deliverable is delivered. -/
theorem Iterated.idle {u : Fs} (h : Iterated client schedule at_ n fs u) (hn : PendingNamed fs)
    (hidle : PickedLeast u t at_ none) :
    (∀ c e, ¬ Eligible t at_ c e) ∧ ∀ c, Deliverable fs at_ c → InDelivered t c := by
  obtain ⟨-, -, -, hrest⟩ := h.progress hurl hn
  constructor
  · intro c e he
    refine hidle.idle rfl c e ⟨?_, he.2⟩
    rw [← hidle.only.pending (by rw [he.1]; rfl), he.1]
  · intro c hc
    rcases hrest c hc with ⟨⟨e, he⟩, -⟩ | ⟨e, he, hid, hout⟩
    · exact absurd he (hidle.idle rfl c e)
    · exact ⟨e, (hidle.only.delivered .json).trans he, hid, hout⟩

end Iterated

/-! ## There is always a next iteration -/

/-- The request is no panic and writes only sidecars. -/
def Req.IsHarmless : Req → Prop
  | .abort => False
  | .write _ b => ∃ e, b = .sidecar e
  | .copy _ _ => False
  | _ => True

/-- A response that is accepted. -/
def created : HttpResponse :=
  { status := 201, retryAfter := .absent, contentLength := none, chunks := [], broken := none,
    text := "", task := .error "" }

/-- Every harmless request is answered, and the lengths stay in range. -/
theorem delivering_total (hclock : clock at_) {r : Req} (hfs : Measurable fs) (hr : r.IsHarmless) :
    ∃ v t, Delivering clock fs r v t ∧ Measurable t := by
  cases r with
  | metadata p =>
    cases hp : fs.get p with
    | none => exact ⟨.error .notFound, fs, ⟨rfl, by rw [hp]⟩, hfs⟩
    | some b =>
      obtain ⟨n, hn⟩ := hfs p b hp
      exact ⟨.ok n, fs, ⟨rfl, by rw [hp]; exact ⟨n, hn, rfl⟩⟩, hfs⟩
  | fileExists p => exact ⟨_, fs, ⟨rfl, rfl⟩, hfs⟩
  | rename src dst =>
    cases hp : fs.get src with
    | none => exact ⟨.error .notFound, fs, by simp [Delivering, Nominal, hp], hfs⟩
    | some b =>
      exact ⟨.ok (), (fs.del src).put dst b, by simp [Delivering, Nominal, hp],
        (hfs.del src).put dst (hfs src b hp)⟩
  | copy src dst => exact hr.elim
  | removeFile p =>
    cases hp : fs.get p with
    | none => exact ⟨.error .notFound, fs, by simp [Delivering, Nominal, hp], hfs⟩
    | some b =>
      exact ⟨.ok (), fs.del p, by simp [Delivering, Nominal, hp], hfs.del p⟩
  | write p contents =>
    obtain ⟨e, rfl⟩ := hr
    exact ⟨.ok (), _, ⟨rfl, rfl⟩, hfs.put p ⟨0, trivial⟩⟩
  | read p =>
    cases hp : fs.get p with
    | none => exact ⟨.error .notFound, fs, ⟨rfl, by rw [hp]⟩, hfs⟩
    | some b => exact ⟨.ok b, fs, ⟨rfl, by rw [hp]⟩, hfs⟩
  | readDir d =>
    obtain ⟨l, hl⟩ := fs.exists_lists fun p => p.inDir d
    exact ⟨.ok l, fs, ⟨rfl, l, hl, rfl⟩, hfs⟩
  | createDirAll d => exact ⟨.ok (), fs, ⟨rfl, rfl⟩, hfs⟩
  | openFile p =>
    cases hp : fs.get p with
    | none => exact ⟨.error .notFound, fs, ⟨rfl, by rw [hp]⟩, hfs⟩
    | some b => exact ⟨.ok (), fs, ⟨rfl, by rw [hp]⟩, hfs⟩
  | now => exact ⟨at_, fs, ⟨hclock, rfl⟩, hfs⟩
  | post u p name =>
    have hread : created.Readable := ⟨fun len hlen => (by cases hlen), rfl, Nat.zero_le _⟩
    exact ⟨.ok created, fs, ⟨rfl, created, rfl, by decide, hread⟩, hfs⟩
  | getUrl u => exact ⟨.error "", fs, rfl, hfs⟩
  | abort => exact hr.elim

theorem exists_runs_delivering {α : Type} {p : Act α} (hclock : clock at_)
    (hp : Within Req.IsHarmless p) (hfs : Measurable fs) :
    ∃ a t, Runs (Delivering clock) p fs a t ∧ Measurable t :=
  hp.exists_runs (fun _ _ hs hr => delivering_total hclock hs hr) hfs

theorem allowsRecords_harmless : AllowsRecords Req.IsHarmless :=
  ⟨fun _ e => ⟨e, rfl⟩, fun _ => trivial, fun _ _ _ => trivial⟩

theorem within_tryOnceHead_harmless : Within Req.IsHarmless tryOnceHead :=
  within_tryOnceHead
    ⟨fun _ => trivial, fun _ => trivial, fun _ => trivial, fun _ => trivial, fun _ => trivial⟩
    allowsRecords_harmless (fun _ _ _ => trivial) (fun _ => trivial) trivial

theorem within_uploadClip_harmless (client : PerchpubClient) (p : Path) (c : ClipId) :
    Within Req.IsHarmless (client.uploadClip p c) := by
  unfold PerchpubClient.uploadClip
  split
  · exact within_pure _
  · refine .bind (within_request trivial) fun v => ?_
    rcases v with _ | _
    · exact within_pure _
    · refine .bind (within_request trivial) fun v => ?_
      rcases v with _ | response
      · exact within_pure _
      · exact .bind (within_request trivial) fun _ => within_pure _

theorem within_tryOnceFinish_harmless {result : Except ClientError ClassifyTaskPublic}
    (h : Accepted result) : Within Req.IsHarmless (tryOnceFinish schedule e result) := by
  rcases h with ⟨task, rfl⟩ | ⟨url, message, rfl⟩
  · exact .bind (within_request trivial) fun _ => allowsRecords_harmless.within_transitionDelivered
  · exact .bind (within_request trivial) fun _ => allowsRecords_harmless.within_transitionDelivered

/-- With uploads accepted `try_once` comes to an end. -/
theorem exists_runs_tryOnce (hurl : client.allowed "/api/v1/upload/" = .ok url)
    (hclock : clock at_) (hfs : Measurable fs) :
    ∃ r t, Runs (Delivering clock) (tryOnce client schedule) fs r t ∧ Measurable t := by
  obtain ⟨hd, w, hhead, hw⟩ := exists_runs_delivering hclock within_tryOnceHead_harmless hfs
  simp only [tryOnce, runs_bind]
  rcases hd with err | _ | _ | entry
  · exact ⟨_, w, ⟨_, w, hhead, rfl, rfl⟩, hw⟩
  · exact ⟨_, w, ⟨_, w, hhead, rfl, rfl⟩, hw⟩
  · exact ⟨_, w, ⟨_, w, hhead, rfl, rfl⟩, hw⟩
  · -- the clip to upload is in `inflight/`, so the upload is accepted
    have hm : ∃ m, w.get (.queue .inflight entry.clipId .mp4) = some m := by
      cases runs_tryOnceHead (runs_of_delivering hhead) with
      | upload => exact ⟨_, get_movedInflight_media⟩
    obtain ⟨m, hm⟩ := hm
    obtain ⟨result, w', hup, hw'⟩ := exists_runs_delivering hclock
      (within_uploadClip_harmless client (.queue .inflight entry.clipId .mp4) entry.clipId) hw
    obtain ⟨-, haccepted⟩ := accepted_of_delivering hurl hm hup
    obtain ⟨v, t, hfin, ht⟩ := exists_runs_delivering hclock
      (@within_tryOnceFinish_harmless entry schedule result haccepted) hw'
    cases v with
    | error err =>
      refine ⟨.error err, t, ⟨_, w, hhead, ?_⟩, ht⟩
      simp only [runs_bind]
      exact ⟨result, w', hup, _, t, hfin, rfl, rfl⟩
    | ok _ =>
      refine ⟨.ok true, t, ⟨_, w, hhead, ?_⟩, ht⟩
      simp only [runs_bind]
      exact ⟨result, w', hup, _, t, hfin, rfl, rfl⟩

/-- The iteration comes to an end. -/
theorem exists_iterated (hurl : client.allowed "/api/v1/upload/" = .ok url) (hn : PendingNamed fs)
    (hfs : Measurable fs) :
    ∃ n u t, Iterated client schedule at_ n fs u ∧
      Runs (Delivering (· = at_)) (tryOnce client schedule) u (.ok false) t := by
  induction hcount : pendingSidecars fs using Nat.strong_induction_on generalizing fs with
  | _ k ih =>
    obtain ⟨r, w, hrun, hw⟩ := @exists_runs_tryOnce fs at_ client schedule (· = at_) url hurl rfl hfs
    obtain ⟨_, rfl, ⟨rfl, -⟩ | ⟨rfl, c, hwork⟩⟩ := tryOnce_works hurl hn hrun
    · exact ⟨0, fs, w, .zero, hrun⟩
    · obtain ⟨n, u, t, hiter, hlast⟩ :=
        ih _ (hcount ▸ hwork.decreases) (hwork.pendingNamed hn) hw rfl
      exact ⟨n + 1, u, t, .succ hrun hiter, hlast⟩

/-- The requests of a scan. -/
def Req.IsScan : Req → Prop
  | .readDir _ | .read _ | .createDirAll _ | .fileExists _ | .rename _ _ => True
  | _ => False

/-- Every scan comes to an end. -/
theorem exists_runs_pickOldestPending (fs : Fs) (at_ : DateTime) :
    ∃ v t, Runs Nominal (pickOldestPending at_) fs v t := by
  have hscan : AllowsScan Req.IsScan :=
    ⟨fun _ => trivial, fun _ => trivial, fun _ => trivial, fun _ => trivial, fun _ => trivial⟩
  refine exists_runs_of_within (fun s r hr => ?_) (hscan.within_pickOldestPending) fs
  exact exists_nominal s (by rintro p rfl; exact hr) (by rintro rfl; exact hr)

/-! ## When an orphan is put away -/

/-- A file is removed from `pending/` only where the media of its clip is not there. -/
def RemovesOrphans (r : Req) (fs : Fs) : Prop :=
  ∀ c x, r = .removeFile (.queue .pending c x) → fs.get (.queue .pending c .mp4) = none

/-- The request removes nothing from `pending/`. -/
def Req.SparesPending (r : Req) : Prop := ∀ c x, r ≠ .removeFile (.queue .pending c x)

theorem heeds_of_spares {α : Type} {p : Act α} (hp : Within Req.SparesPending p) (fs : Fs) :
    Heeds Nominal RemovesOrphans p fs :=
  hp.heeds (fun _ _ hr c x heq => absurd heq (hr c x)) fs

theorem within_writeSidecarAtomic_spares {d : Dir} :
    Within Req.SparesPending (writeSidecarAtomic (.queue d c .json) e) := by
  refine .bind (within_request (by rintro _ _ ⟨⟩)) fun v => ?_
  rcases v with _ | _
  · exact within_pure _
  · refine .bind (within_request (by rintro _ _ ⟨⟩)) fun v => ?_
    rcases v with _ | _ <;> exact within_pure _

theorem within_transitionDelivered_spares : Within Req.SparesPending (transitionDelivered e) := by
  refine .bind within_writeSidecarAtomic_spares fun v => ?_
  rcases v with _ | _
  · exact within_pure _
  · refine .bind (within_removeIfExists (by rintro _ _ ⟨⟩)) fun v => ?_
    rcases v with _ | _
    · exact within_pure _
    · refine .bind (within_request (by rintro _ _ ⟨⟩)) fun v => ?_
      rcases v with _ | _ <;> exact within_pure _

theorem within_transitionBackToPending_spares :
    Within Req.SparesPending (transitionBackToPending e) := by
  have hreturn : Within Req.SparesPending
      (returnMedia (.media .inflight e.clipId) (.media .pending e.clipId)) := by
    refine .bind (within_request (by rintro _ _ ⟨⟩)) fun there => ?_
    cases there with
    | false => exact within_pure _
    | true =>
      refine .bind (within_request (by rintro _ _ ⟨⟩)) fun v => ?_
      rcases v with err | _ <;> exact within_pure _
  refine .bind hreturn fun r => ?_
  rcases r with err | _
  · exact within_pure _
  · refine .bind within_writeSidecarAtomic_spares fun r => ?_
    rcases r with err | _
    · exact within_pure _
    · exact within_removeIfExists (by rintro _ _ ⟨⟩)

theorem within_startUpload_spares : Within Req.SparesPending (startUpload e) := by
  have hcheck : Within Req.SparesPending (preflightCheck (.queue .inflight e.clipId .mp4)) := by
    refine .bind (within_request (by rintro _ _ ⟨⟩)) fun v => ?_
    rcases v with _ | len
    · exact within_pure _
    · dsimp only
      split_ifs <;> exact within_pure _
  refine .bind hcheck fun check => ?_
  cases check with
  | none => exact within_pure _
  | some reason =>
    refine .bind (within_request (by rintro _ _ ⟨⟩)) fun at_ => ?_
    refine .bind within_transitionDelivered_spares fun v => ?_
    rcases v with _ | _ <;> exact within_pure _

theorem within_tryOnceFinish_spares {result : Except ClientError ClassifyTaskPublic} :
    Within Req.SparesPending (tryOnceFinish schedule e result) := by
  rw [tryOnceFinish_eq]
  refine .bind (within_request (by rintro _ _ ⟨⟩)) fun at_ => ?_
  unfold finishAt
  split
  · exact within_transitionDelivered_spares
  · exact within_transitionDelivered_spares
  · split
    · exact within_transitionDelivered_spares
    · split
      · exact ⟨by rintro _ _ ⟨⟩, fun v => v.elim⟩
      · exact within_transitionBackToPending_spares
      · exact .bind (within_request (by rintro _ _ ⟨⟩)) fun _ => within_transitionDelivered_spares

theorem within_uploadClip_spares {p : Path} : Within Req.SparesPending (client.uploadClip p c) := by
  unfold PerchpubClient.uploadClip
  split
  · exact within_pure _
  · refine .bind (within_request (by rintro _ _ ⟨⟩)) fun v => ?_
    rcases v with _ | _
    · exact within_pure _
    · refine .bind (within_request (by rintro _ _ ⟨⟩)) fun v => ?_
      rcases v with _ | response
      · exact within_pure _
      · exact .bind (within_request (by rintro _ _ ⟨⟩)) fun _ => within_pure _

theorem within_pickOldestPending_spares : Within Req.SparesPending (pickOldestPending at_) := by
  have hscan : AllowsScan Req.SparesPending :=
    ⟨fun _ => by rintro _ _ ⟨⟩, fun _ => by rintro _ _ ⟨⟩, fun _ => by rintro _ _ ⟨⟩,
      fun _ => by rintro _ _ ⟨⟩, fun _ => by rintro _ _ ⟨⟩⟩
  exact hscan.within_pickOldestPending

/-- The removal of a file of `c` where its media is not in `pending/`. -/
theorem heeds_removeIfExists {x : Ext} (h : fs.get (.queue .pending c .mp4) = none) :
    Heeds Nominal RemovesOrphans (removeIfExists (.queue .pending c x)) fs := by
  refine heeds_request ?_ fun v t _ => ?_
  · intro c' x' heq
    obtain ⟨-, rfl, -⟩ := Path.queue.inj (Req.removeFile.inj heq)
    exact h
  · rcases v with (_ | _ | _) | _ <;> exact heeds_pure _ _

theorem heeds_quarantineOrphan (h : fs.get (.queue .pending c .mp4) = none) :
    Heeds Nominal RemovesOrphans (quarantineOrphan c) fs := by
  refine (heeds_removeIfExists h).bind fun v t hv => ?_
  obtain ⟨rfl, rfl⟩ := runs_removeIfExists.mp hv
  refine heeds_removeIfExists ?_
  rw [FileMap.get_del, if_neg (by simp), h]

/-- A hand-off removes the sidecar once the media has left. -/
theorem heeds_transitionInflight :
    Heeds Nominal RemovesOrphans (transitionInflight e at_) fs := by
  refine heeds_request (by rintro _ _ ⟨⟩) fun v t hv => ?_
  simp only [Nominal] at hv
  cases hm : fs.get (.queue .pending e.clipId .mp4) with
  | none =>
    rw [hm] at hv
    obtain ⟨rfl, rfl⟩ := hv
    exact heeds_pure _ _
  | some m =>
    rw [hm] at hv
    obtain ⟨rfl, rfl⟩ := hv
    refine (heeds_of_spares within_writeSidecarAtomic_spares _).bind fun v t hv => ?_
    obtain ⟨rfl, rfl⟩ := runs_writeSidecarAtomic.mp hv
    refine (heeds_removeIfExists ?_).bind fun v _ _ => ?_
    · simp [get_replaceSidecar, FileMap.get_put, FileMap.get_del]
    · rcases v with _ | _ <;> exact heeds_pure _ _

/-- Whatever the clock shows and the server answers, `try_once` removes a file from `pending/` only
where the media of its clip is not there. -/
theorem heeds_tryOnce : Heeds Nominal RemovesOrphans (tryOnce client schedule) fs := by
  have hhead : Heeds Nominal RemovesOrphans tryOnceHead fs := by
    refine heeds_request (by rintro _ _ ⟨⟩) fun at_ w _ => ?_
    refine (heeds_of_spares within_pickOldestPending_spares w).bind fun v u _ => ?_
    rcases v with err | _ | e
    · exact heeds_pure _ _
    · exact heeds_pure _ _
    · refine heeds_transitionInflight.bind fun v t hv => ?_
      rcases runs_transitionInflight.mp hv with ⟨hnone, rfl, rfl⟩ | ⟨m, -, rfl, rfl⟩
      · -- the only call of `quarantine_orphan`
        refine (heeds_quarantineOrphan hnone).bind fun v _ _ => ?_
        rcases v with _ | _ <;> exact heeds_pure _ _
      · exact heeds_of_spares within_startUpload_spares _
  refine hhead.bind fun hd u _ => ?_
  rcases hd with err | _ | _ | entry
  · exact heeds_pure _ _
  · exact heeds_pure _ _
  · exact heeds_pure _ _
  · refine heeds_of_spares (.bind within_uploadClip_spares fun result => ?_) u
    refine .bind within_tryOnceFinish_spares fun v => ?_
    rcases v with _ | _ <;> exact within_pure _

/-- `quarantine_orphan` begins with a removal. -/
theorem missing_of_calls {α : Type} {p : Act α} (hp : Heeds Nominal RemovesOrphans p fs)
    (h : Calls Nominal (quarantineOrphan c) p fs t) : t.get (.queue .pending c .mp4) = none := by
  obtain ⟨k, hk⟩ := h
  exact (hp.rest hk).1 c .json rfl

/-! ## The whole head -/

/-- What keeps the delivery head moving, from the store `fs` on. -/
structure NeverWedges (client : PerchpubClient) (schedule : BackoffSchedule) (fs : Fs) : Prop where
  /-- The pick is the eligible entry with the least file name, and moves corrupt sidecars only. -/
  picks : ∀ at_, (∃ v t, Runs Nominal (pickOldestPending at_) fs v t) ∧
    ∀ v t, Runs Nominal (pickOldestPending at_) fs v t → ∃ o, v = .ok o ∧ PickedLeast fs t at_ o
  /-- A `try_once` that reports work leaves fewer sidecars in `pending/`. -/
  decreases : ∀ clock r t, Runs (Delivering clock) (tryOnce client schedule) fs r t →
    r = .ok false ∨ r = .ok true ∧ pendingSidecars t < pendingSidecars fs
  /-- An iteration at a fixed time is bounded; one that finds nothing leaves nothing eligible, and
  what was deliverable is delivered. -/
  settles : ∀ at_ n u, Iterated client schedule at_ n fs u → n ≤ pendingSidecars fs ∧
    ∀ r t, Runs (Delivering (· = at_)) (tryOnce client schedule) u r t → r = .ok true ∨
      r = .ok false ∧ (∀ c e, ¬ Eligible t at_ c e) ∧
        ∀ c, Deliverable fs at_ c → InDelivered t c
  /-- The iteration gets there. -/
  ends : Measurable fs → ∀ at_, ∃ n u t, Iterated client schedule at_ n fs u ∧
    Runs (Delivering (· = at_)) (tryOnce client schedule) u (.ok false) t
  /-- `try_once` calls `quarantine_orphan` only where the media of the clip is missing. -/
  orphans : ∀ clock c u, Calls (Delivering clock) (quarantineOrphan c) (tryOnce client schedule) fs u →
    u.get (.queue .pending c .mp4) = none
  /-- Whatever else it asks, it removes nothing from `pending/` beside the media of the clip. -/
  removals : ∀ clock, Heeds (Delivering clock) RemovesOrphans (tryOnce client schedule) fs

/-- On a store whose pending sidecars decode to their own names or not at all, with uploads accepted,
the delivery head never wedges. -/
theorem head_never_wedges (hn : PendingNamed fs)
    (hurl : client.allowed "/api/v1/upload/" = .ok url) : NeverWedges client schedule fs := by
  refine ⟨fun at_ => ⟨exists_runs_pickOldestPending fs at_, fun v t h => pickedLeast_of_runs h⟩,
    fun clock r t h => ?_, fun at_ n u h => ?_, fun hfs at_ => exists_iterated hurl hn hfs,
    fun clock c u h => ?_, fun clock => ?_⟩
  · obtain ⟨_, -, ⟨rfl, -⟩ | ⟨rfl, c, hwork⟩⟩ := tryOnce_works hurl hn h
    · exact Or.inl rfl
    · exact Or.inr ⟨rfl, hwork.decreases⟩
  · obtain ⟨hnamed, hcount, -⟩ := h.progress hurl hn
    refine ⟨by omega, fun r t hrun => ?_⟩
    obtain ⟨_, rfl, ⟨rfl, hidle⟩ | ⟨rfl, -⟩⟩ := tryOnce_works hurl hnamed hrun
    · exact Or.inr ⟨rfl, h.idle hurl hn hidle⟩
    · exact Or.inl rfl
  · exact missing_of_calls heeds_tryOnce (h.mono fun _ _ _ _ => nominal_of_delivering)
  · exact heeds_tryOnce.of_env fun _ _ _ _ => nominal_of_delivering

/-- A corrupt sidecar, an orphan, and a clip that waits with its media. -/
def mixed : Fs :=
  (((FileMap.empty.put (.queue .pending "bad" .json) (.bytes [])).put
    (.queue .pending "c1" .json) (.sidecar Station.firstEntry)).put
      (.queue .pending "c2" .json) (.sidecar (.new "c2" Station.epoch Station.epoch 1))).put
        (.queue .pending "c2" .mp4) Station.footage

/-- A client of `https://perchpub`. -/
def perchpub : PerchpubClient := ⟨fun s => .ok ⟨s, "perchpub"⟩, ⟨"https://perchpub", "perchpub"⟩⟩

theorem get_mixed_sidecar {s : ClipId} {e : ClipQueueEntry}
    (h : mixed.get (.queue .pending s .json) = some (.sidecar e)) :
    (s = "c1" ∧ e = Station.firstEntry) ∨
      s = "c2" ∧ e = .new "c2" Station.epoch Station.epoch 1 := by
  simp only [mixed, FileMap.get_put, Path.queue.injEq, true_and, and_true, reduceCtorEq, and_false,
    if_false] at h
  split_ifs at h with h2 h1 h0
  · exact Or.inr ⟨h2, (Blob.sidecar.inj (Option.some.inj h)).symm⟩
  · exact Or.inl ⟨h1, (Blob.sidecar.inj (Option.some.inj h)).symm⟩
  · cases h
  · simp at h

/-- The first scan of `mixed` puts the corrupt sidecar away and picks the orphan. -/
theorem calls_quarantineOrphan_mixed {schedule : BackoffSchedule} :
    ∃ t, Calls (Delivering (· = Station.epoch)) (quarantineOrphan "c1") (tryOnce perchpub schedule)
      mixed t := by
  have hfs : Measurable mixed := by
    have hempty : Measurable FileMap.empty := by
      intro p b hb
      simp at hb
    have hbad : ∃ n, (Blob.bytes []).HasLen n := ⟨0, rfl⟩
    have hrecord : ∀ e, ∃ n, (Blob.sidecar e).HasLen n := fun e => ⟨0, trivial⟩
    have hmedia : ∃ n, Station.footage.HasLen n := ⟨1, rfl⟩
    exact (((hempty.put _ hbad).put _ (hrecord _)).put _ (hrecord _)).put _ hmedia
  have hscan : AllowsScan Req.IsHarmless :=
    ⟨fun _ => trivial, fun _ => trivial, fun _ => trivial, fun _ => trivial, fun _ => trivial⟩
  have hruns : ∀ {α : Type} {p : Act α} {fs : Fs}, Within Req.IsHarmless p → Measurable fs →
      ∃ a t, Runs (Delivering (· = Station.epoch)) p fs a t ∧ Measurable t :=
    fun hp hfs => exists_runs_delivering rfl hp hfs
  -- the scan picks `c1`, whose file name is the least of the two
  obtain ⟨v, u, hpick, hu⟩ := hruns
    (@AllowsScan.within_pickOldestPending _ Station.epoch hscan) hfs
  obtain ⟨o, rfl, hleast⟩ := pickedLeast_of_runs (runs_of_delivering hpick)
  have h1 : Eligible mixed Station.epoch "c1" Station.firstEntry := by
    refine ⟨?_, fun next hnext => by cases hnext⟩
    simp [mixed, FileMap.get_put]
  obtain ⟨e, rfl⟩ : ∃ e, o = some e := by
    cases o with
    | none => exact absurd h1 (hleast.idle rfl _ _)
    | some e => exact ⟨e, rfl⟩
  obtain ⟨c, hel, hle⟩ := hleast.entry e rfl
  obtain ⟨rfl, rfl⟩ : c = "c1" ∧ e = Station.firstEntry := by
    rcases get_mixed_sidecar hel.1 with h | ⟨rfl, -⟩
    · exact h
    · exact absurd (hle _ _ h1) (by decide)
  -- its media is missing
  have hmissing : u.get (.queue .pending "c1" .mp4) = none := by
    have hown := congrFun (congrFun (hleast.only.holdings h1.1) .pending) .mp4
    exact Eq.trans hown (by simp [holdings, mixed, FileMap.get_put])
  have hharmless : Within Req.IsHarmless (transitionInflight Station.firstEntry Station.epoch) :=
    allowsRecords_harmless.within_transitionInflight fun _ _ _ => trivial
  obtain ⟨v, t, hmove, -⟩ := hruns hharmless hu
  rcases runs_transitionInflight.mp (runs_of_delivering hmove) with ⟨-, rfl, rfl⟩ | ⟨m, hm, -⟩
  · have hnow : Runs (Delivering (· = Station.epoch)) now mixed Station.epoch mixed :=
      runs_now.mpr ⟨rfl, rfl⟩
    exact ⟨t, (calls_bind hnow (calls_bind hpick (calls_bind hmove (calls_self _ _ t)))).bind⟩
  · rw [show Station.firstEntry.clipId = "c1" from rfl, hmissing] at hm
    cases hm

/-- In `mixed` an orphan is put away, and the head does not wedge. -/
theorem head_never_wedges_mixed :
    NeverWedges perchpub (.fromConfig OperatorConfig.default.retry) mixed ∧
      ∃ t, Calls (Delivering (· = Station.epoch)) (quarantineOrphan "c1")
        (tryOnce perchpub (.fromConfig OperatorConfig.default.retry)) mixed t := by
  have hnamed : PendingNamed mixed := by
    intro c e he
    rcases get_mixed_sidecar he with ⟨rfl, rfl⟩ | ⟨rfl, rfl⟩ <;> rfl
  have hurl : perchpub.allowed "/api/v1/upload/" = .ok
      ⟨PerchpubClient.trimEndSlashes "https://perchpub" ++ "/api/v1/upload/", "perchpub"⟩ := rfl
  exact ⟨head_never_wedges hnamed hurl, calls_quarantineOrphan_mixed⟩

end Perchstation
