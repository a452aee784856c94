import Perchstation.Capture.Supervisor
import Perchstation.ClipIds
import Perchstation.Race.Sweep

/-!
# Staging — the supervisor's surroundings

`CaptureEnv` answers the supervisor: the clock does not go back and time passes with every request,
the camera writes at most the one staging file it names, removals in the staging directory succeed,
every other call on files can fail, and the queue's files can change at any time under the hands of
the delivery workers.  `Inbox` is an inbox with the contract of the trait; the policy inbox is one.
-/

namespace Perchstation

open Resumption QueueStore

/-- The files, the time, the instants at which the camera was invoked, and the log. -/
structure CaptureWorld where
  files : Fs
  clock : DateTime
  recordings : List DateTime
  log : List CaptureLine

/-- The staging directory's files are the same. -/
def SameStaging (fs t : Fs) : Prop := ∀ name, t.get (.source name) = fs.get (.source name)

/-- There is nothing in the staging directory. -/
def EmptyStaging (fs : Fs) : Prop := ∀ name, fs.get (.source name) = none

/-- The path is one of the staging directory. -/
def Path.isStaged : Path → Bool
  | .source _ => true
  | _ => false

/-- The request removes a file of the staging directory. -/
def Req.unlinksStaged : Req → Bool
  | .removeFile p => p.isStaged
  | _ => false

/-- The answers to a call on files: it does what it is asked or, unless it removes a staging file,
fails. -/
def StoreEnv : Env Req Rep Fs := fun fs r v t =>
  Nominal fs r v t ∨ (Faulty fs r v t ∧ r.unlinksStaged = false)

/-- What the camera leaves in the staging directory: it writes at most one file, and if it reports a
clip that is the file. -/
def CameraWrites (fs : Fs) (v : Option (Except CameraError RecordedClip)) (t : Fs) : Prop :=
  ∃ name, (∀ other, other ≠ name → t.get (.source other) = fs.get (.source other)) ∧
    ∀ clip, v = some (.ok clip) → clip.clipPath = .source name

/-- Time passes; the camera is not invoked. -/
structure Passing (w t : CaptureWorld) : Prop where
  clock : w.clock ≤ t.clock
  recordings : t.recordings = w.recordings

def CaptureEnv : Env CaptureReq CaptureRep CaptureWorld
  | w, .io .now, v, t =>
    Passing w t ∧ t.log = w.log ∧ v = t.clock ∧ SameStaging w.files t.files
  | w, .io r, v, t =>
    Passing w t ∧ t.log = w.log ∧ ∃ fs, StoreEnv w.files r v fs ∧ SameStaging fs t.files
  | w, .nextSeq, _, t => Passing w t ∧ t.log = w.log ∧ SameStaging w.files t.files
  | w, .level, _, t => Passing w t ∧ t.log = w.log ∧ SameStaging w.files t.files
  | w, .scanStaging, _, t => Passing w t ∧ t.log = w.log ∧ SameStaging w.files t.files
  | w, .listStaging, v, t => Passing w t ∧ t.log = w.log ∧ SameStaging w.files t.files ∧
      ∃ l, w.files.Lists (fun p => p.isStaged) l ∧ v = .ok (l.map .ok)
  | w, .emit line, _, t =>
    Passing w t ∧ t.log = w.log ++ [line] ∧ SameStaging w.files t.files
  | w, .recordClip _ _ _, v, t =>
    w.clock ≤ t.clock ∧ t.recordings = w.recordings ++ [w.clock] ∧ t.log = w.log ∧
      CameraWrites w.files v t.files

/-! ## Requests that leave the camera alone -/

/-- Between `w` and `t` time has passed, nothing was recorded and no staging file has appeared. -/
structure Since (w t : CaptureWorld) : Prop where
  passing : Passing w t
  staging : ∀ name, w.files.get (.source name) = none → t.files.get (.source name) = none
  log : w.log <+: t.log

namespace Since

variable {w t u : CaptureWorld}

theorem refl (w : CaptureWorld) : Since w w :=
  ⟨⟨le_refl _, rfl⟩, fun _ h => h, List.prefix_rfl⟩

theorem trans (h : Since w t) (h' : Since t u) : Since w u :=
  ⟨⟨h.passing.clock.trans h'.passing.clock,
      h'.passing.recordings.trans h.passing.recordings⟩,
    fun name hn => h'.staging name (h.staging name hn), h.log.trans h'.log⟩

theorem empty (h : Since w t) (hw : EmptyStaging w.files) : EmptyStaging t.files :=
  fun name => h.staging name (hw name)

end Since

/-- The request writes no staging file and does not invoke the camera. -/
def CaptureReq.sparesStaging : CaptureReq → Prop
  | .io (.rename _ dst) | .io (.copy _ dst) | .io (.write dst _) => dst.isStaged = false
  | .recordClip _ _ _ => False
  | _ => True

section Files

variable {fs t : Fs} {name : String}

theorem get_put_source {p : Path} {b : Blob} (hp : p.isStaged = false) :
    (fs.put p b).get (.source name) = fs.get (.source name) := by
  rw [FileMap.get_put, if_neg]
  rintro rfl
  cases hp

theorem get_del_source_eq_none {p : Path} (h : fs.get (.source name) = none) :
    (fs.del p).get (.source name) = none := by
  rw [FileMap.get_del]
  split_ifs
  · rfl
  · exact h

/-- No staging file appears. -/
theorem storeEnv_staging {r : Req} {v : Rep r} (hr : (CaptureReq.io r).sparesStaging)
    (hv : StoreEnv fs r v t) (h : fs.get (.source name) = none) : t.get (.source name) = none := by
  cases hv.elim changed_of_nominal fun hv => changed_of_faulty hv.1 with
  | same => exact h
  | moved _ =>
    rw [get_put_source hr]
    exact get_del_source_eq_none h
  | copied b =>
    rw [get_put_source hr]
    exact h
  | removed => exact get_del_source_eq_none h
  | written b =>
    rw [get_put_source hr]
    exact h

end Files

theorem SameStaging.absent {fs t : Fs} (h : SameStaging fs t) {name : String}
    (hn : fs.get (.source name) = none) : t.get (.source name) = none := (h name).trans hn

/-- What such a request does, whatever is answered. -/
theorem since_of_captureEnv {w t : CaptureWorld} {r : CaptureReq} {v : CaptureRep r}
    (hv : CaptureEnv w r v t) (hr : r.sparesStaging) : Since w t := by
  cases r with
  | io r =>
    cases r with
    | now =>
      obtain ⟨hp, hlog, -, hs⟩ := hv
      exact ⟨hp, fun _ => hs.absent, hlog ▸ List.prefix_rfl⟩
    | abort => exact nomatch v
    | _ =>
      obtain ⟨hp, hlog, fs, hfs, hs⟩ := hv
      exact ⟨hp, fun _ hn => hs.absent (storeEnv_staging hr hfs hn), hlog ▸ List.prefix_rfl⟩
  | nextSeq =>
    obtain ⟨hp, hlog, hs⟩ := hv
    exact ⟨hp, fun _ => hs.absent, hlog ▸ List.prefix_rfl⟩
  | recordClip id maxDuration outer => exact hr.elim
  | level =>
    obtain ⟨hp, hlog, hs⟩ := hv
    exact ⟨hp, fun _ => hs.absent, hlog ▸ List.prefix_rfl⟩
  | scanStaging =>
    obtain ⟨hp, hlog, hs⟩ := hv
    exact ⟨hp, fun _ => hs.absent, hlog ▸ List.prefix_rfl⟩
  | listStaging =>
    obtain ⟨hp, hlog, hs, -⟩ := hv
    exact ⟨hp, fun _ => hs.absent, hlog ▸ List.prefix_rfl⟩
  | emit line =>
    obtain ⟨hp, hlog, hs⟩ := hv
    exact ⟨hp, fun _ => hs.absent, hlog ▸ List.prefix_append _ _⟩

section Rules

variable {α : Type} {w : CaptureWorld} {post : α → CaptureWorld → Prop}

/-- One such request, and what follows it. -/
theorem spec_since {r : CaptureReq} {f : CaptureRep r → CaptureAct α} (hr : r.sparesStaging)
    (h : ∀ v t, CaptureEnv w r v t → Spec CaptureEnv (Since t) post (f v) t) :
    Spec CaptureEnv (Since w) post (Prog.request r >>= f) w := by
  refine spec_request (.refl w) fun v t hv => ?_
  have hsince : Since w t := since_of_captureEnv hv hr
  exact (h v t hv).mono (fun u hu => hsince.trans hu) fun _ _ hp => hp

/-- A program that leaves the camera alone, and what follows it. -/
theorem Since.bind {β : Type} {mid : β → CaptureWorld → Prop} {q : CaptureAct β}
    {f : β → CaptureAct α} (hq : Spec CaptureEnv (Since w) mid q w)
    (hf : ∀ b t, Since w t → mid b t → Spec CaptureEnv (Since t) post (f b) t) :
    Spec CaptureEnv (Since w) post (q >>= f) w :=
  hq.bind fun b t ht hb => (hf b t ht hb).mono (fun _ hu => ht.trans hu) fun _ _ hp => hp

/-- A removed staging file is gone. -/
theorem get_of_unlink {t : CaptureWorld} {name : String} {v : Except IoError Unit}
    (hv : CaptureEnv w (.io (.removeFile (.source name))) v t) :
    t.files.get (.source name) = none := by
  obtain ⟨-, -, fs, hfs, hs⟩ := hv
  refine hs.absent ?_
  rcases hfs with hfs | ⟨-, hfs⟩
  · simp only [Nominal] at hfs
    split at hfs
    · rename_i hnone
      rw [hfs.2]
      exact hnone
    · rw [hfs.2, FileMap.get_del, if_pos rfl]
  · cases hfs

end Rules

/-! ## The inbox -/

/-- The contract of `Inbox::submit`: it moves the clip.  It does not invoke the camera nor write into
the staging directory, and a clip it accepts is in the staging directory no longer. -/
def Moves (submit : Submit) : Prop := ∀ name clipMeta w,
  Spec CaptureEnv (Since w)
    (fun r t => (∃ entry, r = .ok entry) → t.files.get (.source name) = none)
    (submit (.source name) clipMeta) w

/-- An inbox. -/
structure Inbox where
  submit : Submit
  moves : Moves submit

/-- The answers of the surroundings to a request of the queue. -/
def OnStore : Env Req Rep CaptureWorld := fun w r v t => CaptureEnv w (.io r) v t

theorem spec_onStore {α : Type} {stop : CaptureWorld → Prop} {post : α → CaptureWorld → Prop}
    {p : Act α} {w : CaptureWorld} (h : Spec OnStore stop post p w) :
    Spec CaptureEnv stop post (onStore p) w := by
  refine spec_embed ?_
  have henv : (fun s r v t => ∃ v', v' = v ∧ CaptureEnv s (CaptureReq.io r) v' t) = OnStore := by
    funext s r v t
    exact propext ⟨fun ⟨v', hv, h⟩ => hv ▸ h, fun h => ⟨v, rfl, h⟩⟩
  rw [henv]
  exact h

section Submit

variable {w : CaptureWorld} {name : String} {c : ClipId}

/-- Requests of the queue that write no staging file. -/
def Req.sparesStaging (r : Req) : Prop := (CaptureReq.io r).sparesStaging

theorem onStore_since {s t : CaptureWorld} {r : Req} {v : Rep r} (hr : r.sparesStaging)
    (hv : OnStore s r v t) (hs : Since w s) : Since w t :=
  hs.trans (since_of_captureEnv hv hr)

theorem spec_of_spares {α : Type} {p : Act α} (hp : Within Req.sparesStaging p) (w : CaptureWorld) :
    Spec OnStore (Since w) (fun _ => Since w) p w :=
  hp.spec (.refl w) fun _ _ _ _ hr hv hs => onStore_since hr hv hs

theorem sparesStaging_applyPolicy (profile : Profile) (policy : QueuePolicy) (incoming : UInt64) :
    Within Req.sparesStaging (applyPolicy profile policy incoming) :=
  (sweepsOnly_applyPolicy profile policy incoming).mono fun r hr => by
    cases r with
    | rename src dst => exact hr.elim
    | copy src dst => exact hr.elim
    | write p b => exact hr.elim
    | _ => trivial

theorem sparesStaging_writeSidecarAtomic (e : ClipQueueEntry) :
    Within Req.sparesStaging (writeSidecarAtomic (.sidecar .pending c) e) := by
  refine ⟨rfl, fun v => ?_⟩
  rcases v with err | _
  · exact within_pure _
  · refine ⟨rfl, fun v => ?_⟩
    rcases v with err | _ <;> exact within_pure _

theorem sparesStaging_placeMedia :
    Within Req.sparesStaging
      (placeMedia (.source name) (.media .pending c) (.queue .pending c .mp4Tmp)) := by
  refine ⟨rfl, fun v => ?_⟩
  rcases v with err | _
  · refine ⟨rfl, fun v => ?_⟩
    rcases v with err | _
    · exact within_pure _
    · refine ⟨rfl, fun v => ?_⟩
      rcases v with err | _
      · exact within_pure _
      · exact ⟨trivial, fun v => within_pure _⟩
  · exact within_pure _

/-- What `enqueue_with_id` does once the media is in place. -/
theorem sparesStaging_record {e : DateTime → ClipQueueEntry} :
    Within Req.sparesStaging (do
      let at_ ← now
      match ← writeSidecarAtomic (.sidecar .pending c) (e at_) with
      | .error err =>
        let _ ← removeFile (.media .pending c)
        return .error err
      | .ok () => return .ok (e at_) : Act (Except QueueError ClipQueueEntry)) := by
  refine ⟨trivial, fun at_ => (sparesStaging_writeSidecarAtomic _).bind fun r => ?_⟩
  rcases r with err | _
  · exact ⟨trivial, fun v => within_pure _⟩
  · exact within_pure _

theorem sparesStaging_enqueueWithId {clipMeta : ClipMeta} :
    Within Req.sparesStaging (enqueueWithId c (.source name) clipMeta) := by
  refine ⟨trivial, fun v => ?_⟩
  rcases v with err | size
  · exact within_pure _
  · refine sparesStaging_placeMedia.bind fun r => ?_
    rcases r with err | _
    · exact within_pure _
    · exact sparesStaging_record

theorem sparesStaging_submit {profile : Profile} {policy : QueuePolicy} {clipMeta : ClipMeta} :
    Within Req.sparesStaging (submit profile policy c (.source name) clipMeta) := by
  refine ⟨trivial, fun len => (sparesStaging_applyPolicy _ _ _).bind fun outcome => ?_⟩
  cases outcome.result with
  | error err => exact within_pure _
  | ok =>
    refine sparesStaging_enqueueWithId.bind fun r => ?_
    rcases r with err | entry <;> exact within_pure _

/-- The staging file `name` is not there, and no such request brings it back. -/
theorem absent_of_spares {α : Type} {p : Act α} (hp : Within Req.sparesStaging p)
    (hw : w.files.get (.source name) = none) :
    Spec OnStore (fun _ => True) (fun _ t => t.files.get (.source name) = none) p w :=
  (Within.spec (I := fun t => t.files.get (.source name) = none) hp hw
    fun _ _ _ _ hr hv hs => (since_of_captureEnv hv hr).staging name hs).mono
    (fun _ _ => trivial) fun _ _ h => h

/-- A renamed staging file is gone. -/
theorem get_of_rename {t : CaptureWorld} {d : Dir} {x : Ext} {v : Except IoError Unit}
    (hv : OnStore w (.rename (.source name) (.queue d c x)) v t) (hok : v = .ok ()) :
    t.files.get (.source name) = none := by
  obtain ⟨-, -, fs, hfs, hs⟩ := hv
  refine hs.absent ?_
  rcases hfs with hfs | ⟨⟨⟨err, herr⟩, -⟩, -⟩
  · simp only [Nominal] at hfs
    split at hfs
    · obtain ⟨rfl, -⟩ := hfs
      cases hok
    · rw [hfs.2, get_put_source rfl, FileMap.get_del, if_pos rfl]
  · rw [hok] at herr
    cases herr

theorem spec_placeMedia :
    Spec OnStore (fun _ => True) (fun r t => r = .ok () → t.files.get (.source name) = none)
      (placeMedia (.source name) (.media .pending c) (.queue .pending c .mp4Tmp)) w := by
  refine spec_request trivial fun v t hv => ?_
  rcases v with err | _
  · refine spec_request trivial fun v t hv => ?_
    rcases v with err | _
    · exact spec_pure trivial fun h => by cases h
    · refine spec_request trivial fun v t hv => ?_
      rcases v with err | _
      · exact spec_pure trivial fun h => by cases h
      · -- the copy is in place, and the removal of the original does not fail
        exact spec_request trivial fun v t hv => spec_pure trivial fun _ => get_of_unlink hv
  · exact spec_pure trivial fun _ => get_of_rename hv rfl

theorem spec_enqueueWithId {clipMeta : ClipMeta} :
    Spec OnStore (fun _ => True)
      (fun r t => (∃ entry, r = .ok entry) → t.files.get (.source name) = none)
      (enqueueWithId c (.source name) clipMeta) w := by
  refine spec_request trivial fun v t hv => ?_
  rcases v with err | size
  · exact spec_pure trivial fun h => by simp at h
  · refine spec_placeMedia.bind fun r u _ hr => ?_
    rcases r with err | _
    · exact spec_pure trivial fun h => by simp at h
    · exact (absent_of_spares sparesStaging_record (hr rfl)).mono (fun _ h => h) fun _ _ h _ => h

/-- The policy inbox moves the clip. -/
theorem moves_policySubmit (profile : Profile) (policy : QueuePolicy) :
    Moves (policySubmit profile policy) := by
  intro name clipMeta w
  refine spec_since trivial fun seq w' _ => ?_
  have hpost : Spec OnStore (fun _ => True)
      (fun r t => (∃ entry, r.2 = .ok entry) → t.files.get (.source name) = none)
      (submit profile policy (nextClipId clipMeta.capturedAt seq) (.source name) clipMeta) w' := by
    refine spec_request trivial fun len t _ => ?_
    refine ((spec_of_spares (sparesStaging_applyPolicy _ _ _) t).mono (fun _ _ => trivial)
      fun _ _ h => h).bind fun outcome u _ _ => ?_
    cases outcome.result with
    | error err => exact spec_pure trivial fun h => by simp at h
    | ok =>
      refine spec_enqueueWithId.bind fun r s _ hr => ?_
      rcases r with err | entry
      · exact spec_pure trivial fun h => by simp at h
      · exact spec_pure trivial fun _ => hr ⟨entry, rfl⟩
  have hboth := (spec_of_spares sparesStaging_submit w').and hpost
  refine Since.bind (spec_onStore (hboth.mono (fun _ h => h.1) fun _ _ h => h.2)) fun r t _ hr => ?_
  exact spec_pure (.refl t) hr

end Submit

/-- `PolicyInbox` over `StoreInbox`. -/
def policyInbox (profile : Profile) (policy : QueuePolicy) : Inbox :=
  ⟨policySubmit profile policy, moves_policySubmit profile policy⟩

end Perchstation
