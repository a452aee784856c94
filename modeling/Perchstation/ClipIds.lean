import Perchstation.Lib.Execution
import Perchstation.Queue.StoreRules
import Perchstation.Race.Tally

/-!
# Clip ids — what an enqueue overwrites

An id is the capture time to the second and a counter that every process starts at 0.  The machine
runs through process lifetimes: enqueues, restarts, and whatever the other operations do to the clips
there are.  An enqueue hits a stored clip just if that clip was captured in the same second and took
the same place in its process's lifetime.
-/

namespace Perchstation

open BasicIso Resumption QueueStore

theorem nextClipId_inj {t t' : DateTime} {n n' : UInt32} :
    nextClipId t n = nextClipId t' n' ↔ t.timestamp = t'.timestamp ∧ n = n' := by
  constructor
  · intro h
    obtain ⟨htime, hrest⟩ := basicIso_append_inj (String.ofList_injective h)
    have hseq := padded_injective 3 (List.cons.inj hrest).2
    exact ⟨htime, UInt32.toNat_inj.mp hseq⟩
  · rintro ⟨htime, rfl⟩
    unfold nextClipId
    rw [htime]

/-! ## What an enqueue writes -/

/-- Any call may fail, and a file being written may be left with any contents. -/
def Unreliable : Env Req Rep Fs := fun fs r v t => Nominal fs r v t ∨ Faulty fs r v t

theorem changed_of_unreliable {fs t : Fs} {r : Req} {v : Rep r} (h : Unreliable fs r v t) :
    Changed fs r t :=
  h.elim changed_of_nominal changed_of_faulty

section Writes

variable {fs t : Fs} {c : ClipId}

/-- A file of the clip `c`, or one outside the queue. -/
def Path.ofClip (c : ClipId) : Path → Prop
  | .queue _ c' _ => c' = c
  | _ => True

/-- Requests that write no file of another clip. -/
def WritesOnly (c : ClipId) : Req → Prop
  | .metadata _ | .now => True
  | .rename src dst | .copy src dst => src.ofClip c ∧ dst.ofClip c
  | .removeFile p | .write p _ => p.ofClip c
  | _ => False

theorem writesOnly_enqueueWithId (c : ClipId) (name : String) (clipMeta : ClipMeta) :
    Within (WritesOnly c) (enqueueWithId c (.source name) clipMeta) := by
  have hplace : Within (WritesOnly c)
      (placeMedia (.source name) (.media .pending c) (.queue .pending c .mp4Tmp)) := by
    refine ⟨⟨trivial, rfl⟩, fun v => ?_⟩
    rcases v with err | _
    · refine ⟨⟨trivial, rfl⟩, fun v => ?_⟩
      rcases v with err | _
      · exact within_pure _
      · refine ⟨⟨rfl, rfl⟩, fun v => ?_⟩
        rcases v with err | _
        · exact within_pure _
        · exact ⟨trivial, fun v => within_pure _⟩
    · exact within_pure _
  have hwrite : ∀ e, Within (WritesOnly c) (writeSidecarAtomic (.sidecar .pending c) e) := by
    refine fun e => ⟨rfl, fun v => ?_⟩
    rcases v with err | _
    · exact within_pure _
    · refine ⟨⟨rfl, rfl⟩, fun v => ?_⟩
      rcases v with err | _ <;> exact within_pure _
  refine ⟨trivial, fun v => ?_⟩
  rcases v with err | size
  · exact within_pure _
  · refine hplace.bind fun r => ?_
    rcases r with err | _
    · exact within_pure _
    · refine ⟨trivial, fun at_ => (hwrite _).bind fun r => ?_⟩
      rcases r with err | _
      · exact ⟨rfl, fun v => within_pure _⟩
      · exact within_pure _

/-- The files of the other clips are as they were. -/
def SpareOthers (c : ClipId) (fs t : Fs) : Prop :=
  ∀ d c' x, c' ≠ c → t.get (.queue d c' x) = fs.get (.queue d c' x)

theorem SpareOthers.put (h : SpareOthers c fs t) {p : Path} (hp : p.ofClip c) (b : Blob) :
    SpareOthers c fs (t.put p b) := by
  intro d c' x hc
  rw [FileMap.get_put, if_neg ?_]
  · exact h d c' x hc
  · rintro rfl
    exact hc hp

theorem SpareOthers.del (h : SpareOthers c fs t) {p : Path} (hp : p.ofClip c) :
    SpareOthers c fs (t.del p) := by
  intro d c' x hc
  rw [FileMap.get_del, if_neg ?_]
  · exact h d c' x hc
  · rintro rfl
    exact hc hp

theorem SpareOthers.step {u : Fs} (h : SpareOthers c fs t) {r : Req} {v : Rep r}
    (hr : WritesOnly c r) (hv : Unreliable t r v u) : SpareOthers c fs u := by
  cases changed_of_unreliable hv with
  | same => exact h
  | moved _ => exact (h.del hr.1).put hr.2 _
  | copied b => exact h.put hr.2 b
  | removed => exact h.del hr
  | written b => exact h.put hr b

/-- Wherever an enqueue is stopped, and whatever fails in it, the other clips are spared. -/
theorem reaches_enqueue {seq : UInt32} {name : String} {clipMeta : ClipMeta}
    (h : Reaches Unreliable (enqueue seq (.source name) clipMeta) fs t) :
    SpareOthers (nextClipId clipMeta.capturedAt seq) fs t :=
  (writesOnly_enqueueWithId _ name clipMeta).reaches
    (I := SpareOthers (nextClipId clipMeta.capturedAt seq) fs)
    (fun _ _ _ _ hr hv ht => ht.step hr hv) h fun _ _ _ _ => rfl

/-- Clips appear under the chosen id only. -/
theorem SpareOthers.clipsOf (h : SpareOthers c fs t) {c' : ClipId}
    (hc : c' ∈ Perchstation.clipsOf t) : c' = c ∨ c' ∈ Perchstation.clipsOf fs := by
  by_cases hne : c' = c
  · exact Or.inl hne
  · have hfiles : filesOf t c' = filesOf fs c' := by
      simp only [filesOf, h _ c' _ hne]
    rw [mem_clipsOf, hfiles] at hc
    exact Or.inr (mem_clipsOf.mpr hc)

/-- No media and no sidecar is overwritten, moved or removed. -/
def KeepsClips (fs t : Fs) : Prop := ∀ p, p.isClipFile = true → fs.get p ≠ none → t.get p = fs.get p

/-- An id that is not in use spares everything. -/
theorem SpareOthers.keepsClips (h : SpareOthers c fs t) (hc : c ∉ Perchstation.clipsOf fs) :
    KeepsClips fs t := by
  intro p hp hfile
  cases p with
  | queue d c' x =>
    have hmem : c' ∈ Perchstation.clipsOf fs :=
      Finset.mem_image.mpr
        ⟨.queue d c' x, Finset.mem_filter.mpr ⟨FileMap.mem_names.mpr hfile, hp⟩, rfl⟩
    exact h d c' x fun heq => hc (heq ▸ hmem)
  | _ => simp [Path.isClipFile] at hp

end Writes

/-! ## Process lifetimes -/

/-- An enqueue: the capture time, and what its process had counted to. -/
structure Enqueue where
  capturedAt : DateTime
  seq : UInt32

def Enqueue.clipId (e : Enqueue) : ClipId := nextClipId e.capturedAt e.seq

/-- The files, the counter of the running process, and the enqueues of all lifetimes so far. -/
structure Lifetimes where
  fs : Fs
  seq : UInt32
  history : List Enqueue

inductive LifetimeLabel
  | enqueue (capturedAt : DateTime)
  | restart
  | other

/-- An enqueue, which may fail or be stopped anywhere; a restart; or anything that brings in no clip
that was never enqueued. -/
inductive LifetimeStep : Lifetimes → LifetimeLabel → Lifetimes → Prop
  | enqueue {s : Lifetimes} {name : String} {clipMeta : ClipMeta} {t : Fs} :
      Reaches Unreliable (enqueue s.seq (.source name) clipMeta) s.fs t →
      LifetimeStep s (.enqueue clipMeta.capturedAt)
        ⟨t, s.seq + 1, ⟨clipMeta.capturedAt, s.seq⟩ :: s.history⟩
  | restart {s : Lifetimes} : LifetimeStep s .restart ⟨s.fs, 0, s.history⟩
  | other {s : Lifetimes} {t : Fs} : (∀ c ∈ clipsOf t, ∃ e ∈ s.history, e.clipId = c) →
      LifetimeStep s .other ⟨t, s.seq, s.history⟩

/-- Every stored clip goes back to an enqueue. -/
def Traced (s : Lifetimes) : Prop := ∀ c ∈ clipsOf s.fs, ∃ e ∈ s.history, e.clipId = c

section Runs

variable {s t : Lifetimes} {l : LifetimeLabel} {tr : List (LifetimeLabel × Lifetimes)}

theorem Traced.step (h : Traced s) (hstep : LifetimeStep s l t) : Traced t := by
  cases hstep with
  | enqueue hrun =>
    intro c hc
    rcases (reaches_enqueue hrun).clipsOf hc with rfl | hin
    · exact ⟨_, List.mem_cons_self, rfl⟩
    · obtain ⟨e, he, hid⟩ := h c hin
      exact ⟨e, List.mem_cons_of_mem _ he, hid⟩
  | restart => exact h
  | other hknown => exact hknown

/-- The steps of the runner and the removals of a sweep are such other operations. -/
theorem Traced.runnerStep {n : ClipId → UInt64} {u : Fs} (h : Traced s) (hs : RunnerStep n s.fs u) :
    LifetimeStep s .other ⟨u, s.seq, s.history⟩ :=
  .other fun c hc => h c (hs.clipsOf_subset hc)

theorem Traced.removal (h : Traced s) (p : Path) :
    LifetimeStep s .other ⟨s.fs.del p, s.seq, s.history⟩ :=
  .other fun c hc => h c (clipsOf_del_subset _ _ hc)

/-- The enqueues since the last restart. -/
def sinceRestart (tr : List (LifetimeLabel × Lifetimes)) : ℕ :=
  tr.foldl (fun n x => match x.1 with
    | .enqueue _ => n + 1
    | .restart => 0
    | .other => n) 0

/-- The counter of a process tells the place in its lifetime, up to 2^32. -/
theorem seq_eq_sinceRestart {fs₀ : Fs} (hrun : Exec LifetimeStep ⟨fs₀, 0, []⟩ tr s) :
    s.seq = UInt32.ofNat (sinceRestart tr) := by
  induction hrun with
  | nil => rfl
  | snoc _ hstep ih =>
    unfold sinceRestart at ih ⊢
    rw [List.foldl_append]
    cases hstep with
    | enqueue _ =>
      show _ + 1 = UInt32.ofNat (_ + 1)
      rw [ih, UInt32.ofNat_add]
      rfl
    | restart => rfl
    | other _ => exact ih

/-- Over any lifetimes, an enqueue takes an id that no stored clip has, and leaves all stored clips
alone, just if no stored clip was captured in the same second and enqueued at the same count. -/
theorem enqueue_never_clobbers {fs₀ : Fs} {capturedAt : DateTime} (hstart : clipsOf fs₀ = ∅)
    (hrun : Exec LifetimeStep ⟨fs₀, 0, []⟩ tr s) (hstep : LifetimeStep s (.enqueue capturedAt) t) :
    (nextClipId capturedAt s.seq ∉ clipsOf s.fs ∧ KeepsClips s.fs t.fs) ↔
      ∀ e ∈ s.history, e.clipId ∈ clipsOf s.fs →
        ¬(e.capturedAt.timestamp = capturedAt.timestamp ∧ e.seq = s.seq) := by
  have htraced : Traced s := by
    refine hrun.invariant (fun c hc => ?_) fun a l b ha hab => ha.step hab
    simp [hstart] at hc
  constructor
  · rintro ⟨hfresh, -⟩ e - hstored hsame
    exact hfresh (nextClipId_inj.mpr hsame ▸ hstored)
  · intro hdiffer
    have hfresh : nextClipId capturedAt s.seq ∉ clipsOf s.fs := by
      intro hin
      obtain ⟨e, he, hid⟩ := htraced _ hin
      exact hdiffer e he (hid ▸ hin) (nextClipId_inj.mp hid)
    refine ⟨hfresh, ?_⟩
    cases hstep with
    | enqueue hreach => exact (reaches_enqueue hreach).keepsClips hfresh

end Runs

namespace Lifetimes

/-- Two files that are captured in the same second. -/
def captured : Fs :=
  (FileMap.empty.put (.source "a.mp4") (.bytes [0])).put (.source "b.mp4") (.bytes [1])

def instant : DateTime := .ofSecs 0 DateTime.epoch_inRange

/-- The queue after the enqueue of a file of one byte. -/
def after (fs : Fs) (seq : UInt32) (name : String) (b : UInt8) : Fs :=
  enqueued fs name (.bytes [b]) (.new (nextClipId instant seq) instant instant 1)

theorem step_after {s : Lifetimes} (name : String) (b : UInt8)
    (hb : s.fs.get (.source name) = some (.bytes [b])) :
    LifetimeStep s (.enqueue instant)
      ⟨after s.fs s.seq name b, s.seq + 1, ⟨instant, s.seq⟩ :: s.history⟩ := by
  have hruns : Runs Nominal (enqueue s.seq (.source name) ⟨instant⟩) s.fs
      (.ok (.new (nextClipId instant s.seq) instant instant 1)) (after s.fs s.seq name b) :=
    runs_enqueueWithId.mpr (Or.inr ⟨.bytes [b], 1, instant, hb, rfl, rfl, rfl⟩)
  exact .enqueue (Runs.map id (fun _ _ _ _ => Or.inl) hruns).reaches

theorem get_after {fs : Fs} {seq : UInt32} {name : String} {b : UInt8} :
    (after fs seq name b).get (.media .pending (nextClipId instant seq)) = some (.bytes [b]) := by
  simp [after, enqueued, replaceSidecar, FileMap.get_put, FileMap.get_del, ClipQueueEntry.new]

theorem clipsOf_captured : clipsOf captured = ∅ := by decide

end Lifetimes

open Lifetimes

/-- A process that restarts within the second overwrites the first clip of its predecessor. -/
theorem restart_overwrites_clip :
    ∃ (tr : List (LifetimeLabel × Lifetimes)) (s t : Lifetimes),
      clipsOf captured = ∅ ∧ Exec LifetimeStep ⟨captured, 0, []⟩ tr s ∧
      LifetimeStep s (.enqueue instant) t ∧ nextClipId instant s.seq ∈ clipsOf s.fs ∧
      s.fs.get (.media .pending (nextClipId instant s.seq)) = some (.bytes [0]) ∧
      t.fs.get (.media .pending (nextClipId instant s.seq)) = some (.bytes [1]) := by
  have h1 := (Exec.nil (s := ⟨captured, 0, []⟩)).snoc (step_after "a.mp4" 0 rfl)
  have hget : (after captured 0 "a.mp4" 0).get (.media .pending (nextClipId instant 0)) =
      some (.bytes [0]) := get_after
  have hstored : nextClipId instant 0 ∈ clipsOf (after captured 0 "a.mp4" 0) :=
    mem_clipsOf.mpr (Or.inl fun hnone => Option.some_ne_none _ (hget.symm.trans hnone))
  exact ⟨_, _, _, clipsOf_captured, h1.snoc .restart, step_after "b.mp4" 1 rfl,
    hstored, hget, get_after⟩

/-- Two enqueues of one process within a second. -/
theorem enqueue_never_clobbers_twice :
    ∃ (tr : List (LifetimeLabel × Lifetimes)) (s t : Lifetimes),
      Exec LifetimeStep ⟨captured, 0, []⟩ tr s ∧ s.history = [⟨instant, 0⟩] ∧
      LifetimeStep s (.enqueue instant) t ∧ nextClipId instant s.seq ∉ clipsOf s.fs ∧
      KeepsClips s.fs t.fs := by
  have h1 := (Exec.nil (s := ⟨captured, 0, []⟩)).snoc (step_after "a.mp4" 0 rfl)
  have h2 : LifetimeStep ⟨after captured 0 "a.mp4" 0, 0 + 1, [⟨instant, 0⟩]⟩ (.enqueue instant) _ :=
    step_after "b.mp4" 1 rfl
  refine ⟨_, _, _, h1, rfl, h2, (enqueue_never_clobbers clipsOf_captured h1 h2).mpr ?_⟩
  rintro e he - ⟨-, hseq⟩
  obtain rfl := List.mem_singleton.mp he
  exact absurd hseq (by decide)

end Perchstation
